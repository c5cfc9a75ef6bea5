import Mathlib.Algebra.Order.Ring.Nat
import Mathlib.Data.List.Induction

/-! Runs of a deterministic machine that answers each input and may refuse one. -/
namespace Mcl.Library

variable {σ τ ι ρ : Type}

/-- `none` is an input the state does not accept. -/
structure Machine (σ ι ρ : Type) where
  init : σ
  step : σ → ι → Option (ρ × σ)

namespace Machine

/-- The inputs with their answers, and the last state. -/
def runFrom (M : Machine σ ι ρ) : σ → List ι → Option (List (ι × ρ) × σ)
  | s, [] => some ([], s)
  | s, i :: is =>
    match M.step s i with
    | none => none
    | some (r, s') => (runFrom M s' is).map fun (h, t) => ((i, r) :: h, t)

def run (M : Machine σ ι ρ) (is : List ι) : Option (List (ι × ρ) × σ) := M.runFrom M.init is

/-- The states, each with its history, of the runs whose steps all meet `ok`. -/
inductive Reach (M : Machine σ ι ρ) (ok : σ → ι → Prop) : List (ι × ρ) → σ → Prop
  | init : Reach M ok [] M.init
  | step {h : List (ι × ρ)} {s s' : σ} {i : ι} {r : ρ} :
      Reach M ok h s → ok s i → M.step s i = some (r, s') → Reach M ok (h ++ [(i, r)]) s'

variable {M : Machine σ ι ρ} {N : Machine τ ι ρ} {ok : σ → ι → Prop}

theorem Reach.invariant {P : σ → Prop} (hinit : P M.init)
    (hstep : ∀ s i r s', P s → ok s i → M.step s i = some (r, s') → P s')
    {h : List (ι × ρ)} {s : σ} (hr : M.Reach ok h s) : P s := by
  induction hr with
  | init => exact hinit
  | step _ hok hs ih => exact hstep _ _ _ _ ih hok hs

theorem Reach.mono {ok' : σ → ι → Prop} (hok : ∀ s i, ok s i → ok' s i)
    {h : List (ι × ρ)} {s : σ} (hr : M.Reach ok h s) : M.Reach ok' h s := by
  induction hr with
  | init => exact .init
  | step _ hi hs ih => exact .step ih (hok _ _ hi) hs

theorem runFrom_cons {s t : σ} {i : ι} {is : List ι} {hist : List (ι × ρ)}
    (hrun : M.runFrom s (i :: is) = some (hist, t)) :
    ∃ r s' rest, M.step s i = some (r, s') ∧ M.runFrom s' is = some (rest, t) ∧ hist = (i, r) :: rest := by
  simp only [runFrom] at hrun
  split at hrun
  · exact absurd hrun (by simp)
  · next r s' hs =>
    obtain ⟨⟨rest, t'⟩, hrest, heq⟩ := Option.map_eq_some_iff.mp hrun
    obtain ⟨rfl, rfl⟩ := Prod.mk.inj heq
    exact ⟨r, s', rest, hs, hrest, rfl⟩

theorem Reach.runFrom {h : List (ι × ρ)} {s t : σ} (hr : M.Reach ok h s) {is : List ι}
    {h' : List (ι × ρ)} (hrun : M.runFrom s is = some (h', t)) (hok : ∀ s, ∀ i ∈ is, ok s i) :
    M.Reach ok (h ++ h') t := by
  induction is generalizing s h h' with
  | nil =>
    simp only [Machine.runFrom, Option.some.injEq, Prod.mk.injEq] at hrun
    obtain ⟨rfl, rfl⟩ := hrun
    simpa using hr
  | cons i is ih =>
    simp only [Machine.runFrom] at hrun
    split at hrun
    · exact absurd hrun (by simp)
    · next r s' hs =>
      simp only [Option.map_eq_some_iff, Prod.mk.injEq] at hrun
      obtain ⟨⟨h'', t'⟩, hrest, rfl, rfl⟩ := hrun
      have := ih (.step hr (hok s i List.mem_cons_self) hs) hrest
        fun s j hj => hok s j (List.mem_cons_of_mem _ hj)
      simpa using this

/-- The machine that accepts only what passes a test. -/
def restrict (M : Machine σ ι ρ) (test : σ → ι → Bool) : Machine σ ι ρ :=
  { M with step := fun s i => if test s i then M.step s i else none }

theorem Reach.of_restrict {test : σ → ι → Bool} {h : List (ι × ρ)} {s : σ}
    (hr : (M.restrict test).Reach ok h s) : M.Reach (fun s i => test s i = true) h s := by
  induction hr with
  | init => exact .init
  | step _ _ hs ih =>
    simp only [restrict] at hs
    split at hs
    · next htest => exact .step ih htest hs
    · exact absurd hs (by simp)

/-- A step that also computes something to keep beside the state. -/
theorem map_beside_iff {β : Type} {o : Option (ρ × σ)} {g : ρ → σ → β} {r : ρ} {b : β} {s : σ} :
    (o.map fun (r, s) => (r, (g r s, s))) = some (r, (b, s)) ↔ o = some (r, s) ∧ b = g r s := by
  constructor
  · intro hs
    obtain ⟨⟨r', s'⟩, hs', heq⟩ := Option.map_eq_some_iff.mp hs
    obtain ⟨rfl, hpair⟩ := Prod.mk.inj heq
    obtain ⟨rfl, rfl⟩ := Prod.mk.inj hpair
    exact ⟨hs', rfl⟩
  · rintro ⟨hs, rfl⟩
    exact Option.map_eq_some_iff.mpr ⟨(r, s), hs, rfl⟩

/-- The machine that remembers its own history. -/
def traced (M : Machine σ ι ρ) : Machine (List (ι × ρ) × σ) ι ρ :=
  ⟨([], M.init), fun x i => (M.step x.2 i).map fun (r, s) => (r, (x.1 ++ [(i, r)], s))⟩

theorem traced_step {h h' : List (ι × ρ)} {s s' : σ} {i : ι} {r : ρ} :
    M.traced.step (h, s) i = some (r, (h', s')) ↔ M.step s i = some (r, s') ∧ h' = h ++ [(i, r)] :=
  map_beside_iff (o := M.step s i) (g := fun r _ => h ++ [(i, r)])

theorem Reach.traced {ok : List (ι × ρ) × σ → ι → Prop} {h : List (ι × ρ)} {x : List (ι × ρ) × σ}
    (hr : M.traced.Reach ok h x) : x.1 = h ∧ M.Reach (fun _ _ => True) h x.2 := by
  induction hr with
  | init => exact ⟨rfl, .init⟩
  | @step h x x' i r _ _ hs ih =>
    obtain ⟨h', s⟩ := x
    obtain ⟨h'', s'⟩ := x'
    obtain ⟨hs', rfl⟩ := traced_step.mp hs
    obtain ⟨rfl, hr⟩ := ih
    exact ⟨rfl, .step hr trivial hs'⟩

/-- The machine that remembers its last answer. -/
def answered (M : Machine σ ι ρ) : Machine (Option ρ × σ) ι ρ :=
  ⟨(none, M.init), fun x i => (M.step x.2 i).map fun (r, s) => (r, (some r, s))⟩

theorem answered_step {x y : Option ρ × σ} {i : ι} {r : ρ} :
    M.answered.step x i = some (r, y) ↔ M.step x.2 i = some (r, y.2) ∧ y.1 = some r :=
  map_beside_iff (o := M.step x.2 i) (g := fun r _ => some r)

/-- The machine that keeps a log of what its steps contribute. -/
def logged {β : Type} (M : Machine σ ι ρ) (f : σ → ι → σ → List β) : Machine (List β × σ) ι ρ :=
  ⟨([], M.init), fun x i => (M.step x.2 i).map fun (r, s) => (r, (x.1 ++ f x.2 i s, s))⟩

theorem logged_step {β : Type} {f : σ → ι → σ → List β} {log log' : List β} {s s' : σ} {i : ι} {r : ρ} :
    (M.logged f).step (log, s) i = some (r, (log', s')) ↔
      M.step s i = some (r, s') ∧ log' = log ++ f s i s' :=
  map_beside_iff (o := M.step s i) (g := fun _ s' => log ++ f s i s')

/-- What a history shows, after one more step. -/
theorem filterMap_concat {α β : Type} (f : α → Option β) (xs : List α) (x : α) :
    (xs ++ [x]).filterMap f = xs.filterMap f ++ (f x).toList := by
  rw [List.filterMap_append]
  cases hx : f x with
  | none => simp [hx]
  | some y => simp [hx]

/-- A run reaches its last state. -/
theorem reach_of_inputs {p : ι → Prop} {is : List ι} {h : List (ι × ρ)} {t : σ}
    (hrun : M.run is = some (h, t)) (hp : ∀ i ∈ is, p i) : M.Reach (fun _ i => p i) h t := by
  simpa using (Reach.init : M.Reach (fun _ i => p i) [] M.init).runFrom hrun fun _ i hi => hp i hi

theorem reach_of_run {is : List ι} {h : List (ι × ρ)} {t : σ} (hrun : M.run is = some (h, t)) :
    M.Reach (fun _ _ => True) h t :=
  reach_of_inputs hrun fun _ _ => trivial

/-- What a run on given inputs shows, by evaluation. -/
theorem exists_of_run (M : Machine σ ι ρ) (is : List ι) (shows : List (ι × ρ) × σ → Prop) [DecidablePred shows]
    (h : ((M.run is).any fun r => decide (shows r)) = true) :
    ∃ hist s, M.run is = some (hist, s) ∧ shows (hist, s) := by
  obtain ⟨⟨hist, s⟩, hrun, htest⟩ := (Option.any_eq_true _ _).mp h
  exact ⟨hist, s, hrun, of_decide_eq_true htest⟩

/-- The same for a run whose steps all meet a test. -/
theorem exists_of_restrict (M : Machine σ ι ρ) (test : σ → ι → Bool) (is : List ι)
    (shows : List (ι × ρ) × σ → Prop) [DecidablePred shows]
    (h : (((M.restrict test).run is).any fun r => decide (shows r)) = true) :
    ∃ hist s, M.Reach (fun s i => test s i = true) hist s ∧ shows (hist, s) := by
  obtain ⟨hist, s, hrun, hshows⟩ := (M.restrict test).exists_of_run is shows h
  exact ⟨hist, s, (reach_of_run hrun).of_restrict, hshows⟩

theorem runFrom_concat {s t u : σ} {is : List ι} {h : List (ι × ρ)} {i : ι} {r : ρ}
    (hrun : M.runFrom s is = some (h, t)) (hs : M.step t i = some (r, u)) :
    M.runFrom s (is ++ [i]) = some (h ++ [(i, r)], u) := by
  induction is generalizing s h with
  | nil =>
    simp only [Machine.runFrom, Option.some.injEq, Prod.mk.injEq] at hrun
    obtain ⟨rfl, rfl⟩ := hrun
    simp [Machine.runFrom, hs]
  | cons j is ih =>
    simp only [Machine.runFrom] at hrun
    split at hrun
    · exact absurd hrun (by simp)
    · next r' s' hs' =>
      simp only [Option.map_eq_some_iff, Prod.mk.injEq] at hrun
      obtain ⟨⟨h', t'⟩, hrest, rfl, rfl⟩ := hrun
      simp [Machine.runFrom, hs', ih hrest]

/-- A history holds the inputs in order. -/
theorem runFrom_history {s t : σ} {is : List ι} {h : List (ι × ρ)}
    (hrun : M.runFrom s is = some (h, t)) : h.map Prod.fst = is := by
  induction is generalizing s h with
  | nil =>
    simp only [Machine.runFrom, Option.some.injEq, Prod.mk.injEq] at hrun
    rw [← hrun.1]
    rfl
  | cons i is ih =>
    simp only [Machine.runFrom] at hrun
    split at hrun
    · exact absurd hrun (by simp)
    · simp only [Option.map_eq_some_iff, Prod.mk.injEq] at hrun
      obtain ⟨⟨h', t'⟩, hrest, rfl, rfl⟩ := hrun
      rw [List.map_cons, ih hrest]

/-- What is reached is reached by the run of the history's inputs. -/
theorem Reach.run {h : List (ι × ρ)} {s : σ} (hr : M.Reach ok h s) :
    M.run (h.map Prod.fst) = some (h, s) := by
  induction hr with
  | init => rfl
  | step _ _ hs ih =>
    rw [List.map_append]
    exact runFrom_concat ih hs

/-! Runs in which a rule chooses the inputs. -/

/-- The answers and the last state of the run in which `next` chooses each input until it chooses
none; `none` when it has not ended with the fuel. -/
def drive (M : Machine σ ι ρ) (next : σ → Option ι) : ℕ → σ → Option (List ρ × σ)
  | 0, _ => none
  | fuel + 1, s =>
    match next s with
    | none => some ([], s)
    | some i => do
      let (r, s) ← M.step s i
      let (rs, t) ← M.drive next fuel s
      some (r :: rs, t)

/-- The rule leads from `s` to `t`, with the answers `rs`. -/
def Leads (M : Machine σ ι ρ) (next : σ → Option ι) (s : σ) (rs : List ρ) (t : σ) : Prop :=
  ∃ k, ∀ fuel, M.drive next (fuel + k) s = (M.drive next fuel t).map fun x => (rs ++ x.1, x.2)

namespace Leads

variable {next : σ → Option ι} {s t u : σ} {rs rs' : List ρ}

theorem refl (s : σ) : M.Leads next s [] s := ⟨0, fun fuel => by simp⟩

theorem step {i : ι} {r : ρ} (hi : next s = some i) (hs : M.step s i = some (r, t)) : M.Leads next s [r] t := by
  refine ⟨1, fun fuel => ?_⟩
  rw [drive, hi]
  simp only [hs, Option.bind_eq_bind, Option.bind_some]
  cases M.drive next fuel t <;> rfl

theorem trans (h : M.Leads next s rs t) (h' : M.Leads next t rs' u) : M.Leads next s (rs ++ rs') u := by
  obtain ⟨k, hk⟩ := h
  obtain ⟨k', hk'⟩ := h'
  refine ⟨k' + k, fun fuel => ?_⟩
  rw [← Nat.add_assoc, hk, hk', Option.map_map]
  congr 1
  funext x
  exact congrArg (·, x.2) (List.append_assoc rs rs' x.1).symm

theorem head {i : ι} {r : ρ} (hi : next s = some i) (hs : M.step s i = some (r, t)) (h : M.Leads next t rs u) :
    M.Leads next s (r :: rs) u :=
  (Leads.step hi hs).trans h

/-- Where the rule chooses none, the run ends. -/
theorem ends (h : M.Leads next s rs t) (ht : next t = none) :
    ∃ n, ∀ fuel, n ≤ fuel → M.drive next fuel s = some (rs, t) := by
  obtain ⟨k, hk⟩ := h
  refine ⟨k + 1, fun fuel hle => ?_⟩
  obtain ⟨d, rfl⟩ := Nat.exists_eq_add_of_le hle
  rw [show k + 1 + d = d + 1 + k by omega, hk, drive, ht, Option.map_some, List.append_nil]

end Leads

theorem drive_some {next : σ → Option ι} {k : ℕ} {s t : σ} {rs : List ρ} (hdrive : M.drive next (k + 1) s = some (rs, t)) :
    next s = none ∧ rs = [] ∧ t = s ∨
      ∃ i r s' rs', next s = some i ∧ M.step s i = some (r, s') ∧ M.drive next k s' = some (rs', t) ∧ rs = r :: rs' := by
  rw [drive] at hdrive
  split at hdrive
  · next hnext =>
    cases hdrive
    exact .inl ⟨hnext, rfl, rfl⟩
  · next i hnext =>
    simp only [Option.bind_eq_bind, Option.bind_eq_some_iff, Option.some.injEq] at hdrive
    obtain ⟨⟨r, s'⟩, hs, ⟨rs', t'⟩, hrest, heq⟩ := hdrive
    cases heq
    exact .inr ⟨i, r, s', rs', hnext, hs, hrest, rfl⟩

/-- What a rule leads to is reached. -/
theorem Reach.drive {next : Option ρ × σ → Option ι} {h : List (ι × ρ)} {o : Option ρ} {s : σ} {x : Option ρ × σ}
    {rs : List ρ} {k : ℕ} (hr : M.Reach ok h s) (hok : ∀ x i, next x = some i → ok x.2 i)
    (hdrive : M.answered.drive next k (o, s) = some (rs, x)) : ∃ h', M.Reach ok h' x.2 := by
  induction k generalizing h o s rs with
  | zero => exact absurd hdrive (by simp [Machine.drive])
  | succ k ih =>
    rcases drive_some hdrive with ⟨-, -, rfl⟩ | ⟨i, r, ⟨o', s'⟩, rs', hnext, hs, hrest, -⟩
    · exact ⟨h, hr⟩
    · exact ih (.step hr (hok (o, s) i hnext) (answered_step.mp hs).1) hrest

/-- A run by one rule that the rule of another machine follows. `R` looks at what the answers so far have shown. -/
theorem drive_followed {γ : Type} {shows : ρ → List γ} {next : σ → Option ι} {next' : τ → Option ι}
    {R : List γ → σ → τ → Prop}
    (hstep : ∀ log s u i r s', R log s u → next s = some i → M.step s i = some (r, s') →
      ∃ us u', N.Leads next' u us u' ∧ us.flatMap shows = shows r ∧ R (log ++ shows r) s' u')
    {k : ℕ} {s t : σ} {u : τ} {rs : List ρ} {log : List γ} (hdrive : M.drive next k s = some (rs, t)) (hR : R log s u) :
    ∃ us u', N.Leads next' u us u' ∧ us.flatMap shows = rs.flatMap shows ∧ R (log ++ rs.flatMap shows) t u' := by
  induction k generalizing s u rs log with
  | zero => exact absurd hdrive (by simp [Machine.drive])
  | succ k ih =>
    rcases drive_some hdrive with ⟨-, rfl, rfl⟩ | ⟨i, r, s', rs', hnext, hs, hrest, rfl⟩
    · refine ⟨[], u, .refl u, rfl, ?_⟩
      rwa [List.flatMap_nil, List.append_nil]
    · obtain ⟨us, u', hleads, hshows, hR'⟩ := hstep log s u i r s' hR hnext hs
      obtain ⟨us', u'', hleads', hshows', hR''⟩ := ih hrest hR'
      refine ⟨us ++ us', u'', hleads.trans hleads', ?_, ?_⟩
      · rw [List.flatMap_append, hshows, hshows', List.flatMap_cons]
      · rwa [List.flatMap_cons, ← List.append_assoc]

/-- Machines that, with enough fuel, follow each step of another one follow its runs. The inputs are seen through `look`
and `look'`. -/
theorem runFrom_fuelled {κ ι' ρ' : Type} (L : ℕ → Machine τ ι' ρ') (look : κ → ι) (look' : κ → ι')
    (R : σ → τ → Prop) (A : ρ → ρ' → Prop)
    (hstep : ∀ s t k r s', R s t → M.step s (look k) = some (r, s') →
      ∃ a t' n, (∀ fuel, n ≤ fuel → (L fuel).step t (look' k) = some (a, t')) ∧ A r a ∧ R s' t')
    {s s' : σ} {t : τ} (hR : R s t) {ks : List κ} {h : List (ι × ρ)}
    (hrun : M.runFrom s (ks.map look) = some (h, s')) :
    ∃ h' t' n, (∀ fuel, n ≤ fuel → (L fuel).runFrom t (ks.map look') = some (h', t')) ∧
      List.Forall₂ A (h.map Prod.snd) (h'.map Prod.snd) ∧ R s' t' := by
  induction ks generalizing s t h with
  | nil =>
    obtain ⟨rfl, rfl⟩ := Prod.mk.inj (Option.some.inj hrun)
    exact ⟨[], t, 0, fun fuel _ => rfl, .nil, hR⟩
  | cons k ks ih =>
    rw [List.map_cons] at hrun
    obtain ⟨r, s₁, rest, hs, hrest, rfl⟩ := runFrom_cons hrun
    obtain ⟨a, t₁, n, hn, hA, hR₁⟩ := hstep _ _ _ _ _ hR hs
    obtain ⟨h', t', n', hn', hall, hR'⟩ := ih hR₁ hrest
    refine ⟨(look' k, a) :: h', t', max n n', fun fuel hle => ?_, .cons hA hall, hR'⟩
    have hfirst := hn fuel (Nat.le_trans (Nat.le_max_left n n') hle)
    have hothers := hn' fuel (Nat.le_trans (Nat.le_max_right n n') hle)
    simp only [List.map_cons, Machine.runFrom, hfirst, hothers, Option.map_some]

/-- A run that a second machine follows on inputs that only look the same. -/
theorem Reach.followed {κ : Type} {call : ι → κ} {ok : List (ι × ρ) × σ → ι → Prop}
    {R : List (ι × ρ) → σ → τ → Prop} (hinit : R [] M.init N.init)
    (hstep : ∀ h s t i j r s', R h s t → ok (h, s) i → M.step s i = some (r, s') → call j = call i →
      ∃ t', N.step t j = some (r, t') ∧ R (h ++ [(i, r)]) s' t')
    {h : List (ι × ρ)} {x : List (ι × ρ) × σ} (hr : M.traced.Reach ok h x) {js : List ι}
    (hjs : js.map call = h.map fun p => call p.1) :
    ∃ h' t, N.run js = some (h', t) ∧ h'.map Prod.snd = h.map Prod.snd ∧ R h x.2 t := by
  induction hr generalizing js with
  | init =>
    rw [List.map_nil, List.map_eq_nil_iff] at hjs
    subst hjs
    exact ⟨[], N.init, rfl, rfl, hinit⟩
  | @step h x x' i r hr hok hs ih =>
    obtain ⟨h₁, s⟩ := x
    obtain ⟨h₂, s'⟩ := x'
    obtain ⟨hs', rfl⟩ := traced_step.mp hs
    obtain rfl : h₁ = h := hr.traced.1
    rw [List.map_append, List.map_eq_append_iff] at hjs
    obtain ⟨js, js', rfl, hjs, hlast⟩ := hjs
    obtain ⟨j, rfl, hj⟩ := List.map_eq_singleton_iff.mp hlast
    obtain ⟨h', t, hrun, hans, hR⟩ := ih hjs
    obtain ⟨t', ht, hR'⟩ := hstep _ _ _ _ _ _ _ hR hok hs' hj
    refine ⟨h' ++ [(j, r)], t', runFrom_concat hrun ht, ?_, hR'⟩
    rw [List.map_append, List.map_append, hans]
    rfl

/-- A machine that takes the steps of another one, as long as these meet `ok`, makes its runs. -/
theorem Reach.simulates {R : σ → τ → Prop} (hinit : R M.init N.init)
    (hstep : ∀ s t i r s', R s t → ok s i → M.step s i = some (r, s') → ∃ t', N.step t i = some (r, t') ∧ R s' t')
    {h : List (ι × ρ)} {s : σ} (hr : M.Reach ok h s) : ∃ t, N.run (h.map Prod.fst) = some (h, t) ∧ R s t := by
  induction hr with
  | init => exact ⟨N.init, rfl, hinit⟩
  | step _ hok hs ih =>
    obtain ⟨t, hrun, hR⟩ := ih
    obtain ⟨t', ht, hR'⟩ := hstep _ _ _ _ _ hR hok hs
    refine ⟨t', ?_, hR'⟩
    rw [List.map_append]
    exact runFrom_concat hrun ht

/-- The costs of a run when each step is paid for by its charge and by what the potential gives. -/
theorem Reach.amortised {cost : σ → ι → σ → List ℕ} (charge : ι × ρ → ℕ) (potential : σ → ℕ) {P : σ → Prop}
    {ok : List ℕ × σ → ι → Prop} (hinit : P M.init)
    (hstep : ∀ s i r s', P s → M.step s i = some (r, s') →
      P s' ∧ (cost s i s').sum + potential s' ≤ potential s + charge (i, r))
    {h : List (ι × ρ)} {x : List ℕ × σ} (hr : (M.logged cost).Reach ok h x) :
    P x.2 ∧ x.1.sum + potential x.2 ≤ potential M.init + (h.map charge).sum := by
  induction hr with
  | init => exact ⟨hinit, Nat.le_of_eq (Nat.zero_add _)⟩
  | @step h x x' i r _ _ hs ih =>
    obtain ⟨log, s⟩ := x
    obtain ⟨log', s'⟩ := x'
    obtain ⟨hs', rfl⟩ := logged_step.mp hs
    obtain ⟨hP, hpaid⟩ := ih
    obtain ⟨hP', hcost⟩ := hstep s i r s' hP hs'
    refine ⟨hP', ?_⟩
    have hcharges : ((h ++ [(i, r)]).map charge).sum = (h.map charge).sum + charge (i, r) := by
      rw [List.map_append, List.sum_append, List.map_singleton, List.sum_singleton]
    rw [hcharges, List.sum_append]
    dsimp only at hpaid ⊢
    omega

/-- A machine that accepts every input in the states its invariant allows runs to the end. -/
theorem run_total {P : List (ι × ρ) → σ → Prop} (hinit : P [] M.init)
    (hstep : ∀ h s i, P h s → ∃ r s', M.step s i = some (r, s') ∧ P (h ++ [(i, r)]) s')
    (is : List ι) : ∃ h s, M.run is = some (h, s) ∧ P h s := by
  induction is using List.reverseRecOn with
  | nil => exact ⟨[], M.init, rfl, hinit⟩
  | append_singleton is i ih =>
    obtain ⟨h, s, hrun, hP⟩ := ih
    obtain ⟨r, s', hs, hP'⟩ := hstep h s i hP
    exact ⟨h ++ [(i, r)], s', runFrom_concat hrun hs, hP'⟩

/-- `R` relates the states of two machines that accept every input and answer alike. -/
theorem run_simulation {R : σ → τ → Prop} (hinit : R M.init N.init)
    (hstep : ∀ s t i, R s t →
      ∃ r s' t', M.step s i = some (r, s') ∧ N.step t i = some (r, t') ∧ R s' t')
    (is : List ι) :
    ∃ h s t, M.run is = some (h, s) ∧ N.run is = some (h, t) ∧ R s t := by
  suffices ∀ s t, R s t → ∃ h s' t', M.runFrom s is = some (h, s') ∧
      N.runFrom t is = some (h, t') ∧ R s' t' from this _ _ hinit
  induction is with
  | nil => exact fun s t hR => ⟨[], s, t, rfl, rfl, hR⟩
  | cons i is ih =>
    intro s t hR
    obtain ⟨r, s', t', hs, ht, hR'⟩ := hstep s t i hR
    obtain ⟨h, s'', t'', hs', ht', hR''⟩ := ih s' t' hR'
    exact ⟨(i, r) :: h, s'', t'', by simp [Machine.runFrom, hs, hs'],
      by simp [Machine.runFrom, ht, ht'], hR''⟩

/-- Two machines that accept the same inputs, and answer alike. -/
theorem run_bisimulation {R : σ → τ → Prop} (hinit : R M.init N.init)
    (hstep : ∀ s t i, R s t → (M.step s i = none ∧ N.step t i = none) ∨
      ∃ r s' t', M.step s i = some (r, s') ∧ N.step t i = some (r, t') ∧ R s' t')
    (is : List ι) : (M.run is = none ∧ N.run is = none) ∨
      ∃ h s t, M.run is = some (h, s) ∧ N.run is = some (h, t) ∧ R s t := by
  suffices ∀ s t, R s t → (M.runFrom s is = none ∧ N.runFrom t is = none) ∨
      ∃ h s' t', M.runFrom s is = some (h, s') ∧ N.runFrom t is = some (h, t') ∧ R s' t' from this _ _ hinit
  induction is with
  | nil => exact fun s t hR => .inr ⟨[], s, t, rfl, rfl, hR⟩
  | cons i is ih =>
    intro s t hR
    rcases hstep s t i hR with ⟨hs, ht⟩ | ⟨r, s', t', hs, ht, hR'⟩
    · exact .inl ⟨by simp [Machine.runFrom, hs], by simp [Machine.runFrom, ht]⟩
    rcases ih s' t' hR' with ⟨hs', ht'⟩ | ⟨h, s'', t'', hs', ht', hR''⟩
    · exact .inl ⟨by simp [Machine.runFrom, hs, hs'], by simp [Machine.runFrom, ht, ht']⟩
    · exact .inr ⟨(i, r) :: h, s'', t'', by simp [Machine.runFrom, hs, hs'], by simp [Machine.runFrom, ht, ht'], hR''⟩

end Machine
end Mcl.Library
