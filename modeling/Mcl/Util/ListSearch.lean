import Mcl.Util.ListErase

/-! `mcl_list_find` against `mcl_list_del_cmp`. -/
namespace Mcl.ListCode

variable {α φ : Type}

/-- A non-NULL element that the comparison accepts. -/
def accepts (data : α) (cmp : Option α → Option α → ℤ) (x : Option α) : Bool :=
  x.any fun y => cmp (some data) (some y) != 0

/-- Both look for the first element that is accepted: one returns it and the other takes out its node,
or both find none. -/
inductive Agree [DecidableEq α] (m : ListMem α φ) (l : MclList α φ) (data : α) (cmp : Option α → Option α → ℤ)
    (freeFn : Option φ) : Prop where
  | found (pre : List (ListEnt α)) (e : ListEnt α) (suf : List (ListEnt α)) (x : α) (m' : ListMem α φ)
      (hl : l.ents = pre ++ e :: suf) (hpre : ∀ y ∈ pre, accepts data cmp y.data = false)
      (hx : e.data = some x) (he : accepts data cmp e.data = true)
      (hfind : mclListFind (some data) m (some cmp) = some (some x))
      (hdel : mclListDelCmp (some data) m (some cmp) freeFn = some (1, m', callFree freeFn (some x)))
      (hrep : Rep m' { l with ents := pre ++ suf, listSz := l.listSz - 1 })
  | missing (hnone : ∀ y ∈ l.ents, accepts data cmp y.data = false)
      (hfind : mclListFind (some data) m (some cmp) = some none)
      (hdel : mclListDelCmp (some data) m (some cmp) freeFn = some (0, m, []))

/-- The elements in front of the first that is accepted, or all of them. -/
def rejected (data : α) (cmp : Option α → Option α → ℤ) (xs : List (Option α)) : List (Option α) :=
  xs.takeWhile fun x => !accepts data cmp x

/-- Nothing in front of the accepted element ends one of the walks early. -/
def Undisturbed (data : α) (cmp : Option α → Option α → ℤ) (xs : List (Option α)) : Prop :=
  some data ∉ rejected data cmp xs ∧
    (none ∈ rejected data cmp xs → rejected data cmp xs = xs ∧ cmp (some data) none = 0)

theorem notMem_data {es : List (ListEnt α)} {x : Option α} : x ∉ es.map (·.data) ↔ ∀ y ∈ es, y.data ≠ x := by
  simp

theorem rejected_append {l : MclList α φ} {data : α} {cmp : Option α → Option α → ℤ} {pre suf : List (ListEnt α)}
    {e : ListEnt α} (hl : l.ents = pre ++ e :: suf) (hpre : ∀ y ∈ pre, accepts data cmp y.data = false)
    (he : accepts data cmp e.data = true) : rejected data cmp l.elems = pre.map (·.data) := by
  rw [rejected, MclList.elems, hl, List.map_append, List.takeWhile_append_of_pos, List.map_cons,
    List.takeWhile_cons_of_neg (by simp [he]), List.append_nil]
  intro x hx
  obtain ⟨y, hy, rfl⟩ := List.mem_map.mp hx
  rw [hpre y hy]
  rfl

/-- The list up to the first element that is accepted. -/
theorem first_accepted (data : α) (cmp : Option α → Option α → ℤ) (l : MclList α φ) :
    ((∀ y ∈ l.ents, accepts data cmp y.data = false) ∧ rejected data cmp l.elems = l.elems) ∨
      ∃ pre e suf, l.ents = pre ++ e :: suf ∧ (∀ y ∈ pre, accepts data cmp y.data = false) ∧
        accepts data cmp e.data = true := by
  cases hfind : l.ents.find? fun y => accepts data cmp y.data with
  | none =>
    have hnone : ∀ y ∈ l.ents, accepts data cmp y.data = false := by
      simpa using List.find?_eq_none.mp hfind
    refine .inl ⟨hnone, ?_⟩
    rw [rejected, List.takeWhile_eq_self_iff, MclList.elems]
    intro x hx
    obtain ⟨y, hy, rfl⟩ := List.mem_map.mp hx
    rw [hnone y hy]
    rfl
  | some e =>
    obtain ⟨he, pre, suf, hl, hpre⟩ := List.find?_eq_some_iff_append.mp hfind
    exact .inr ⟨pre, e, suf, hl, by simpa using hpre, he⟩

variable [DecidableEq α] {m : ListMem α φ} {l : MclList α φ} {data : α} {cmp : Option α → Option α → ℤ}
  {freeFn : Option φ}

/-- A walk of `list_del` that finds nothing writes nothing. -/
theorem listDelLoop_zero {freeFlag : Bool} {cmpFunc : ListCmpFunc α} {data : Option α} {fuel : ℕ} {ent : Ent}
    {m' : ListMem α φ} {freed : Freed φ α}
    (h : listDelLoop data freeFlag cmpFunc freeFn fuel ent m = some (0, m', freed)) : m' = m := by
  induction fuel generalizing ent with
  | zero => exact absurd h (by simp [listDelLoop])
  | succ fuel ih =>
    rw [listDelLoop] at h
    split at h
    · exact (Prod.mk.inj (Prod.mk.inj (Option.some.inj h)).2).1.symm
    · simp only [Option.bind_eq_bind, Option.bind_eq_some_iff] at h
      obtain ⟨a, -, node, -, h⟩ := h
      split at h
      · simp only [Option.bind_eq_some_iff, Option.some.injEq, Prod.mk.injEq] at h
        obtain ⟨r, -, hone, -⟩ := h
        exact absurd hone (by decide)
      · exact ih h

theorem listDel_zero {freeFlag : Bool} {cmpFunc : ListCmpFunc α} {data : Option α} {m' : ListMem α φ}
    {freed : Freed φ α} (h : listDel data m freeFlag cmpFunc freeFn = some (0, m', freed)) : m' = m := by
  unfold listDel at h
  split at h
  · exact listDelLoop_zero h
  · exact (Prod.mk.inj (Prod.mk.inj (Option.some.inj h)).2).1.symm

theorem delHit_of_accepts {x : Option α} (h : accepts data cmp x = true) :
    delHit (some data) (some cmp) x = true := by
  cases x with
  | none => exact absurd h (by simp [accepts])
  | some y =>
    have hcmp : (cmp (some data) (some y) != 0) = true := h
    simp [delHit, hcmp]

theorem delHit_of_rejects {x : Option α} (h : accepts data cmp x = false) (hdata : x ≠ some data)
    (hnull : x = none → cmp (some data) none = 0) : delHit (some data) (some cmp) x = false := by
  cases x with
  | none => simp [delHit, hnull rfl]
  | some y =>
    have hcmp : (cmp (some data) (some y) != 0) = false := h
    have hne : y ≠ data := fun hc => hdata (congrArg some hc)
    simp [delHit, hcmp, hne]

/-- `mcl_list_find`, with no NULL in front of the accepted element. -/
theorem find_of_accepts {pre suf : List (ListEnt α)} {e : ListEnt α} (hl : l.ents = pre ++ e :: suf)
    (hpre : ∀ y ∈ pre, accepts data cmp y.data = false) (he : accepts data cmp e.data = true)
    (hnull : ∀ y ∈ pre, y.data ≠ none) : l.find (findHit data (some cmp)) = e.data := by
  have hstop : ∀ y ∈ pre, (y.data.all (findHit data (some cmp))) = false := by
    intro y hy
    have hrej := hpre y hy
    cases hdata : y.data with
    | none => exact absurd hdata (hnull y hy)
    | some x =>
      rw [hdata] at hrej
      exact hrej
  have hhit : (e.data.all (findHit data (some cmp))) = true := by
    cases hdata : e.data with
    | none =>
      rw [hdata] at he
      exact absurd he (by simp [accepts])
    | some x =>
      rw [hdata] at he
      exact he
  rw [MclList.find, hl, List.find?_append, List.find?_eq_none.mpr (by simpa using hstop)]
  simp [hhit]

/-- Without an element that is accepted it ends at a NULL or at the end. -/
theorem find_of_rejects (hnone : ∀ y ∈ l.ents, accepts data cmp y.data = false) :
    l.find (findHit data (some cmp)) = none := by
  unfold MclList.find
  cases hfind : l.ents.find? fun e => e.data.all (findHit data (some cmp)) with
  | none => rfl
  | some e =>
    have hrej := hnone e (List.mem_of_find?_eq_some hfind)
    have hhit := List.find?_some hfind
    cases hdata : e.data with
    | none => rw [Option.bind_some, hdata]
    | some x =>
      rw [hdata] at hrej hhit
      have hcmp : accepts data cmp (some x) = true := hhit
      rw [hrej] at hcmp
      exact absurd hcmp (by simp)

/-- A NULL in front of the accepted element is where it gives up. -/
theorem find_of_null {pre suf : List (ListEnt α)} (hl : l.ents = pre ++ suf)
    (hpre : ∀ y ∈ pre, accepts data cmp y.data = false) (hnull : ∃ y ∈ pre, y.data = none) :
    l.find (findHit data (some cmp)) = none := by
  obtain ⟨y, hy, hdata⟩ := hnull
  have hsome : pre.find? (fun e => e.data.all (findHit data (some cmp))) ≠ none := by
    intro hnone
    rw [List.find?_eq_none] at hnone
    exact hnone y hy (by rw [hdata]; rfl)
  obtain ⟨e, hfind⟩ := Option.ne_none_iff_exists'.mp hsome
  have hrej := hpre e (List.mem_of_find?_eq_some hfind)
  have hhit := List.find?_some hfind
  rw [MclList.find, hl, List.find?_append, hfind]
  cases he : e.data with
  | none => exact he
  | some x =>
    rw [he] at hrej hhit
    have hcmp : accepts data cmp (some x) = true := hhit
    rw [hrej] at hcmp
    exact absurd hcmp (by simp)

theorem agree_of_found (h : Rep m l) {pre suf : List (ListEnt α)} {e : ListEnt α} (hl : l.ents = pre ++ e :: suf)
    (hpre : ∀ y ∈ pre, accepts data cmp y.data = false) (he : accepts data cmp e.data = true)
    (hdata : ∀ y ∈ pre, y.data ≠ some data) (hnull : ∀ y ∈ pre, y.data ≠ none) :
    Agree m l data cmp freeFn := by
  obtain ⟨x, hx⟩ : ∃ x, e.data = some x := by
    cases hx : e.data with
    | none =>
      rw [hx] at he
      exact absurd he (by simp [accepts])
    | some x => exact ⟨x, rfl⟩
  have hmiss : ∀ y ∈ pre, delHit (some data) (some cmp) y.data = false := fun y hy =>
    delHit_of_rejects (hpre y hy) (hdata y hy) fun hc => absurd hc (hnull y hy)
  obtain ⟨m', hdel, hrep⟩ := listDel_rep h (some data) true (some cmp) freeFn
  rw [if_pos rfl, MclList.del_of_hit hl hmiss (delHit_of_accepts he)] at hdel hrep
  refine .found pre e suf x m' hl hpre hx he ?_ ?_ hrep
  · rw [mclListFind_rep h, find_of_accepts hl hpre he hnull, hx]
  · rw [← hx]
    exact hdel

theorem agree_of_missing (h : Rep m l) (hnone : ∀ y ∈ l.ents, accepts data cmp y.data = false)
    (hdata : ∀ y ∈ l.ents, y.data ≠ some data)
    (hnull : ∀ y ∈ l.ents, y.data = none → cmp (some data) none = 0) : Agree m l data cmp freeFn := by
  have hmiss : ∀ y ∈ l.ents, delHit (some data) (some cmp) y.data = false := fun y hy =>
    delHit_of_rejects (hnone y hy) (hdata y hy) (hnull y hy)
  obtain ⟨m', hdel, -⟩ := listDel_rep h (some data) true (some cmp) freeFn
  rw [if_pos rfl, MclList.del_of_not_hit hmiss] at hdel
  obtain rfl := listDel_zero hdel
  refine .missing hnone ?_ hdel
  rw [mclListFind_rep h, find_of_rejects hnone]

/-- An agreement on an element that was found: neither walk has stopped before it. -/
theorem Agree.undisturbed_found (h : Rep m l) (hagree : Agree m l data cmp freeFn) {pre suf : List (ListEnt α)}
    {e : ListEnt α} (hl : l.ents = pre ++ e :: suf) (hpre : ∀ y ∈ pre, accepts data cmp y.data = false)
    (he : accepts data cmp e.data = true) :
    (∀ y ∈ pre, y.data ≠ some data) ∧ ∀ y ∈ pre, y.data ≠ none := by
  cases hagree with
  | missing hnone _ _ =>
    rw [hnone e (by rw [hl]; simp)] at he
    exact absurd he (by simp)
  | found pre' e' suf' x m' hl' hpre' hx he' hfind hdel hrep =>
    have hcount : pre'.length = pre.length := by
      have hlen := congrArg List.length ((rejected_append hl' hpre' he').symm.trans (rejected_append hl hpre he))
      rwa [List.length_map, List.length_map] at hlen
    obtain ⟨rfl, hcons⟩ := List.append_inj (hl'.symm.trans hl) hcount
    obtain ⟨rfl, rfl⟩ := List.cons.inj hcons
    constructor
    · intro y hy hdata
      obtain ⟨m'', hdel', hrep'⟩ := listDel_rep h (some data) true (some cmp) freeFn
      have hcode := Option.some.inj (hdel.symm.trans hdel')
      obtain rfl := (Prod.mk.inj (Prod.mk.inj hcode).2).1
      exact del_keeps h hl ⟨y, hy, by simp [delHit, hdata]⟩ hrep' hrep
    · intro y hy hnull
      rw [mclListFind_rep h, find_of_null hl hpre ⟨y, hy, hnull⟩] at hfind
      exact absurd hfind (by simp)

theorem Agree.undisturbed_missing (h : Rep m l) (hagree : Agree m l data cmp freeFn)
    (hnone : ∀ y ∈ l.ents, accepts data cmp y.data = false) :
    ∀ y ∈ l.ents, delHit (some data) (some cmp) y.data = false := by
  cases hagree with
  | found pre e suf x m' hl _ _ he _ _ _ =>
    rw [hnone e (by rw [hl]; simp)] at he
    exact absurd he (by simp)
  | missing _ _ hdel =>
    intro y hy
    obtain ⟨m', hdel', -⟩ := listDel_rep h (some data) true (some cmp) freeFn
    have hret := (Prod.mk.inj (Option.some.inj (hdel.symm.trans hdel'))).1
    rw [← Bool.not_eq_true]
    intro hhit
    simp only [MclList.del] at hret
    cases hfind : l.ents.find? fun e => delHit (some data) (some cmp) e.data with
    | none => exact List.find?_eq_none.mp hfind y hy hhit
    | some e =>
      rw [hfind] at hret
      have hone : (0 : ℤ) = 1 := hret
      exact absurd hone (by decide)

theorem mclListFind_delCmp_iff (h : Rep m l) (data : α) (cmp : Option α → Option α → ℤ) (freeFn : Option φ) :
    Agree m l data cmp freeFn ↔ Undisturbed data cmp l.elems := by
  rcases first_accepted data cmp l with ⟨hnone, hrejected⟩ | ⟨pre, e, suf, hl, hpre, he⟩
  · unfold Undisturbed
    rw [hrejected]
    constructor
    · intro hagree
      have hmiss := hagree.undisturbed_missing h hnone
      constructor
      · intro hc
        obtain ⟨y, hy, hdata⟩ := List.mem_map.mp hc
        have hhit := hmiss y hy
        rw [hdata] at hhit
        exact absurd hhit (by simp [delHit])
      · intro hc
        obtain ⟨y, hy, hdata⟩ := List.mem_map.mp hc
        have hhit := hmiss y hy
        rw [hdata] at hhit
        exact ⟨rfl, by simpa [delHit] using hhit⟩
    · rintro ⟨hdata, hnull⟩
      refine agree_of_missing h hnone (notMem_data.mp hdata) fun y hy hc => ?_
      exact (hnull (List.mem_map.mpr ⟨y, hy, hc⟩)).2
  · unfold Undisturbed
    rw [rejected_append hl hpre he]
    have hproper : pre.map (·.data) ≠ l.elems := by
      intro hc
      have hlen := congrArg List.length hc
      rw [MclList.elems, List.length_map, List.length_map, hl, List.length_append, List.length_cons] at hlen
      omega
    constructor
    · intro hagree
      obtain ⟨hdata, hnull⟩ := hagree.undisturbed_found h hl hpre he
      exact ⟨notMem_data.mpr hdata, fun hc => absurd hc (notMem_data.mpr hnull)⟩
    · rintro ⟨hdata, hnull⟩
      have hsome : none ∉ pre.map (·.data) := fun hc => hproper (hnull hc).1
      exact agree_of_found h hl hpre he (notMem_data.mp hdata) (notMem_data.mp hsome)

/-- The lookup gives up at the NULL in front, the deletion does not. -/
theorem mclListFind_delCmp_null :
    ¬ ∀ (m : ListMem ℕ ℕ) (l : MclList ℕ ℕ) (data : ℕ) (cmp : Option ℕ → Option ℕ → ℤ) (freeFn : Option ℕ),
      Rep m l → Agree m l data cmp freeFn := by
  intro hall
  obtain ⟨m, l, hrep, helems, -⟩ := exists_rep (none : Option ℕ) [none, some 7] (by decide)
  obtain ⟨e₁, es, hents, he₁, hes⟩ := List.map_eq_cons_iff.mp helems
  obtain ⟨e₂, es, rfl, he₂, hes⟩ := List.map_eq_cons_iff.mp hes
  obtain rfl := List.map_eq_nil_iff.mp hes
  have hagree := hall m l 7 (fun x y => if x = y then 1 else 0) none hrep
  have hpre : ∀ y ∈ [e₁], accepts 7 (fun x y => if x = y then 1 else 0) y.data = false := by
    intro y hy
    rw [List.mem_singleton.mp hy, he₁]
    rfl
  have hhit : accepts 7 (fun x y => if x = y then 1 else 0) e₂.data = true := by
    rw [he₂]
    rfl
  have hnull : ∀ y ∈ [e₁], y.data ≠ none := (hagree.undisturbed_found hrep hents hpre hhit).2
  exact hnull e₁ List.mem_cons_self he₁

/-- An element equal to `data` counts here only behind the one that the comparison accepts. -/
theorem mclListFind_delCmp_three :
    ∃ (m : ListMem ℕ ℕ) (l : MclList ℕ ℕ), l.elems = [some 3, some 9, some 7] ∧
      Agree m l 7 (fun _ y => if y = some 9 then 1 else 0) (some 0) := by
  obtain ⟨m, l, hrep, helems, -⟩ := exists_rep (none : Option ℕ) [some 3, some 9, some 7] (by decide)
  refine ⟨m, l, helems, (mclListFind_delCmp_iff hrep 7 _ (some 0)).mpr ?_⟩
  rw [helems]
  exact ⟨by decide, fun hnull => absurd hnull (by decide)⟩

end Mcl.ListCode
