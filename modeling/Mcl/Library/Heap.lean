import Mathlib.Algebra.BigOperators.Group.Finset.Basic
import Mathlib.Algebra.Order.Quantale
import Mathlib.Algebra.Order.Ring.Nat
import Mathlib.Data.Finmap
import Mathlib.Order.Lattice.Nat
import Mcl.Library.Runs

/-! Programs on a heap of blocks, and assertions about heaps: a commutative quantale, whose product
is the separating conjunction. A specification holds beside every frame and for every choice of
addresses by `malloc`. -/
namespace Mcl.Library

variable {α β γ : Type}

abbrev Heap (β : Type) := Finmap fun _ : ℕ => β

/-- The address that the `n`th `malloc` returns: any that is not in use. -/
structure Malloc (β : Type) where
  pick : ℕ → Heap β → ℕ
  fresh : ∀ n h, pick n h ∉ h

structure Memory (β : Type) where
  blocks : Heap β
  mallocs : ℕ

/-- `none` is a failed assertion or an access to a block that is not allocated. -/
abbrev HeapM (β : Type) := ReaderT (Malloc β) (StateT (Memory β) Option)

/-- The allocator that hands out the address behind the last one in use. -/
def Malloc.behind (β : Type) : Malloc β where
  pick _ h := h.keys.sup id + 1
  fresh _ h hc := by
    have hle : h.keys.sup id + 1 ≤ h.keys.sup id := Finset.le_sup (f := id) (Finmap.mem_keys.mpr hc)
    omega

namespace HeapM

def alloc (b : β) : HeapM β ℕ := fun malloc m =>
  let a := malloc.pick m.mallocs m.blocks
  some (a, ⟨m.blocks.insert a b, m.mallocs + 1⟩)

def load (a : ℕ) : HeapM β β := fun _ m => (m.blocks.lookup a).map fun b => (b, m)

def store (a : ℕ) (b : β) : HeapM β Unit := fun _ m =>
  if a ∈ m.blocks then some ((), { m with blocks := m.blocks.insert a b }) else none

def free (a : ℕ) : HeapM β Unit := fun _ m =>
  if a ∈ m.blocks then some ((), { m with blocks := m.blocks.erase a }) else none

def fault : HeapM β α := fun _ _ => none

/-- The number of blocks: a walk that does not repeat itself is no longer. -/
def blockCount : HeapM β ℕ := fun _ m => some (m.blocks.keys.card, m)

end HeapM

/-- An assertion about a heap, true of exactly the blocks it is about. -/
abbrev HProp (β : Type) := Set (Heap β)

namespace HProp

/-- The heap splits into a part for each. -/
protected def mul (P Q : HProp β) : HProp β :=
  {h | ∃ h₁ h₂ : Heap β, h₁.Disjoint h₂ ∧ h = h₁ ∪ h₂ ∧ h₁ ∈ P ∧ h₂ ∈ Q}

protected theorem mul_comm_le (P Q : HProp β) : HProp.mul P Q ≤ HProp.mul Q P := by
  rintro h ⟨h₁, h₂, hd, rfl, hP, hQ⟩
  exact ⟨h₂, h₁, hd.symm, Finmap.union_comm_of_disjoint hd, hQ, hP⟩

protected theorem mul_comm (P Q : HProp β) : HProp.mul P Q = HProp.mul Q P :=
  le_antisymm (HProp.mul_comm_le P Q) (HProp.mul_comm_le Q P)

protected theorem mul_assoc_le (P Q R : HProp β) :
    HProp.mul (HProp.mul P Q) R ≤ HProp.mul P (HProp.mul Q R) := by
  rintro h ⟨h', h₃, hd, rfl, ⟨h₁, h₂, hd', rfl, hP, hQ⟩, hR⟩
  rw [Finmap.disjoint_union_left] at hd
  refine ⟨h₁, h₂ ∪ h₃, ?_, Finmap.union_assoc, hP, h₂, h₃, hd.2, rfl, hQ, hR⟩
  rw [Finmap.disjoint_union_right]
  exact ⟨hd', hd.1⟩

protected theorem mul_assoc (P Q R : HProp β) :
    HProp.mul (HProp.mul P Q) R = HProp.mul P (HProp.mul Q R) := by
  apply le_antisymm (HProp.mul_assoc_le P Q R)
  rw [HProp.mul_comm P, HProp.mul_comm Q R, HProp.mul_comm _ R, HProp.mul_comm P Q]
  exact HProp.mul_assoc_le R Q P

protected theorem one_mul (P : HProp β) : HProp.mul {∅} P = P := by
  ext h
  constructor
  · rintro ⟨h₁, h₂, -, rfl, rfl, hP⟩
    rwa [Finmap.empty_union]
  · exact fun hP => ⟨∅, h, Finmap.disjoint_empty h, Finmap.empty_union.symm, rfl, hP⟩

/-- The unit is the empty heap. -/
instance : CommMonoid (HProp β) where
  mul := HProp.mul
  one := {∅}
  mul_assoc := HProp.mul_assoc
  one_mul := HProp.one_mul
  mul_one P := (HProp.mul_comm P _).trans (HProp.one_mul P)
  mul_comm := HProp.mul_comm

variable {P Q R : HProp β} {h : Heap β}

theorem mem_mul : h ∈ P * Q ↔ ∃ h₁ h₂ : Heap β, h₁.Disjoint h₂ ∧ h = h₁ ∪ h₂ ∧ h₁ ∈ P ∧ h₂ ∈ Q := Iff.rfl

protected theorem sSup_mul (S : Set (HProp β)) (Q : HProp β) : sSup S * Q = ⨆ P ∈ S, P * Q := by
  ext h
  simp only [mem_mul, Set.sSup_eq_sUnion, Set.mem_sUnion, Set.iSup_eq_iUnion, Set.mem_iUnion]
  constructor
  · rintro ⟨h₁, h₂, hd, heq, ⟨P, hP, hh⟩, hQ⟩
    exact ⟨P, hP, h₁, h₂, hd, heq, hh, hQ⟩
  · rintro ⟨P, hP, h₁, h₂, hd, heq, hh, hQ⟩
    exact ⟨h₁, h₂, hd, heq, ⟨P, hP, hh⟩, hQ⟩

instance : IsQuantale (HProp β) where
  sSup_mul_distrib := HProp.sSup_mul
  mul_sSup_distrib P S := by
    rw [mul_comm, HProp.sSup_mul]
    simp only [mul_comm]

/-- A fact that needs no heap. -/
def fact (p : Prop) : HProp β := {h | p ∧ h = ∅}

/-- One block. -/
def pts (a : ℕ) (b : β) : HProp β := {Finmap.singleton a b}

theorem mem_fact_mul {p : Prop} : h ∈ fact p * P ↔ p ∧ h ∈ P := by
  constructor
  · rintro ⟨h₁, h₂, -, rfl, ⟨hp, rfl⟩, hP⟩
    rw [Finmap.empty_union]
    exact ⟨hp, hP⟩
  · exact fun hh => ⟨∅, h, Finmap.disjoint_empty h, Finmap.empty_union.symm, ⟨hh.1, rfl⟩, hh.2⟩

theorem le_fact_mul {p : Prop} (hp : p) : P ≤ fact p * P := fun _ hh => mem_fact_mul.mpr ⟨hp, hh⟩

theorem mem_iSup {ι : Type} {P : ι → HProp β} : h ∈ (⨆ i, P i) ↔ ∃ i, h ∈ P i := by
  rw [Set.iSup_eq_iUnion, Set.mem_iUnion]

theorem mem_iSup_mul {ι : Type} {P : ι → HProp β} : h ∈ (⨆ i, P i) * Q ↔ ∃ i, h ∈ P i * Q := by
  rw [Quantale.iSup_mul_distrib, mem_iSup]

theorem mem_single {x a : ℕ} {b : β} : x ∈ (Finmap.singleton a b : Heap β) ↔ x = a := Finmap.mem_singleton x a b

theorem single_union (a : ℕ) (b : β) (h : Heap β) : (Finmap.singleton a b : Heap β) ∪ h = h.insert a b := by
  apply Finmap.ext_lookup
  intro x
  by_cases hx : x = a
  · subst hx
    rw [Finmap.lookup_union_left (mem_single.mpr rfl), Finmap.lookup_insert, Finmap.lookup_singleton_eq]
  · rw [Finmap.lookup_union_right (fun hc => hx (mem_single.mp hc)), Finmap.lookup_insert_of_ne h hx]

theorem mem_pts_mul {a : ℕ} {b : β} : h ∈ pts a b * P ↔ ∃ h', a ∉ h' ∧ h = h'.insert a b ∧ h' ∈ P := by
  constructor
  · rintro ⟨h₁, h', hd, rfl, rfl, hP⟩
    exact ⟨h', hd a (mem_single.mpr rfl), single_union a b h', hP⟩
  · rintro ⟨h', ha, rfl, hP⟩
    refine ⟨_, h', fun x hx => ?_, (single_union a b h').symm, rfl, hP⟩
    rwa [mem_single.mp hx]

theorem lookup_pts {a : ℕ} {b : β} (hh : h ∈ pts a b * P) : h.lookup a = some b := by
  obtain ⟨h', -, rfl, -⟩ := mem_pts_mul.mp hh
  exact Finmap.lookup_insert h'

theorem lookup_union {h₁ h₂ : Heap β} {a : ℕ} {b : β} (hb : h₁.lookup a = some b) : (h₁ ∪ h₂).lookup a = some b := by
  rw [Finmap.lookup_union_left (Finmap.mem_of_lookup_eq_some hb), hb]

/-- What one part does not own is as it was. -/
theorem lookup_frame {h₀ : Heap β} (hh : h ∈ P * {h₀}) {a : ℕ} (ha : a ∈ h₀) : h.lookup a = h₀.lookup a := by
  obtain ⟨h₁, _, hd, rfl, -, rfl⟩ := mem_mul.mp hh
  exact Finmap.lookup_union_right fun hc => hd a hc ha

theorem erase_insert {a : ℕ} {b : β} (ha : a ∉ h) : (h.insert a b).erase a = h := by
  apply Finmap.ext_lookup
  intro x
  by_cases hx : x = a
  · subst hx
    rw [Finmap.lookup_erase, Finmap.lookup_eq_none.mpr ha]
  · rw [Finmap.lookup_erase_ne hx, Finmap.lookup_insert_of_ne h hx]

/-- The block at `a` is among those that `P` is about. -/
def Owns (P : HProp β) (a : ℕ) : Prop := ∀ h ∈ P, a ∈ h

theorem Owns.pts (a : ℕ) (b : β) : Owns (pts a b) a := by
  rintro h rfl
  exact mem_single.mpr rfl

theorem Owns.mul_left {a : ℕ} (hP : Owns P a) : Owns (P * Q) a := by
  rintro h ⟨h₁, h₂, -, rfl, h₁P, -⟩
  exact Finmap.mem_union.mpr (.inl (hP h₁ h₁P))

theorem Owns.mul_right {a : ℕ} (hQ : Owns Q a) : Owns (P * Q) a := by
  rw [mul_comm]
  exact hQ.mul_left

theorem Owns.iSup {ι : Type} {P : ι → HProp β} {a : ℕ} (hP : ∀ i, Owns (P i) a) : Owns (⨆ i, P i) a := by
  intro h hh
  obtain ⟨i, hi⟩ := mem_iSup.mp hh
  exact hP i h hi

/-- No block is in both parts. -/
theorem Owns.ne {a a' : ℕ} (hP : Owns P a) (hQ : Owns Q a') (hh : h ∈ P * Q) : a ≠ a' := by
  obtain ⟨h₁, h₂, hd, -, h₁P, h₂Q⟩ := hh
  rintro rfl
  exact hd a (hP h₁ h₁P) (hQ h₂ h₂Q)

theorem Owns.nodup {ε : Type} {f : ε → HProp β} {addr : ε → ℕ} (hf : ∀ e, Owns (f e) (addr e))
    {es : List ε} (hh : h ∈ (es.map f).prod) : (es.map addr).Nodup := by
  induction es generalizing h with
  | nil => exact List.nodup_nil
  | cons e es ih =>
    have htail : ∀ e' ∈ es, Owns (es.map f).prod (addr e') := by
      intro e' he'
      obtain ⟨pre, suf, rfl⟩ := List.append_of_mem he'
      rw [List.map_append, List.prod_append, List.map_cons, List.prod_cons]
      exact ((hf e').mul_left).mul_right
    rw [List.map_cons, List.prod_cons] at hh
    refine List.nodup_cons.mpr ⟨fun hc => ?_, ?_⟩
    · obtain ⟨e', he', heq⟩ := List.mem_map.mp hc
      exact (hf e).ne (htail e' he') hh heq.symm
    · obtain ⟨-, h₂, -, -, -, h₂P⟩ := hh
      exact ih h₂P

end HProp

/-- From a heap that `P` describes, beside any other blocks, `c` runs to the end and leaves the others
as they are. -/
def Spec (P : HProp β) (c : HeapM β α) (Q : α → HProp β) : Prop :=
  ∀ (malloc : Malloc β) (F : HProp β) (m : Memory β), m.blocks ∈ P * F →
    ∃ r m', c malloc m = some (r, m') ∧ m'.blocks ∈ Q r * F

namespace Spec
open HProp HeapM

variable {P P' F R : HProp β} {c : HeapM β α} {k : α → HeapM β γ} {Q Q' : α → HProp β} {S : γ → HProp β}
  {a : ℕ} {b b' : β}

theorem pure {r : α} (h : P ≤ Q r) : Spec P (pure r) Q :=
  fun _ _ m hm => ⟨r, m, rfl, mul_le_mul_left h _ hm⟩

theorem conseq (hP : P' ≤ P) (h : Spec P c Q) (hQ : ∀ r, Q r ≤ Q' r) : Spec P' c Q' := by
  intro malloc F m hm
  obtain ⟨r, m', hc, hm'⟩ := h malloc F m (mul_le_mul_left hP F hm)
  exact ⟨r, m', hc, mul_le_mul_left (hQ r) F hm'⟩

theorem pre (hP : P' ≤ P) (h : Spec P c Q) : Spec P' c Q := conseq hP h fun _ => le_refl _

theorem post (h : Spec P c Q) (hQ : ∀ r, Q r ≤ Q' r) : Spec P c Q' := conseq (le_refl _) h hQ

theorem of_eq (hP : P' = P) (h : Spec P c Q) : Spec P' c Q := hP ▸ h

theorem frame (h : Spec P c Q) (F : HProp β) : Spec (P * F) c fun r => Q r * F := by
  intro malloc G m hm
  rw [mul_assoc] at hm
  obtain ⟨r, m', hc, hm'⟩ := h malloc (F * G) m hm
  exact ⟨r, m', hc, by rwa [mul_assoc]⟩

theorem bind {Q : α → HProp β} (h : Spec P c Q) (hk : ∀ r, Spec (Q r) (k r) S) : Spec P (c >>= k) S := by
  intro malloc F m hm
  obtain ⟨r, m', hc, hm'⟩ := h malloc F m hm
  obtain ⟨r', m'', hk', hm''⟩ := hk r malloc F m' hm'
  refine ⟨r', m'', ?_, hm''⟩
  change (c malloc m).bind (fun x => k x.1 malloc x.2) = _
  rw [hc]
  exact hk'

/-- A call beside what it does not touch. -/
theorem call {Q : α → HProp β} (h : Spec P c Q) (hk : ∀ r, Spec (Q r * F) (k r) S) : Spec (P * F) (c >>= k) S :=
  (h.frame F).bind hk

theorem exists_pre {ι : Type} {P : ι → HProp β} (h : ∀ i, Spec (P i) c Q) : Spec (⨆ i, P i) c Q := by
  intro malloc F m hm
  obtain ⟨i, hi⟩ := mem_iSup_mul.mp hm
  exact h i malloc F m hi

theorem exists_mul {ι : Type} {P : ι → HProp β} (h : ∀ i, Spec (P i * R) c Q) : Spec ((⨆ i, P i) * R) c Q := by
  rw [Quantale.iSup_mul_distrib]
  exact exists_pre h

theorem fact_mul {p : Prop} (h : p → Spec P c Q) : Spec (fact p * P) c Q := by
  intro malloc F m hm
  rw [mul_assoc, mem_fact_mul] at hm
  exact h hm.1 malloc F m hm.2

/-- What is so in every heap that `P` describes may be used. -/
theorem known {p : Prop} (hp : ∀ h ∈ P, p) (h : p → Spec P c Q) : Spec P c Q := by
  intro malloc F m hm
  obtain ⟨h₁, -, -, -, hP, -⟩ := mem_mul.mp hm
  exact h (hp h₁ hP) malloc F m hm

theorem ret {r : α} {p : α → Prop} (hr : p r) : Spec P (Pure.pure r) fun x => fact (p x) * P :=
  pure (le_fact_mul hr)

theorem iSup {ι : Type} {P : ι → HProp β} {Q : ι → α → HProp β} (h : ∀ i, Spec (P i) c (Q i)) :
    Spec (⨆ i, P i) c fun r => ⨆ i, Q i r :=
  exists_pre fun i => (h i).post fun r => le_iSup (fun i => Q i r) i

/-! The operations on the heap. -/

theorem alloc (b : β) : Spec 1 (alloc b) fun a => pts a b := by
  intro malloc F m hm
  refine ⟨_, _, rfl, ?_⟩
  rw [one_mul] at hm
  exact mem_pts_mul.mpr ⟨m.blocks, malloc.fresh _ _, rfl, hm⟩

theorem store (a : ℕ) (b b' : β) : Spec (pts a b) (store a b') fun _ => pts a b' := by
  intro malloc F m hm
  obtain ⟨h', ha, heq, hF⟩ := mem_pts_mul.mp hm
  refine ⟨(), { m with blocks := m.blocks.insert a b' }, ?_, ?_⟩
  · rw [HeapM.store, if_pos (by rw [heq]; exact (Finmap.mem_insert).mpr (.inl rfl))]
  · rw [heq, Finmap.insert_insert]
    exact mem_pts_mul.mpr ⟨h', ha, rfl, hF⟩

theorem free (a : ℕ) (b : β) : Spec (pts a b) (free a) fun _ => 1 := by
  intro malloc F m hm
  obtain ⟨h', ha, heq, hF⟩ := mem_pts_mul.mp hm
  refine ⟨(), { m with blocks := m.blocks.erase a }, ?_, ?_⟩
  · rw [HeapM.free, if_pos (by rw [heq]; exact (Finmap.mem_insert).mpr (.inl rfl))]
  · rw [heq, erase_insert ha, one_mul]
    exact hF

theorem alloc_bind {k : ℕ → HeapM β γ} (hk : ∀ a, Spec (pts a b * P) (k a) S) :
    Spec P (HeapM.alloc b >>= k) S := by
  have h := call (F := P) (alloc b) hk
  rwa [one_mul] at h

theorem store_bind {k : Unit → HeapM β γ} (hk : Spec (pts a b' * P) (k ()) S) :
    Spec (pts a b * P) (HeapM.store a b' >>= k) S :=
  call (store a b b') fun _ => hk

theorem free_bind {k : Unit → HeapM β γ} (hk : Spec P (k ()) S) :
    Spec (pts a b * P) (HeapM.free a >>= k) S := by
  refine call (free a b) fun _ => ?_
  rwa [one_mul]

end Spec

/-- `c` returns `v` and turns `P` into `P'`. -/
def Gives (P : HProp β) (c : HeapM β α) (v : α) (P' : HProp β) : Prop := Spec P c fun r => HProp.fact (r = v) * P'

/-- `c` returns `v` and leaves the heap as it is. -/
abbrev Reads (P : HProp β) (c : HeapM β α) (v : α) : Prop := Gives P c v P

namespace Gives
open HProp

variable {P P' F : HProp β} {c : HeapM β α} {k : α → HeapM β γ} {v : α} {w : γ} {R : HProp β} {S : γ → HProp β}

theorem frame (h : Gives P c v P') (F : HProp β) : Gives (P * F) c v (P' * F) := by
  have hf := Spec.frame h F
  simp only [mul_assoc] at hf
  exact hf

theorem call (h : Gives P c v P') (hk : Spec P' (k v) S) : Spec P (c >>= k) S :=
  Spec.bind h fun _ => Spec.fact_mul fun hr => hr ▸ hk

theorem bind (h : Gives P c v P') (hk : Gives P' (k v) w R) : Gives P (c >>= k) w R := h.call hk

theorem map (h : Gives P c v P') (f : α → γ) : Gives P (f <$> c) (f v) P' := by
  rw [← bind_pure_comp]
  exact h.bind (Spec.ret rfl)

theorem iSup {ι : Type} {P P' : ι → HProp β} (h : ∀ i, Gives (P i) c v (P' i)) : Gives (⨆ i, P i) c v (⨆ i, P' i) := by
  have hs := Spec.iSup h
  simp only [← Quantale.mul_iSup_distrib] at hs
  exact hs

end Gives

namespace Reads
open HProp

variable {P F : HProp β} {c : HeapM β α} {k : α → HeapM β γ} {v : α} {w : γ} {S : γ → HProp β} {a : ℕ} {b : β}

theorem pure : Reads P (Pure.pure v) v := Spec.ret rfl

theorem left (h : Reads P c v) : Reads (P * F) c v := h.frame F

theorem right (h : Reads P c v) : Reads (F * P) c v := by
  rw [mul_comm]
  exact h.left

theorem iSup_mul {ι : Type} {P : ι → HProp β} (h : ∀ i, Reads (P i * F) c v) : Reads ((⨆ i, P i) * F) c v := by
  rw [Quantale.iSup_mul_distrib]
  exact Gives.iSup h

theorem mul_iSup {ι : Type} {P : ι → HProp β} (h : ∀ i, Reads (F * P i) c v) : Reads (F * ⨆ i, P i) c v := by
  rw [Quantale.mul_iSup_distrib]
  exact Gives.iSup h

theorem fact_mul {p : Prop} (h : p → Reads P c v) : Reads (fact p * P) c v :=
  Spec.fact_mul fun hp => (h hp).post fun _ => mul_le_mul_right (le_fact_mul hp) _

/-- A reading with one part of what it keeps set apart. -/
theorem mul_iff : Reads (P * F) c v ↔ Spec (P * F) c fun r => P * (fact (r = v) * F) := by
  simp only [Gives, mul_left_comm]

theorem load (a : ℕ) (b : β) : Reads (pts a b) (HeapM.load a) b := by
  intro malloc F m hm
  refine ⟨b, m, ?_, by rw [mul_assoc]; exact mem_fact_mul.mpr ⟨rfl, hm⟩⟩
  rw [HeapM.load, lookup_pts hm]
  rfl

end Reads

/-- A program that takes the steps of a machine, each as the machine does, makes its runs; `keep` is what
the calls alone say about the heap. -/
theorem Gives.runFrom {σ ι κ ρ δ : Type} {M : Machine σ ι ρ} {exec : κ → HeapM β ρ} {input : κ → ι} {keep : δ → κ → δ}
    {R : δ → σ → HProp β} {ok : σ → Prop} (hstep : ∀ d s i r s', ok s → M.step s (input i) = some (r, s') →
      ok s' ∧ Gives (R d s) (exec i) r (R (keep d i) s'))
    {is : List κ} {s t : σ} {hist : List (ι × ρ)} (hok : ok s) (hrun : M.runFrom s (is.map input) = some (hist, t)) (d : δ) :
    ok t ∧ Gives (R d s) (is.mapM exec) (hist.map Prod.snd) (R (is.foldl keep d) t) := by
  induction is generalizing s hist d with
  | nil =>
    obtain ⟨rfl, rfl⟩ := Prod.mk.inj (Option.some.inj hrun)
    exact ⟨hok, Reads.pure⟩
  | cons i is ih =>
    rw [List.map_cons] at hrun
    obtain ⟨r, s', rest, hs, hrest, rfl⟩ := Machine.runFrom_cons hrun
    obtain ⟨hok', hexec⟩ := hstep d s i r s' hok hs
    obtain ⟨hokt, hloop⟩ := ih hok' hrest (keep d i)
    rw [List.mapM_cons]
    exact ⟨hokt, hexec.bind (hloop.bind Reads.pure)⟩

/-- The answers to a list of calls by a client that keeps something between them. -/
def HeapM.calls {κ ρ δ : Type} (exec : δ → κ → HeapM β (ρ × δ)) : δ → List κ → HeapM β (List ρ × δ)
  | d, [] => pure ([], d)
  | d, i :: is => do
    let (r, d) ← exec d i
    let (rs, d) ← HeapM.calls exec d is
    pure (r :: rs, d)

theorem Spec.runFrom {σ ι ρ δ : Type} {M : Machine σ ι ρ} {exec : δ → ι → HeapM β (ρ × δ)} {R : σ → δ → HProp β}
    {ok : σ → Prop} (hstep : ∀ s i r s', ok s → M.step s i = some (r, s') →
      ok s' ∧ ∀ d, Spec (R s d) (exec d i) fun x => HProp.fact (x.1 = r) * R s' x.2)
    {is : List ι} {s t : σ} {hist : List (ι × ρ)} (hok : ok s) (hrun : M.runFrom s is = some (hist, t)) (d : δ) :
    Spec (R s d) (HeapM.calls exec d is) fun x => HProp.fact (x.1 = hist.map Prod.snd) * R t x.2 := by
  induction is generalizing s hist d with
  | nil =>
    obtain ⟨rfl, rfl⟩ := Prod.mk.inj (Option.some.inj hrun)
    exact Spec.pure (HProp.le_fact_mul rfl)
  | cons i is ih =>
    obtain ⟨r, s', rest, hs, hrest, rfl⟩ := Machine.runFrom_cons hrun
    obtain ⟨hok', hexec⟩ := hstep s i r s' hok hs
    refine (hexec d).bind fun x => Spec.fact_mul fun hx => (ih hok' hrest x.2).bind fun y => Spec.fact_mul fun hy => ?_
    refine Spec.pure (HProp.le_fact_mul ?_)
    rw [hx, hy, List.map_cons]

theorem Spec.load_bind {P : HProp β} {a : ℕ} {b : β} {k : β → HeapM β γ} {S : γ → HProp β}
    (hk : Spec (HProp.pts a b * P) (k b) S) : Spec (HProp.pts a b * P) (HeapM.load a >>= k) S :=
  (Reads.load a b).left.call hk

/-! How many blocks an assertion is about. -/
namespace HProp

/-- `n` blocks. -/
def Sized (P : HProp β) (n : ℕ) : Prop := ∀ h ∈ P, h.keys.card = n

theorem Sized.one : Sized (1 : HProp β) 0 := by
  rintro h rfl
  rfl

theorem Sized.pts (a : ℕ) (b : β) : Sized (pts a b) 1 := by
  rintro h rfl
  rw [Finmap.keys_singleton, Finset.card_singleton]

theorem card_union {h₁ h₂ : Heap β} (hd : h₁.Disjoint h₂) : (h₁ ∪ h₂).keys.card = h₁.keys.card + h₂.keys.card := by
  have hdisj : Disjoint h₁.keys h₂.keys := by
    rw [Finset.disjoint_left]
    exact fun a ha hc => hd a (Finmap.mem_keys.mp ha) (Finmap.mem_keys.mp hc)
  rw [Finmap.keys_union, Finset.card_union_of_disjoint hdisj]

theorem Sized.mul {P Q : HProp β} {m n : ℕ} (hP : Sized P m) (hQ : Sized Q n) : Sized (P * Q) (m + n) := by
  rintro h ⟨h₁, h₂, hd, rfl, h₁P, h₂Q⟩
  rw [card_union hd, hP h₁ h₁P, hQ h₂ h₂Q]

theorem Sized.single (h : Heap β) : Sized {h} h.keys.card := by
  rintro _ rfl
  rfl

theorem Sized.iSup {ι : Type} {P : ι → HProp β} {n : ℕ} (h : ∀ i, Sized (P i) n) : Sized (⨆ i, P i) n := by
  intro h' hh
  obtain ⟨i, hi⟩ := mem_iSup.mp hh
  exact h i h' hi

theorem Sized.fact_mul {p : Prop} {P : HProp β} {n : ℕ} (h : p → Sized P n) : Sized (fact p * P) n :=
  fun h' hh => h (mem_fact_mul.mp hh).1 h' (mem_fact_mul.mp hh).2

/-- One factor of a product. -/
theorem prod_split {ε : Type} (f : ε → HProp β) (pre suf : List ε) (e : ε) :
    ((pre ++ e :: suf).map f).prod = f e * ((pre ++ suf).map f).prod := by
  simp only [List.map_append, List.map_cons, List.prod_append, List.prod_cons]
  exact mul_left_comm _ _ _

theorem Sized.prod_sum {ε : Type} {f : ε → HProp β} {n : ε → ℕ} {es : List ε} (h : ∀ e ∈ es, Sized (f e) (n e)) :
    Sized (es.map f).prod (es.map n).sum := by
  induction es with
  | nil => exact .one
  | cons e es ih =>
    rw [List.map_cons, List.prod_cons, List.map_cons, List.sum_cons]
    exact (h e List.mem_cons_self).mul (ih fun e' he' => h e' (List.mem_cons_of_mem e he'))

theorem Sized.prod {ε : Type} {f : ε → HProp β} {n : ℕ} {es : List ε} (h : ∀ e ∈ es, Sized (f e) n) :
    Sized (es.map f).prod (n * es.length) := by
  have hsum := Sized.prod_sum h
  rwa [List.map_const', List.sum_replicate, Nat.nsmul_eq_mul, Nat.mul_comm] at hsum

theorem Sized.finset_prod {ι : Type} {f : ι → HProp β} {n : ι → ℕ} {s : Finset ι} (h : ∀ i ∈ s, Sized (f i) (n i)) :
    Sized (∏ i ∈ s, f i) (∑ i ∈ s, n i) := by
  classical
  induction s using Finset.induction_on with
  | empty => exact .one
  | insert i s hi ih =>
    rw [Finset.prod_insert hi, Finset.sum_insert hi]
    exact (h i (Finset.mem_insert_self i s)).mul (ih fun j hj => h j (Finset.mem_insert_of_mem hj))

end HProp

/-- A walk over the blocks that `P` is about ends within the count. -/
theorem Spec.blockCount {P : HProp β} {n : ℕ} (h : P.Sized n) :
    Spec P HeapM.blockCount fun r => HProp.fact (n ≤ r) * P := by
  rintro malloc F m ⟨h₁, h₂, hd, heq, hP, hF⟩
  refine ⟨m.blocks.keys.card, m, rfl, ?_⟩
  rw [mul_assoc]
  refine HProp.mem_fact_mul.mpr ⟨?_, h₁, h₂, hd, heq, hP, hF⟩
  rw [← h h₁ hP, heq, Finmap.keys_union]
  exact Finset.card_le_card Finset.subset_union_left

end Mcl.Library
