import Mathlib.Data.List.Perm.Basic
import Mathlib.Logic.Function.Basic

/-! Lists and tables of entries addressed by a key, up to a Boolean equivalence of keys. The
key of a table entry also selects the row it belongs to. -/
namespace Mcl.Library

variable {κ ε ι : Type}

/-- The sameness of keys under which entries are looked up. -/
structure KeySame (κ : Type) where
  same : κ → κ → Bool
  refl : ∀ k, same k k = true
  symm : ∀ a b, same a b = same b a
  trans : ∀ a b c, same a b = true → same b c = true → same a c = true

namespace KeySame

variable (S : KeySame κ) (key : ε → κ)

theorem same_congr {a b : κ} (h : S.same a b = true) (c : κ) : S.same a c = S.same b c := by
  rw [Bool.eq_iff_iff]
  constructor
  · exact S.trans b a c (S.symm a b ▸ h)
  · exact S.trans a b c h

def lookup (k : κ) (es : List ε) : Option ε := es.find? fun e => S.same k (key e)

/-- Drop the first entry under `k`. -/
def drop (k : κ) (es : List ε) : List ε := es.eraseP fun e => S.same k (key e)

def Distinct (es : List ε) : Prop := es.Pairwise fun a b => S.same (key a) (key b) = false

variable {S key} {k k' : κ} {e : ε} {es : List ε}

theorem lookup_eq_none : S.lookup key k es = none ↔ ∀ e ∈ es, S.same k (key e) = false := by
  simp [lookup]

theorem lookup_cons {a : ε} :
    S.lookup key k (a :: es) = if S.same k (key a) then some a else S.lookup key k es := by
  cases h : S.same k (key a) <;> simp [lookup, h]

theorem drop_cons {a : ε} :
    S.drop key k (a :: es) = if S.same k (key a) then es else a :: S.drop key k es := by
  cases h : S.same k (key a) <;> simp [drop, h]

theorem mem_of_lookup (h : S.lookup key k es = some e) : e ∈ es ∧ S.same k (key e) = true :=
  ⟨List.mem_of_find?_eq_some h, List.find?_some (p := fun e => S.same k (key e)) h⟩

theorem lookup_congr (h : S.same k k' = true) : S.lookup key k es = S.lookup key k' es := by
  unfold lookup
  congr 1
  funext e
  exact S.same_congr h (key e)

theorem drop_of_lookup_eq_none (h : S.lookup key k es = none) : S.drop key k es = es := by
  refine List.eraseP_of_forall_not (fun e he => ?_)
  rw [lookup_eq_none.mp h e he]
  exact Bool.false_ne_true

theorem mem_of_mem_drop (h : e ∈ S.drop key k es) : e ∈ es := List.mem_of_mem_eraseP h

theorem perm_drop (h : S.lookup key k es = some e) : es.Perm (e :: S.drop key k es) := by
  induction es with
  | nil => simp [lookup] at h
  | cons a es ih =>
    rw [lookup_cons] at h
    rw [drop_cons]
    split at h
    · next ha =>
      rw [if_pos ha, Option.some.inj h]
    · next ha =>
      rw [if_neg ha]
      exact ((ih h).cons a).trans (.swap e a _)

theorem perm_lookup_drop (k : κ) (es : List ε) :
    es.Perm ((S.lookup key k es).toList ++ S.drop key k es) := by
  cases h : S.lookup key k es with
  | none => rw [drop_of_lookup_eq_none h]; exact .refl _
  | some e => exact perm_drop h

theorem length_drop (h : S.lookup key k es = some e) : (S.drop key k es).length + 1 = es.length := by
  simpa using (perm_drop h).length_eq.symm

/-- The entry that a lookup returns is also the first that equals it. -/
theorem eraseP_beq_of_lookup [DecidableEq ε] (h : S.lookup key k es = some e) :
    es.eraseP (· == e) = S.drop key k es := by
  induction es with
  | nil => rfl
  | cons a es ih =>
    rw [lookup_cons] at h
    rw [drop_cons]
    split at h
    · next ha =>
      obtain rfl := Option.some.inj h
      rw [if_pos ha, List.eraseP_cons_of_pos (by simp)]
    · next ha =>
      have hne : a ≠ e := by
        rintro rfl
        exact ha (mem_of_lookup h).2
      rw [if_neg ha, List.eraseP_cons_of_neg (by simpa using hne), ih h]

/-- In a distinct list an entry is found under its own key. -/
theorem Distinct.lookup_of_mem (h : S.Distinct key es) (he : e ∈ es) :
    S.lookup key (key e) es = some e := by
  induction es with
  | nil => exact absurd he List.not_mem_nil
  | cons a es ih =>
    obtain ⟨ha, hes⟩ := List.pairwise_cons.mp h
    rw [lookup_cons]
    rcases List.mem_cons.mp he with rfl | he
    · rw [if_pos (S.refl _)]
    · rw [S.symm, ha e he, ih hes he]
      rfl

theorem Distinct.nodup (h : S.Distinct key es) : es.Nodup := by
  apply List.Pairwise.imp _ h
  rintro a b hab rfl
  rw [S.refl] at hab
  exact Bool.false_ne_true hab.symm

/-- Dropping a stored entry leaves the entries other than it. -/
theorem Distinct.drop_of_mem [DecidableEq ε] (h : S.Distinct key es) (he : e ∈ es) :
    S.drop key (key e) es = es.filter (· != e) := by
  rw [← eraseP_beq_of_lookup (h.lookup_of_mem he), ← List.Nodup.erase_eq_filter h.nodup, List.erase_eq_eraseP']

theorem Distinct.lookup_filter (h : S.Distinct key es) (q : ε → Bool) :
    S.lookup key k (es.filter q) = (S.lookup key k es).filter q := by
  induction es with
  | nil => rfl
  | cons a es ih =>
    obtain ⟨ha, hes⟩ := List.pairwise_cons.mp h
    rw [lookup_cons]
    split
    · next hk =>
      cases hq : q a with
      | true =>
        rw [List.filter_cons_of_pos hq, lookup_cons, if_pos hk, Option.filter_some, if_pos hq]
      | false =>
        rw [List.filter_cons_of_neg (by simp [hq]), Option.filter_some, if_neg (by simp [hq]), lookup_eq_none]
        intro e he
        rw [S.same_congr hk]
        exact ha e (List.mem_of_mem_filter he)
    · next hk =>
      rw [← ih hes]
      cases hq : q a with
      | true => rw [List.filter_cons_of_pos hq, lookup_cons, if_neg hk]
      | false => rw [List.filter_cons_of_neg (by simp [hq])]

theorem Distinct.drop (h : S.Distinct key es) : S.Distinct key (S.drop key k es) :=
  List.Pairwise.eraseP _ h

/-- After a drop nothing is left under the key. -/
theorem Distinct.lookup_drop_self (h : S.Distinct key es) :
    S.lookup key k (S.drop key k es) = none := by
  rw [lookup_eq_none]
  intro e he
  by_contra hc
  rw [Bool.not_eq_false] at hc
  cases hl : S.lookup key k es with
  | none =>
    rw [lookup_eq_none.mp hl e (mem_of_mem_drop he)] at hc
    exact Bool.false_ne_true hc
  | some a =>
    have hp : (a :: S.drop key k es).Pairwise fun x y => S.same (key x) (key y) = false :=
      (perm_drop hl).pairwise_iff (fun {x y} hxy => by rw [S.symm]; exact hxy) |>.mp h
    have hne := (List.pairwise_cons.mp hp).1 e he
    have hsame := S.trans _ _ _ ((S.symm _ _).trans (mem_of_lookup hl).2) hc
    rw [hne] at hsame
    exact Bool.false_ne_true hsame

theorem Distinct.cons_drop (h : S.Distinct key es) : S.Distinct key (e :: S.drop key (key e) es) :=
  List.pairwise_cons.mpr ⟨lookup_eq_none.mp h.lookup_drop_self, h.drop⟩

theorem lookup_drop_of_ne (h : S.same k k' = false) :
    S.lookup key k (S.drop key k' es) = S.lookup key k es := by
  have hne : ∀ e, S.same k (key e) = true → S.same k' (key e) = false := by
    intro e he
    by_contra hc
    rw [Bool.not_eq_false] at hc
    have := S.trans _ _ _ he ((S.symm _ _).trans hc)
    rw [h] at this
    exact Bool.false_ne_true this
  induction es with
  | nil => rfl
  | cons a es ih =>
    rw [drop_cons, lookup_cons]
    split
    · next ha =>
      have hk : ¬ S.same k (key a) = true := fun hk => by
        rw [hne a hk] at ha; exact Bool.false_ne_true ha
      rw [if_neg hk]
    · rw [lookup_cons, ih]

theorem lookup_drop (h : S.Distinct key es) :
    S.lookup key k (S.drop key k' es) = if S.same k k' then none else S.lookup key k es := by
  cases hk : S.same k k' with
  | true => rw [lookup_congr hk, h.lookup_drop_self]; rfl
  | false => rw [lookup_drop_of_ne hk]; rfl

theorem lookup_cons_drop :
    S.lookup key k (e :: S.drop key (key e) es) =
      if S.same k (key e) then some e else S.lookup key k es := by
  rw [lookup_cons]
  cases hk : S.same k (key e) with
  | true => rfl
  | false => exact lookup_drop_of_ne hk

end KeySame

/-! Tables: a row for each index, and a placement of keys on rows. A key without a row is
never stored. -/

namespace KeySame

variable {S : KeySame κ} {key : ε → κ} [DecidableEq ι] {place : κ → Option ι} {t : ι → List ε}
  {k k' : κ} {e : ε} {i : ι}

variable (S key place) in
def find (t : ι → List ε) (k : κ) : Option ε := (place k).bind fun i => S.lookup key k (t i)

/-- The row of a stored key, with the new entry in front of what the key had. -/
theorem find_put (hi : place (key e) = some i)
    (hco : S.same k (key e) = true → place k = place (key e)) :
    S.find key place (Function.update t i (e :: S.drop key (key e) (t i))) k =
      if S.same k (key e) then some e else S.find key place t k := by
  unfold find
  cases hk : S.same k (key e) with
  | true =>
    rw [hco hk, hi, Option.bind_some, Function.update_self, lookup_cons_drop, hk]
    rfl
  | false =>
    cases hp : place k with
    | none => rfl
    | some j =>
      by_cases hj : j = i
      · subst hj
        rw [Option.bind_some, Function.update_self, lookup_cons_drop, hk]
        rfl
      · rw [Option.bind_some, Function.update_of_ne hj]
        rfl

theorem find_remove (ht : S.Distinct key (t i)) (hi : place k' = some i)
    (hco : S.same k k' = true → place k = place k') :
    S.find key place (Function.update t i (S.drop key k' (t i))) k =
      if S.same k k' then none else S.find key place t k := by
  unfold find
  cases hp : place k with
  | none =>
    cases hk : S.same k k' with
    | true => rw [hco hk, hi] at hp; exact absurd hp (by simp)
    | false => rfl
  | some j =>
    by_cases hj : j = i
    · subst hj
      rw [Option.bind_some, Function.update_self, lookup_drop ht]
      rfl
    · cases hk : S.same k k' with
      | true =>
        rw [hco hk, hi, Option.some.injEq] at hp
        exact absurd hp.symm hj
      | false => rw [Option.bind_some, Function.update_of_ne hj]; rfl

omit [DecidableEq ι] in
theorem find_filter (ht : ∀ i, S.Distinct key (t i)) (q : ε → Bool) :
    S.find key place (fun i => (t i).filter q) k = (S.find key place t k).filter q := by
  unfold find
  cases place k with
  | none => rfl
  | some i => exact (ht i).lookup_filter q

/-- The entries of the first `n` rows. -/
@[irreducible] def entries (n : ℕ) (t : ℕ → List ε) : List ε := (List.range n).flatMap t

theorem mem_entries {n : ℕ} {t : ℕ → List ε} : e ∈ entries n t ↔ ∃ i < n, e ∈ t i := by
  simp [entries]

theorem entries_filter (n : ℕ) (t : ℕ → List ε) (q : ε → Bool) :
    entries n (fun i => (t i).filter q) = (entries n t).filter q := by
  unfold entries
  rw [List.filter_flatMap]

/-- One row can be singled out, the rest being what it is whatever that row holds. -/
theorem exists_rest (t : ℕ → List ε) {n i : ℕ} (hi : i < n) :
    ∃ rest, ∀ row, (entries n (Function.update t i row)).Perm (row ++ rest) := by
  induction n with
  | zero => exact absurd hi (Nat.not_lt_zero i)
  | succ n ih =>
    unfold entries at ih ⊢
    simp only [List.range_succ, List.flatMap_append, List.flatMap_singleton]
    by_cases hn : i = n
    · subst hn
      refine ⟨(List.range i).flatMap t, fun row => ?_⟩
      have hkeep : (List.range i).flatMap (Function.update t i row) = (List.range i).flatMap t :=
        List.flatMap_congr fun j hj =>
          Function.update_of_ne (Nat.ne_of_lt (List.mem_range.mp hj)) row t
      rw [hkeep, Function.update_self]
      exact List.perm_append_comm
    · obtain ⟨rest, hrest⟩ := ih (by omega)
      refine ⟨rest ++ t n, fun row => ?_⟩
      rw [Function.update_of_ne (Ne.symm hn), ← List.append_assoc]
      exact (hrest row).append_right _

end KeySame
end Mcl.Library
