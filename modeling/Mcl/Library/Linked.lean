import Mcl.Library.Heap
import Mcl.Library.Row

/-! Blocks that are linked both ways: segments of a chain, and rings. A ring has no first block, so
what is done between two neighbours is done at the seam. -/
namespace Mcl.Library

variable {α β σ : Type}

/-- Blocks that begin with two links, the previous and the next address; `σ` is what follows. -/
structure Linked (σ β : Type) where
  cell : σ → ℕ → ℕ → β
  view : β → Option (σ × ℕ × ℕ)
  view_cell : ∀ s p n, view (cell s p n) = some (s, p, n)

namespace Linked
open HProp

variable (L : Linked σ β)

def links (a : ℕ) : HeapM β (ℕ × ℕ) := do
  match L.view (← HeapM.load a) with
  | some (_, p, n) => pure (p, n)
  | none => HeapM.fault

def setPrev (a p : ℕ) : HeapM β Unit := do
  match L.view (← HeapM.load a) with
  | some (s, _, n) => HeapM.store a (L.cell s p n)
  | none => HeapM.fault

def setNext (a n : ℕ) : HeapM β Unit := do
  match L.view (← HeapM.load a) with
  | some (s, p, _) => HeapM.store a (L.cell s p n)
  | none => HeapM.fault

/-- The items in a row, between the addresses `p` and `n`. -/
def seg : ℕ → List (ℕ × σ) → ℕ → HProp β
  | _, [], _ => 1
  | p, x :: xs, n => pts x.1 (L.cell x.2 p (firstOf Prod.fst xs n)) * seg x.1 xs n

/-- The items in a circle. -/
def ring (xs : List (ℕ × σ)) : HProp β := L.seg (lastOf Prod.fst 0 xs) xs (firstOf Prod.fst xs 0)

variable {L} {a a' p n n' : ℕ} {s : σ} {x : ℕ × σ} {xs ys : List (ℕ × σ)} {F : HProp β}

theorem seg_append : L.seg p (xs ++ ys) n = L.seg p xs (firstOf Prod.fst ys n) * L.seg (lastOf Prod.fst p xs) ys n := by
  induction xs generalizing p with
  | nil => exact (one_mul _).symm
  | cons x xs ih =>
    change pts x.1 (L.cell x.2 p (firstOf Prod.fst (xs ++ ys) n)) * L.seg x.1 (xs ++ ys) n = _
    rw [ih, firstOf_append, ← mul_assoc]
    rfl

/-- An item, what comes before it and what comes behind it. -/
theorem seg_split : L.seg p (xs ++ x :: ys) n =
    pts x.1 (L.cell x.2 (lastOf Prod.fst p xs) (firstOf Prod.fst ys n)) * (L.seg p xs x.1 * L.seg x.1 ys n) := by
  rw [seg_append, mul_left_comm]
  rfl

theorem ring_eq (h : xs ≠ []) (p n : ℕ) : L.ring xs = L.seg (lastOf Prod.fst p xs) xs (firstOf Prod.fst xs n) := by
  rw [ring, lastOf_congr h 0 p, firstOf_congr h 0 n]

theorem ring_rotate (xs ys : List (ℕ × σ)) : L.ring (xs ++ ys) = L.ring (ys ++ xs) := by
  cases xs with
  | nil => rw [List.append_nil, List.nil_append]
  | cons x xs =>
    cases ys with
    | nil => rw [List.append_nil, List.nil_append]
    | cons y ys =>
      simp only [ring, seg_append, lastOf_append, firstOf_append, firstOf_cons, lastOf_cons]
      exact mul_comm _ _

theorem ring_cons : L.ring (x :: xs) =
    pts x.1 (L.cell x.2 (lastOf Prod.fst x.1 xs) (firstOf Prod.fst xs x.1)) * L.seg x.1 xs x.1 := rfl

/-- One item of a ring, given another one. -/
theorem ring_split {z : ℕ × σ} : L.ring (z :: (xs ++ x :: ys)) =
    pts x.1 (L.cell x.2 (lastOf Prod.fst z.1 xs) (firstOf Prod.fst ys z.1)) *
      (L.seg (lastOf Prod.fst z.1 (xs ++ x :: ys)) (z :: xs) x.1 * L.seg x.1 ys z.1) := by
  rw [ring, ← List.cons_append, seg_split]
  simp only [List.cons_append, firstOf_cons, lastOf_cons]

theorem seg_sized (p : ℕ) (xs : List (ℕ × σ)) (n : ℕ) : Sized (L.seg p xs n) xs.length := by
  induction xs generalizing p with
  | nil => exact .one
  | cons x xs ih =>
    rw [List.length_cons, Nat.add_comm]
    exact (Sized.pts _ _).mul (ih x.1)

theorem ring_sized (xs : List (ℕ × σ)) : Sized (L.ring xs) xs.length := seg_sized _ _ _

theorem seg_owns {x : ℕ × σ} (hx : x ∈ xs) : Owns (L.seg p xs n) x.1 := by
  obtain ⟨pre, suf, rfl⟩ := List.append_of_mem hx
  rw [seg_split]
  exact (Owns.pts _ _).mul_left

theorem seg_nodup {h : Heap β} (hh : h ∈ L.seg p xs n) : (xs.map Prod.fst).Nodup := by
  induction xs generalizing p h with
  | nil => exact List.nodup_nil
  | cons x xs ih =>
    refine List.nodup_cons.mpr ⟨fun hc => ?_, ?_⟩
    · obtain ⟨y, hy, heq⟩ := List.mem_map.mp hc
      exact (Owns.pts x.1 _).ne (seg_owns hy) hh heq.symm
    · obtain ⟨-, h₂, -, -, -, hseg⟩ := hh
      exact ih hseg

theorem ring_nodup {h : Heap β} (hh : h ∈ L.ring xs) : (xs.map Prod.fst).Nodup := seg_nodup hh

/-! What the link operations do to a block, and to the ends of a segment. -/

variable {γ : Type} {P : HProp β} {S : γ → HProp β}

theorem links_bind {k : ℕ × ℕ → HeapM β γ} (hk : Spec (pts a (L.cell s p n) * P) (k (p, n)) S) :
    Spec (pts a (L.cell s p n) * P) (L.links a >>= k) S := by
  rw [links, bind_assoc]
  apply Spec.load_bind
  simp only [L.view_cell, pure_bind]
  exact hk

theorem setPrev_spec (p' : ℕ) :
    Spec (pts a (L.cell s p n)) (L.setPrev a p') fun _ => pts a (L.cell s p' n) := by
  have h : Spec (pts a (L.cell s p n) * 1) (L.setPrev a p') fun _ => pts a (L.cell s p' n) := by
    apply Spec.load_bind
    simp only [L.view_cell, mul_one]
    exact Spec.store a _ _
  rwa [mul_one] at h

theorem setNext_spec (n' : ℕ) :
    Spec (pts a (L.cell s p n)) (L.setNext a n') fun _ => pts a (L.cell s p n') := by
  have h : Spec (pts a (L.cell s p n) * 1) (L.setNext a n') fun _ => pts a (L.cell s p n') := by
    apply Spec.load_bind
    simp only [L.view_cell, mul_one]
    exact Spec.store a _ _
  rwa [mul_one] at h

theorem setPrev_first (h : xs ≠ []) (p' : ℕ) :
    Spec (L.seg p xs n) (L.setPrev (firstOf Prod.fst xs n') p') fun _ => L.seg p' xs n := by
  cases xs with
  | nil => exact absurd rfl h
  | cons x xs => exact (setPrev_spec p').frame _

theorem setNext_last (h : xs ≠ []) (n' : ℕ) :
    Spec (L.seg p xs n) (L.setNext (lastOf Prod.fst a xs) n') fun _ => L.seg p xs n' := by
  rcases xs.eq_nil_or_concat with rfl | ⟨ys, y, rfl⟩
  · exact absurd rfl h
  · simp only [List.concat_eq_append, seg_append, lastOf_append, lastOf_cons, lastOf_nil]
    simp only [seg, firstOf_cons, firstOf_nil, mul_one, mul_comm (L.seg p ys y.1)]
    exact (setNext_spec n').frame _

end Linked
end Mcl.Library
