import Mathlib.Data.List.Nodup

/-! Items in a row, each of them at a place: what stands before an item and what stands behind it. -/
namespace Mcl.Library

variable {α ι : Type}

section Ends
variable (place : ι → α)

/-- The place of the first item, or what comes behind. -/
def firstOf : List ι → α → α
  | [], n => n
  | x :: _, _ => place x

/-- The place of the last item, or what comes before. -/
def lastOf : α → List ι → α
  | p, [] => p
  | _, x :: xs => lastOf (place x) xs

end Ends

variable {place : ι → α} {p n s : α} {x : ι} {xs ys zs : List ι}

@[simp] theorem firstOf_nil : firstOf place [] n = n := rfl

@[simp] theorem firstOf_cons : firstOf place (x :: xs) n = place x := rfl

@[simp] theorem lastOf_nil : lastOf place p [] = p := rfl

@[simp] theorem lastOf_cons : lastOf place p (x :: xs) = lastOf place (place x) xs := rfl

theorem firstOf_append : firstOf place (xs ++ ys) n = firstOf place xs (firstOf place ys n) := by
  cases xs <;> rfl

theorem lastOf_append : lastOf place p (xs ++ ys) = lastOf place (lastOf place p xs) ys := by
  induction xs generalizing p with
  | nil => rfl
  | cons x xs ih => exact ih

theorem lastOf_concat : lastOf place p (xs ++ [x]) = place x := lastOf_append

theorem firstOf_congr (h : xs ≠ []) (m n : α) : firstOf place xs m = firstOf place xs n := by
  cases xs with
  | nil => exact absurd rfl h
  | cons x xs => rfl

theorem lastOf_congr (h : xs ≠ []) (p q : α) : lastOf place p xs = lastOf place q xs := by
  cases xs with
  | nil => exact absurd rfl h
  | cons x xs => rfl

theorem firstOf_mem (place : ι → α) (n : α) (h : xs ≠ []) : firstOf place xs n ∈ xs.map place := by
  cases xs with
  | nil => exact absurd rfl h
  | cons x xs => exact List.mem_cons_self

theorem lastOf_mem (place : ι → α) (p : α) (h : xs ≠ []) : lastOf place p xs ∈ xs.map place := by
  induction xs generalizing p with
  | nil => exact absurd rfl h
  | cons x xs ih =>
    by_cases hxs : xs = []
    · rw [hxs]
      exact List.mem_cons_self
    · exact List.mem_cons_of_mem _ (ih _ hxs)

theorem firstOf_mem_cons (place : ι → α) (s : α) (xs : List ι) : firstOf place xs s ∈ s :: xs.map place := by
  cases xs with
  | nil => exact List.mem_cons_self
  | cons x xs => exact List.mem_cons_of_mem _ List.mem_cons_self

theorem lastOf_mem_cons (place : ι → α) (s : α) (xs : List ι) : lastOf place s xs ∈ s :: xs.map place := by
  by_cases hxs : xs = []
  · rw [hxs]
    exact List.mem_cons_self
  · exact List.mem_cons_of_mem _ (lastOf_mem place s hxs)

/-- In a circle through `s`, the two ends of a part are not those of what follows or precedes it. -/
theorem ends_ne (hnd : (s :: (xs ++ zs ++ ys).map place).Nodup) (hzs : zs ≠ []) :
    lastOf place s (xs ++ zs) ≠ lastOf place s xs ∧ firstOf place (zs ++ ys) s ≠ firstOf place ys s := by
  rw [List.map_append, List.map_append, List.nodup_cons, List.nodup_append, List.nodup_append] at hnd
  obtain ⟨hs, ⟨-, -, hxz⟩, -, hzy⟩ := hnd
  simp only [List.mem_append, not_or] at hs hzy
  constructor
  · rw [lastOf_append]
    have hlast := lastOf_mem place (lastOf place s xs) hzs
    intro heq
    rcases List.mem_cons.mp (lastOf_mem_cons place s xs) with hmem | hmem
    · exact hs.1.2 (hmem ▸ heq ▸ hlast)
    · exact hxz _ hmem _ hlast heq.symm
  · rw [firstOf_append]
    have hfirst := firstOf_mem place (firstOf place ys s) hzs
    intro heq
    rcases List.mem_cons.mp (firstOf_mem_cons place s ys) with hmem | hmem
    · exact hs.1.2 (hmem ▸ heq ▸ hfirst)
    · exact hzy _ (.inr hfirst) _ hmem heq

end Mcl.Library
