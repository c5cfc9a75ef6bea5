import Mcl.Library.Row

/-! Circular doubly linked rings over an arbitrary type of cells. Links are partial:
`none` is the link of a cell that is not allocated. -/
namespace Mcl.Library

variable {α ι : Type}

structure Links (α : Type) where
  next : α → Option α
  prev : α → Option α

namespace Links

/-- `b` follows `a` in both link directions. -/
def Adjacent (L : Links α) (a b : α) : Prop := L.next a = some b ∧ L.prev b = some a

/-- The cells of `xs` in `next` order, closed through the sentinel `s`: the cells on the two sides of
each seam are linked to each other. -/
structure Ring (L : Links α) (place : ι → α) (s : α) (xs : List ι) : Prop where
  nodup : (s :: xs.map place).Nodup
  seam : ∀ us vs, xs = us ++ vs → L.Adjacent (lastOf place s us) (firstOf place vs s)

variable {L L' : Links α} {place : ι → α} {s : α} {x : ι} {xs ys us vs : List ι}

namespace Ring

theorem next_eq (h : L.Ring place s (xs ++ x :: ys)) : L.next (place x) = some (firstOf place ys s) := by
  have hseam := (h.seam (xs ++ [x]) ys (by rw [List.append_assoc]; rfl)).1
  rwa [lastOf_concat] at hseam

theorem prev_eq (h : L.Ring place s (xs ++ x :: ys)) : L.prev (place x) = some (lastOf place s xs) :=
  (h.seam xs (x :: ys) rfl).2

theorem next_sentinel (h : L.Ring place s xs) : L.next s = some (firstOf place xs s) := (h.seam [] xs rfl).1

theorem prev_sentinel (h : L.Ring place s xs) : L.prev s = some (lastOf place s xs) :=
  (h.seam xs [] (List.append_nil xs).symm).2

end Ring

/-- A seam outlives the relinking of another one. -/
theorem Adjacent.relink (h : L.Adjacent (lastOf place s us) (firstOf place vs s))
    (hnd : (s :: (xs ++ ys).map place).Nodup) (heq : xs ++ ys = us ++ vs) (hne : us ≠ xs)
    (hnext : ∀ a ∈ s :: (xs ++ ys).map place, a ≠ lastOf place s xs → L'.next a = L.next a)
    (hprev : ∀ b ∈ s :: (xs ++ ys).map place, b ≠ firstOf place ys s → L'.prev b = L.prev b) :
    L'.Adjacent (lastOf place s us) (firstOf place vs s) := by
  have hdiff : lastOf place s us ≠ lastOf place s xs ∧ firstOf place vs s ≠ firstOf place ys s := by
    rcases List.append_eq_append_iff.mp heq with ⟨zs, rfl, rfl⟩ | ⟨zs, rfl, rfl⟩
    · have hzs : zs ≠ [] := by
        rintro rfl
        exact hne (List.append_nil xs)
      rw [← List.append_assoc] at hnd
      exact ⟨(ends_ne hnd hzs).1, (ends_ne hnd hzs).2.symm⟩
    · have hzs : zs ≠ [] := by
        rintro rfl
        exact hne (List.append_nil us).symm
      exact ⟨(ends_ne hnd hzs).1.symm, (ends_ne hnd hzs).2⟩
  constructor
  · rw [hnext _ ?_ hdiff.1]
    · exact h.1
    · rw [heq, List.map_append, ← List.cons_append]
      exact List.mem_append_left _ (lastOf_mem_cons place s us)
  · rw [hprev _ ?_ hdiff.2]
    · exact h.2
    · rw [heq, List.map_append]
      rcases List.mem_cons.mp (firstOf_mem_cons place s vs) with hmem | hmem
      · rw [hmem]
        exact List.mem_cons_self
      · exact List.mem_cons_of_mem _ (List.mem_append_right _ hmem)

namespace Ring

/-- Linking a new cell into a seam. -/
theorem insert {e : ι} (h : L.Ring place s (xs ++ ys)) (he : place e ∉ s :: (xs ++ ys).map place)
    (hpe : L'.Adjacent (lastOf place s xs) (place e)) (hen : L'.Adjacent (place e) (firstOf place ys s))
    (hnext : ∀ a ∈ s :: (xs ++ ys).map place, a ≠ lastOf place s xs → L'.next a = L.next a)
    (hprev : ∀ b ∈ s :: (xs ++ ys).map place, b ≠ firstOf place ys s → L'.prev b = L.prev b) :
    L'.Ring place s (xs ++ e :: ys) := by
  have hperm : (s :: (xs ++ e :: ys).map place).Perm (place e :: s :: (xs ++ ys).map place) :=
    ((List.perm_middle.map place).cons s).trans (.swap (place e) s _)
  refine ⟨hperm.nodup_iff.mpr (List.nodup_cons.mpr ⟨he, h.nodup⟩), fun us vs heq => ?_⟩
  rcases List.append_eq_append_iff.mp heq with ⟨zs, rfl, hys⟩ | ⟨zs, rfl, rfl⟩
  · cases zs with
    | nil =>
      rw [List.append_nil, ← (show e :: ys = vs from hys)]
      exact hpe
    | cons z zs =>
      obtain ⟨rfl, rfl⟩ := List.cons.inj hys
      by_cases hzs : zs = []
      · subst hzs
        rw [lastOf_concat]
        exact hen
      · have hseam := h.seam (xs ++ zs) vs (List.append_assoc ..).symm
        have hne : xs ++ zs ≠ xs := fun hc => hzs (List.append_right_eq_self.mp hc)
        have hlast : lastOf place s (xs ++ e :: zs) = lastOf place s (xs ++ zs) := by
          rw [lastOf_append, lastOf_append, lastOf_cons]
          exact lastOf_congr hzs _ _
        rw [hlast]
        exact hseam.relink h.nodup (List.append_assoc ..).symm hne hnext hprev
  · by_cases hzs : zs = []
    · rw [hzs, List.append_nil] at hpe
      rw [hzs]
      exact hpe
    · have hseam := h.seam us (zs ++ ys) (List.append_assoc ..)
      have hne : us ≠ us ++ zs := fun hc => hzs (List.append_right_eq_self.mp hc.symm)
      have hfirst : firstOf place (zs ++ e :: ys) s = firstOf place (zs ++ ys) s := by
        rw [firstOf_append, firstOf_append]
        exact firstOf_congr hzs _ _
      rw [hfirst]
      exact hseam.relink h.nodup (List.append_assoc ..) hne hnext hprev

/-- Unlinking a cell joins the two seams around it. -/
theorem remove (h : L.Ring place s (xs ++ x :: ys)) (hpn : L'.Adjacent (lastOf place s xs) (firstOf place ys s))
    (hnext : ∀ a ∈ s :: (xs ++ ys).map place, a ≠ lastOf place s xs → L'.next a = L.next a)
    (hprev : ∀ b ∈ s :: (xs ++ ys).map place, b ≠ firstOf place ys s → L'.prev b = L.prev b) :
    L'.Ring place s (xs ++ ys) := by
  have hsub : (xs ++ ys).Sublist (xs ++ x :: ys) := (List.Sublist.refl xs).append (List.sublist_cons_self x ys)
  have hnd := h.nodup.sublist ((hsub.map place).cons_cons s)
  refine ⟨hnd, fun us vs heq => ?_⟩
  by_cases hus : us = xs
  · rw [hus] at heq ⊢
    rw [← List.append_cancel_left heq]
    exact hpn
  refine Adjacent.relink ?_ hnd heq hus hnext hprev
  rcases List.append_eq_append_iff.mp heq with ⟨zs, rfl, rfl⟩ | ⟨zs, rfl, rfl⟩
  · have hzs : zs ≠ [] := by
      rintro rfl
      exact hus (List.append_nil xs)
    have hlast : lastOf place s (xs ++ zs) = lastOf place s (xs ++ x :: zs) := by
      rw [lastOf_append, lastOf_append, lastOf_cons]
      exact lastOf_congr hzs _ _
    rw [hlast]
    exact h.seam (xs ++ x :: zs) vs (by rw [List.append_assoc, List.cons_append])
  · have hzs : zs ≠ [] := by
      rintro rfl
      exact hus (List.append_nil us).symm
    have hfirst : firstOf place (zs ++ ys) s = firstOf place (zs ++ x :: ys) s := by
      rw [firstOf_append, firstOf_append]
      exact firstOf_congr hzs _ _
    rw [hfirst]
    exact h.seam us (zs ++ x :: ys) (List.append_assoc ..)

end Ring
end Links
end Mcl.Library
