import Mathlib.Data.List.Nodup
import Mathlib.Data.Set.Basic

/-! Traversals of a container that changes on the way. -/
namespace Mcl.Library

variable {ε : Type}

/-- `seen` has been shown and `ahead` is still to come, its head being what the cursor is on. The
container holds `stored`, it held `start` when the traversal began, and what it has ever held is in `used`. -/
structure Scan (start : Set ε) (seen ahead : List ε) (stored used : Set ε) : Prop where
  once : (seen ++ ahead.tail).Nodup
  shown : ∀ x ∈ ahead.head?, x ∈ seen
  known : ∀ x ∈ seen ++ ahead.tail, x ∈ used
  begun : start ⊆ used
  kept : ∀ x ∈ start, x ∈ stored → x ∈ seen ++ ahead.tail

namespace Scan

variable {start stored stored' used used' : Set ε} {seen ahead ahead' : List ε} {x : ε}

theorem begin (hnodup : ahead.Nodup) (hstart : start ⊆ used) (hknown : ∀ x ∈ ahead, x ∈ used)
    (hkept : ∀ x ∈ start, x ∈ ahead) : Scan start ahead.head?.toList ahead stored used := by
  have hsplit : ahead.head?.toList ++ ahead.tail = ahead := by cases ahead <;> rfl
  constructor
  · rwa [hsplit]
  · intro x hx
    exact Option.mem_toList.mpr hx
  · rwa [hsplit]
  · exact hstart
  · intro x hx _
    rw [hsplit]
    exact hkept x hx

/-- The container changes, but for what the cursor is on, and nothing comes back. -/
theorem change (h : Scan start seen ahead stored used) (hhead : ahead'.head? = ahead.head?) (hnodup : ahead'.Nodup)
    (hnew : ∀ x ∈ ahead', x ∈ ahead ∨ x ∉ used) (hstays : ∀ x ∈ ahead, x ∈ stored' → x ∈ ahead')
    (hstored : ∀ x ∈ stored', x ∈ stored ∨ x ∉ used) (hused : used ⊆ used') (hknown : ∀ x ∈ ahead', x ∈ used') :
    Scan start seen ahead' stored' used' := by
  have hnot : ∀ x ∈ ahead'.tail, ahead'.head? ≠ some x := by
    intro x hx hc
    cases ahead' with
    | nil => exact absurd hc (by simp)
    | cons y ys =>
      obtain rfl := Option.some.inj hc
      exact (List.nodup_cons.mp hnodup).1 hx
  have htail : ∀ x ∈ ahead'.tail, x ∈ ahead.tail ∨ x ∉ used := by
    intro x hx
    refine (hnew x (List.mem_of_mem_tail hx)).imp_left fun hmem => ?_
    have hne := hnot x hx
    rw [hhead] at hne
    cases ahead with
    | nil => exact absurd hmem List.not_mem_nil
    | cons y ys => exact (List.mem_cons.mp hmem).resolve_left fun hc => hne (congrArg some hc.symm)
  constructor
  · obtain ⟨hseen, htails, hdisj⟩ := List.nodup_append.mp h.once
    refine List.nodup_append.mpr ⟨hseen, hnodup.tail, ?_⟩
    rintro x hx y hy rfl
    rcases htail x hy with hold | hfresh
    · exact hdisj x hx x hold rfl
    · exact hfresh (h.known x (List.mem_append_left _ hx))
  · rw [hhead]
    exact h.shown
  · intro x hx
    rcases List.mem_append.mp hx with hx | hx
    · exact hused (h.known x (List.mem_append_left _ hx))
    · exact hknown x (List.mem_of_mem_tail hx)
  · exact h.begun.trans hused
  · intro x hx hin
    have hold := h.kept x hx ((hstored x hin).resolve_right fun hc => hc (h.begun hx))
    rcases List.mem_append.mp hold with hseen | hmem
    · exact List.mem_append_left _ hseen
    have hmem' := hstays x (List.mem_of_mem_tail hmem) hin
    cases ahead' with
    | nil => exact absurd hmem' List.not_mem_nil
    | cons y ys =>
      rcases List.mem_cons.mp hmem' with rfl | hmem'
      · exact List.mem_append_left _ (h.shown x (by rw [← hhead]; rfl))
      · exact List.mem_append_right _ hmem'

/-- The cursor moves on and shows what it comes to. -/
theorem next (h : Scan start seen (x :: ahead) stored used) :
    Scan start (seen ++ ahead.head?.toList) ahead stored used := by
  have hsplit : seen ++ ahead.head?.toList ++ ahead.tail = seen ++ ahead := by cases ahead <;> simp
  refine ⟨?_, ?_, ?_, h.begun, ?_⟩
  · rw [hsplit]
    exact h.once
  · intro y hy
    exact List.mem_append_right _ (Option.mem_toList.mpr hy)
  · rw [hsplit]
    exact h.known
  · rw [hsplit]
    exact h.kept

theorem nodup (h : Scan start seen ahead stored used) : seen.Nodup := (List.nodup_append.mp h.once).1

/-- At the end, what has been stored from the start has been shown. -/
theorem ends (h : Scan start seen [] stored used) (hx : x ∈ start) (hin : x ∈ stored) : x ∈ seen := by
  have hkept := h.kept x hx hin
  rwa [List.tail_nil, List.append_nil] at hkept

end Scan
end Mcl.Library
