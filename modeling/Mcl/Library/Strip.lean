import Mathlib.Data.List.DropRight

/-! A list without what meets a test at its two ends. -/
namespace Mcl.Library

variable {α : Type} (p : α → Bool)

/-- Without the longest such prefix and the longest such suffix. -/
def strip (xs : List α) : List α := (xs.dropWhile p).rdropWhile p

variable {p} {xs : List α}

theorem strip_eq_nil_iff : strip p xs = [] ↔ ∀ x ∈ xs, p x = true := by
  rw [strip, List.rdropWhile_eq_nil_iff]
  constructor
  · intro h x hx
    rw [← List.takeWhile_append_dropWhile (p := p) (l := xs)] at hx
    rcases List.mem_append.mp hx with hx | hx
    · exact List.mem_takeWhile_imp hx
    · exact h x hx
  · exact fun h x hx => h x ((List.dropWhile_suffix p).subset hx)

/-- What is left ends with nothing to drop. -/
theorem strip_getLast? {x : α} (hx : (strip p xs).getLast? = some x) : p x = false := by
  have hne : strip p xs ≠ [] := by
    rintro h
    rw [h] at hx
    simp at hx
  rw [List.getLast?_eq_some_getLast hne, Option.some.injEq] at hx
  subst hx
  exact Bool.eq_false_iff.mpr (List.rdropWhile_last_not p _ hne)

/-- Nor does it start with something to drop. -/
theorem strip_head? {x : α} (hx : (strip p xs).head? = some x) : p x = false := by
  have hpre : strip p xs <+: xs.dropWhile p := List.rdropWhile_prefix p _
  have hdrop : (xs.dropWhile p).head? = some x := by
    cases hs : strip p xs with
    | nil => simp [hs] at hx
    | cons y ys =>
      obtain ⟨rest, hrest⟩ := hpre
      rw [hs] at hrest hx
      rw [← hrest]
      exact hx
  have h := List.head?_dropWhile_not p xs
  rw [hdrop] at h
  exact h

/-- The list as its two ends and what is between them. -/
theorem exists_ends (p : α → Bool) (xs : List α) :
    ∃ pre post, xs = pre ++ (strip p xs ++ post) ∧ (∀ x ∈ pre, p x = true) ∧ (∀ x ∈ post, p x = true) ∧
      (strip p xs = [] → post = []) := by
  refine ⟨xs.takeWhile p, (xs.dropWhile p).rtakeWhile p, ?_, fun x hx => List.mem_takeWhile_imp hx,
    fun x hx => List.mem_rtakeWhile_imp hx, fun hnil => ?_⟩
  · rw [strip, List.rdropWhile_append_rtakeWhile, List.takeWhile_append_dropWhile]
  · have hdrop : xs.dropWhile p = [] := List.dropWhile_eq_nil_iff.mpr (strip_eq_nil_iff.mp hnil)
    rw [hdrop]
    rfl

/-- A list is its own strip once neither end has something to drop. -/
theorem strip_eq_self (hhead : ∀ x, xs.head? = some x → p x = false)
    (hlast : ∀ x, xs.getLast? = some x → p x = false) : strip p xs = xs := by
  have hdrop : xs.dropWhile p = xs := by
    cases xs with
    | nil => rfl
    | cons x xs => exact List.dropWhile_cons_of_neg (by simp [hhead x rfl])
  rw [strip, hdrop, List.rdropWhile_eq_self_iff]
  intro hne
  simp [hlast _ (List.getLast?_eq_some_getLast hne)]

theorem strip_strip (xs : List α) : strip p (strip p xs) = strip p xs :=
  strip_eq_self (fun _ => strip_head?) fun _ => strip_getLast?

end Mcl.Library
