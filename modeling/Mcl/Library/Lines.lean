import Mathlib.Data.List.TakeWhile

/-! Texts of lines that each end with a separator, and fields that end at one. -/
namespace Mcl.Library

variable {α : Type} [DecidableEq α] {sep : α}

/-- The lines of a text, if nothing follows the last separator. -/
def linesOf (sep : α) (text : List α) : Option (List (List α)) :=
  if (text.splitOn sep).getLast? = some [] then some (text.splitOn sep).dropLast else none

/-- What stands before the first separator, and what stands behind it. -/
def fieldOf (sep : α) (text : List α) : List α × List α :=
  (text.takeWhile (· ≠ sep), (text.dropWhile (· ≠ sep)).tail)

/-- What stands behind a text that is to come first. -/
def behind (lead text : List α) : Option (List α) :=
  if text.take lead.length = lead then some (text.drop lead.length) else none

theorem behind_append (lead rest : List α) : behind lead (lead ++ rest) = some rest := by
  simp [behind]

theorem linesOf_cons {line : List α} (h : sep ∉ line) (text : List α) :
    linesOf sep (line ++ sep :: text) = (linesOf sep text).map (line :: ·) := by
  have hsplit : (line ++ sep :: text).splitOn sep = line :: text.splitOn sep := by
    have hsep : (sep == sep) = true := beq_self_eq_true sep
    have hline : line.splitOnP (· == sep) = [line] := by
      apply List.splitOnP_eq_singleton
      intro x hx
      exact beq_eq_false_iff_ne.mpr fun hc => h (hc ▸ hx)
    have happ := List.splitOnP_append_cons (p := (· == sep)) line text hsep
    rw [hline] at happ
    exact happ
  have hne : text.splitOn sep ≠ [] := List.splitOnP_ne_nil (· == sep) text
  rw [linesOf, linesOf, hsplit, List.getLast?_cons_of_ne_nil hne, List.dropLast_cons_of_ne_nil hne]
  split
  · rfl
  · rfl

/-- A text of lines reads back as the lines. -/
theorem linesOf_flatMap {lines : List (List α)} (h : ∀ line ∈ lines, sep ∉ line) :
    linesOf sep (lines.flatMap fun line => line ++ [sep]) = some lines := by
  induction lines with
  | nil => rfl
  | cons line lines ih =>
    rw [List.flatMap_cons, List.append_assoc, List.singleton_append, linesOf_cons (h line List.mem_cons_self)]
    rw [ih fun line hline => h line (List.mem_cons_of_mem _ hline)]
    rfl

theorem fieldOf_append {field : List α} (h : sep ∉ field) (rest : List α) :
    fieldOf sep (field ++ sep :: rest) = (field, rest) := by
  have hfield : ∀ x ∈ field, decide (x ≠ sep) = true := by
    intro x hx
    exact decide_eq_true fun hc => h (hc ▸ hx)
  rw [fieldOf, List.takeWhile_append_of_pos hfield, List.dropWhile_append_of_pos hfield]
  simp

end Mcl.Library
