import Mcl.Library.Cursor
import Mcl.Util.ArrayRefinement

/-! The iterator of `mcl_array.c`, and the loops over an array that are written with it. -/
namespace Mcl
open Mcl.Library

variable {α φ : Type}

def defIterHead (iter : ArrayIter α) (a : MclArray α φ) : Option (ArrayIter α) :=
  if a.curSize.ule 0 then some iter.unset
  else do
    let x ← a.read 0
    some { iter with u := .index 0, ptr := x, data := x }

/-- The subscript is unsigned, the index that the iterator keeps is an `int`. -/
def defIterTail (iter : ArrayIter α) (a : MclArray α φ) : Option (ArrayIter α) :=
  if a.curSize.ule 0 then some iter.unset
  else do
    let x ← a.read (a.curSize - 1).toNat
    some { iter with u := .index (a.curSize - 1).toInt, ptr := x, data := x }

/-- `def_iter_next` and `def_iter_prev`, which differ in what they add to the index. -/
def defIterStep (step : BitVec 32) (iter : ArrayIter α) (a : MclArray α φ) : Option (ArrayIter α) := do
  let index ← iter.index
  let index := index + step
  if checkOutOfBounds index a then some iter.unset
  else do
    let x ← a.read index.toInt
    some { iter with u := .index index.toInt, ptr := x, data := x }

def defIterNext (iter : ArrayIter α) (a : MclArray α φ) : Option (ArrayIter α) := defIterStep 1 iter a

def defIterPrev (iter : ArrayIter α) (a : MclArray α φ) : Option (ArrayIter α) := defIterStep (-1) iter a

/-- What is returned, and the iterator, which may have been unset. -/
def defIterInfo (iter : ArrayIter α) (a : MclArray α φ) : Option (Option α × ArrayIter α) := do
  let index ← iter.index
  if checkOutOfBounds index a then some (none, iter.unset) else some (iter.data, iter)

/-- `MCL_FOREACH` and `MCL_FOREACH_REVERSE` over an array, collecting the index of the iterator and
`MCL_ITERATOR_INFO`. -/
def arrayForeachLoop (step : ArrayIter α → MclArray α φ → Option (ArrayIter α)) (a : MclArray α φ) :
    ℕ → ArrayIter α → Option (List (BitVec 32 × Option α))
  | 0, _ => none
  | fuel + 1, iter =>
    if iter.isNull then some []
    else do
      let index ← iter.index
      let (data, iter) ← defIterInfo iter a
      let iter ← step iter a
      let rest ← arrayForeachLoop step a fuel iter
      some ((index, data) :: rest)

/-- No element is visited twice, so a round more than there are elements ends every loop. -/
def arrayForeach (iter : ArrayIter α) (a : MclArray α φ) : Option (List (BitVec 32 × Option α)) := do
  let iter ← defIterHead iter a
  arrayForeachLoop defIterNext a (a.curSize.toNat + 1) iter

def arrayForeachReverse (iter : ArrayIter α) (a : MclArray α φ) : Option (List (BitVec 32 × Option α)) := do
  let iter ← defIterTail iter a
  arrayForeachLoop defIterPrev a (a.curSize.toNat + 1) iter

/-- A loop that erases the elements that satisfy `p` and steps over the others. It yields the elements
that were tested. -/
def arrayEraseLoop (p : Option α → Bool) :
    ℕ → ArrayIter α → MclArray α φ → Option (List (Option α) × MclArray α φ × Freed φ α)
  | 0, _, _ => none
  | fuel + 1, iter, a =>
    if iter.isNull then some ([], a, [])
    else do
      let (data, iter) ← defIterInfo iter a
      if p data then do
        let (_, iter, a, freed) ← defIterErase iter a
        let (tested, a, rest) ← arrayEraseLoop p fuel iter a
        some (data :: tested, a, freed ++ rest)
      else do
        let iter ← defIterNext iter a
        let (tested, a, freed) ← arrayEraseLoop p fuel iter a
        some (data :: tested, a, freed)

def arrayEraseIf (p : Option α → Bool) (iter : ArrayIter α) (a : MclArray α φ) :
    Option (List (Option α) × MclArray α φ × Freed φ α) := do
  let iter ← defIterHead iter a
  arrayEraseLoop p (a.curSize.toNat + 1) iter a

namespace MclArray

variable {a : MclArray α φ} {iter : ArrayIter α} {i : ℕ}

/-- The iterator is on the element at `i`. -/
structure On (a : MclArray α φ) (iter : ArrayIter α) (i : ℕ) : Prop where
  inside : i < a.curSize.toNat
  index : iter.u = .index i
  ptr : iter.ptr = (a.elems[i]?).join
  data : iter.data = iter.ptr

theorem On.index_eq (h : On a iter i) : iter.index = some (BitVec.ofNat 32 i) := by
  unfold ArrayIter.index
  rw [h.index]
  rfl

theorem On.toNat_index (h : On a iter i) : (BitVec.ofNat 32 i).toNat = i := by
  have hlt := a.curSize.isLt
  have hin := h.inside
  rw [BitVec.toNat_ofNat, Nat.mod_eq_of_lt (by omega)]

theorem On.info (h : On a iter i) (hin : a.InSlots) : defIterInfo iter a = some ((a.elems[i]?).join, iter) := by
  have hcheck : checkOutOfBounds (BitVec.ofNat 32 i) a = false := by
    apply checkOutOfBounds_of_lt hin
    rw [h.toNat_index]
    exact h.inside
  simp only [defIterInfo, h.index_eq, hcheck, Option.bind_eq_bind, Option.bind_some, Bool.false_eq_true, if_false,
    h.data, h.ptr]

/-- What the iterator is on after it has been moved to an index inside the array. -/
theorem on_read (hin : a.InSlots) (iter : ArrayIter α) {index : BitVec 32} (hi : index.toNat < a.curSize.toNat) :
    ∃ x, a.read index.toInt = some x ∧
      On a { iter with u := .index index.toInt, ptr := x, data := x } index.toNat := by
  have hfits := hin.fits
  have hsmall := hin.small
  have hget : index.toNat < a.allData.length := by omega
  refine ⟨a.allData[index.toNat], ?_, hi, ?_, ?_, rfl⟩
  · rw [read_eq hsmall hget, List.getElem?_eq_getElem hget]
  · rw [toInt_eq_toNat (n := index) (by omega)]
  · rw [elems_getElem? hi, List.getElem?_eq_getElem hget]
    rfl

theorem defIterHead_empty (h0 : a.curSize.toNat = 0) : defIterHead iter a = some iter.unset := by
  apply if_pos
  rw [BitVec.ule, decide_eq_true_eq, h0]
  exact Nat.le_refl _

theorem defIterTail_empty (h0 : a.curSize.toNat = 0) : defIterTail iter a = some iter.unset := by
  apply if_pos
  rw [BitVec.ule, decide_eq_true_eq, h0]
  exact Nat.le_refl _

theorem defIterHead_on (hin : a.InSlots) (iter : ArrayIter α) (hpos : 0 < a.curSize.toNat) :
    ∃ iter', defIterHead iter a = some iter' ∧ On a iter' 0 := by
  obtain ⟨x, hread, hon⟩ := on_read hin iter (show (0 : BitVec 32).toNat < a.curSize.toNat from hpos)
  refine ⟨_, ?_, hon⟩
  unfold defIterHead
  rw [if_neg, show (0 : ℤ) = (0 : BitVec 32).toInt from rfl, hread]
  · rfl
  · rw [BitVec.ule, decide_eq_true_eq]
    exact Nat.not_le.mpr hpos

theorem defIterTail_on (hin : a.InSlots) (iter : ArrayIter α) (hpos : 0 < a.curSize.toNat) :
    ∃ iter', defIterTail iter a = some iter' ∧ On a iter' (a.curSize.toNat - 1) := by
  have hfits := hin.fits
  have hsmall := hin.small
  have hpred := toNat_sub_one hpos
  have hlast : (a.curSize - 1).toNat < a.curSize.toNat := by omega
  obtain ⟨x, hread, hon⟩ := on_read hin iter hlast
  rw [hpred] at hon
  refine ⟨_, ?_, hon⟩
  unfold defIterTail
  rw [if_neg, ← toInt_eq_toNat (n := a.curSize - 1) (by omega), hread]
  · rfl
  · rw [BitVec.ule, decide_eq_true_eq]
    exact Nat.not_le.mpr hpos

theorem defIterStep_on (hin : a.InSlots) (h : On a iter i) {step : BitVec 32} {j : ℕ}
    (hj : (BitVec.ofNat 32 i + step).toNat = j) (hlt : j < a.curSize.toNat) :
    ∃ iter', defIterStep step iter a = some iter' ∧ On a iter' j := by
  subst hj
  obtain ⟨x, hread, hon⟩ := on_read hin iter hlt
  refine ⟨_, ?_, hon⟩
  simp only [defIterStep, h.index_eq, checkOutOfBounds_of_lt hin hlt, hread, Option.bind_eq_bind,
    Option.bind_some, Bool.false_eq_true, if_false]

theorem defIterStep_off (h : On a iter i) {step : BitVec 32}
    (hout : a.curSize.toNat ≤ (BitVec.ofNat 32 i + step).toNat) :
    defIterStep step iter a = some iter.unset := by
  have hpos : a.curSize ≠ 0 := by
    intro h0
    have hinside := h.inside
    rw [h0] at hinside
    exact absurd hinside (Nat.not_lt_zero _)
  have hcheck : checkOutOfBounds (BitVec.ofNat 32 i + step) a = true := by
    rw [checkOutOfBounds, if_neg hpos, BitVec.ule, decide_eq_true hout, Bool.or_true]
  simp only [defIterStep, h.index_eq, hcheck, Option.bind_eq_bind, Option.bind_some, if_true]

/-- The iterator is on the element at `i`, or null when there is none. -/
def Stands (a : MclArray α φ) (iter : ArrayIter α) (i : ℕ) : Prop :=
  (i < a.curSize.toNat → On a iter i) ∧ (a.curSize.toNat ≤ i → iter.ptr = none)

/-- The iterator is on the element before `i`, or null at the front. -/
def StandsBefore (a : MclArray α φ) (iter : ArrayIter α) (i : ℕ) : Prop :=
  (0 < i → On a iter (i - 1)) ∧ (i = 0 → iter.ptr = none)

theorem head_stands (hin : a.InSlots) (iter : ArrayIter α) :
    ∃ iter', defIterHead iter a = some iter' ∧ Stands a iter' 0 := by
  by_cases hpos : 0 < a.curSize.toNat
  · obtain ⟨iter', hiter, hon⟩ := defIterHead_on hin iter hpos
    exact ⟨iter', hiter, fun _ => hon, fun hc => absurd hpos (Nat.not_lt.mpr hc)⟩
  · refine ⟨iter.unset, defIterHead_empty (by omega), fun hc => absurd hc hpos, fun _ => rfl⟩

theorem tail_stands (hin : a.InSlots) (iter : ArrayIter α) :
    ∃ iter', defIterTail iter a = some iter' ∧ StandsBefore a iter' a.curSize.toNat := by
  by_cases hpos : 0 < a.curSize.toNat
  · obtain ⟨iter', hiter, hon⟩ := defIterTail_on hin iter hpos
    exact ⟨iter', hiter, fun _ => hon, fun hc => absurd hpos (by omega)⟩
  · refine ⟨iter.unset, defIterTail_empty (by omega), fun hc => absurd hc hpos, fun _ => rfl⟩

theorem next_stands (hin : a.InSlots) (h : On a iter i) :
    ∃ iter', defIterNext iter a = some iter' ∧ Stands a iter' (i + 1) := by
  have hfits := hin.fits
  have hsmall := hin.small
  have hinside := h.inside
  have hi := h.toNat_index
  have hsucc : (BitVec.ofNat 32 i + 1).toNat = i + 1 := by
    rw [toNat_add_one (by omega), hi]
  by_cases hlt : i + 1 < a.curSize.toNat
  · obtain ⟨iter', hiter, hon⟩ := defIterStep_on hin h hsucc hlt
    exact ⟨iter', hiter, fun _ => hon, fun hc => absurd hlt (Nat.not_lt.mpr hc)⟩
  · exact ⟨iter.unset, defIterStep_off h (by omega), fun hc => absurd hc hlt, fun _ => rfl⟩

theorem prev_stands (hin : a.InSlots) (h : On a iter i) :
    ∃ iter', defIterPrev iter a = some iter' ∧ StandsBefore a iter' i := by
  have hfits := hin.fits
  have hsmall := hin.small
  have hinside := h.inside
  have hi := h.toNat_index
  have hpred : (BitVec.ofNat 32 i + -1).toNat = if i = 0 then 2 ^ 32 - 1 else i - 1 := by
    rw [BitVec.toNat_add, hi, show (-1 : BitVec 32).toNat = 2 ^ 32 - 1 from rfl]
    split <;> omega
  by_cases h0 : i = 0
  · rw [if_pos h0] at hpred
    exact ⟨iter.unset, defIterStep_off h (by omega), fun hc => absurd h0 (by omega), fun _ => rfl⟩
  · rw [if_neg h0] at hpred
    obtain ⟨iter', hiter, hon⟩ := defIterStep_on hin h hpred (by omega)
    exact ⟨iter', hiter, fun _ => hon, fun hc => absurd hc h0⟩

/-! A NULL element looks like the end, and nothing else does. -/

theorem On.not_null (hin : a.InSlots) (hsome : none ∉ a.elems) (h : On a iter i) :
    ∃ x, a.elems[i]? = some (some x) ∧ iter.isNull = false := by
  have hget : i < a.elems.length := by
    rw [elems_length hin]
    exact h.inside
  have hptr := h.ptr
  have hmem := List.getElem_mem hget
  rw [List.getElem?_eq_getElem hget] at hptr ⊢
  cases hx : a.elems[i] with
  | none =>
    rw [hx] at hmem
    exact absurd hmem hsome
  | some x =>
    rw [hx] at hptr
    refine ⟨x, rfl, ?_⟩
    rw [Iter.isNull, hptr]
    rfl

theorem isNull_of_ptr (h : iter.ptr = none) : iter.isNull = true := by
  rw [Iter.isNull, h]
  rfl

/-- What a traversal shows of the element at `i`. -/
def visit (a : MclArray α φ) (i : ℕ) : BitVec 32 × Option α := (BitVec.ofNat 32 i, (a.elems[i]?).join)

theorem foreachLoop_forward (hin : a.InSlots) (hsome : none ∉ a.elems) (n : ℕ) {fuel : ℕ} (hfuel : n < fuel)
    (hn : i + n = a.curSize.toNat) (h : Stands a iter i) :
    arrayForeachLoop defIterNext a fuel iter = some ((List.range' i n).map (visit a)) := by
  obtain ⟨fuel, rfl⟩ : ∃ k, fuel = k + 1 := ⟨fuel - 1, by omega⟩
  induction n generalizing i iter fuel with
  | zero =>
    rw [arrayForeachLoop, isNull_of_ptr (h.2 (by omega)), if_pos rfl]
    rfl
  | succ n ih =>
    have hon := h.1 (by omega)
    obtain ⟨x, -, hnull⟩ := hon.not_null hin hsome
    obtain ⟨iter', hnext, hstands⟩ := next_stands hin hon
    obtain ⟨fuel, rfl⟩ : ∃ k, fuel = k + 1 := ⟨fuel - 1, by omega⟩
    have hrest := ih (by omega) hstands fuel (by omega)
    rw [arrayForeachLoop, hnull, if_neg Bool.false_ne_true]
    simp only [hon.index_eq, hon.info hin, hnext, hrest, Option.bind_eq_bind, Option.bind_some]
    rfl

theorem foreachLoop_backward (hin : a.InSlots) (hsome : none ∉ a.elems) {fuel : ℕ} (hfuel : i < fuel)
    (h : StandsBefore a iter i) :
    arrayForeachLoop defIterPrev a fuel iter = some ((List.range i).reverse.map (visit a)) := by
  obtain ⟨fuel, rfl⟩ : ∃ k, fuel = k + 1 := ⟨fuel - 1, by omega⟩
  induction i generalizing iter fuel with
  | zero =>
    rw [arrayForeachLoop, isNull_of_ptr (h.2 rfl), if_pos rfl]
    rfl
  | succ i ih =>
    have hon : On a iter i := h.1 (Nat.succ_pos i)
    obtain ⟨x, -, hnull⟩ := hon.not_null hin hsome
    obtain ⟨iter', hprev, hstands⟩ := prev_stands hin hon
    obtain ⟨fuel, rfl⟩ : ∃ k, fuel = k + 1 := ⟨fuel - 1, by omega⟩
    have hrest := ih hstands fuel (by omega)
    rw [arrayForeachLoop, hnull, if_neg Bool.false_ne_true]
    simp only [hon.index_eq, hon.info hin, hprev, hrest, Option.bind_eq_bind, Option.bind_some]
    rw [List.range_succ, List.reverse_append, List.reverse_singleton, List.singleton_append, List.map_cons]
    rfl

/-- A null iterator ends the loop, so what is visited inside the array is not NULL. -/
theorem foreachLoop_not_null {step : BitVec 32} {fuel : ℕ} {vs : List (BitVec 32 × Option α)}
    (hiter : iter.data = iter.ptr) (hvs : arrayForeachLoop (defIterStep step) a fuel iter = some vs) :
    ∀ v ∈ vs, checkOutOfBounds v.1 a = false → v.2 ≠ none := by
  induction fuel generalizing iter vs with
  | zero => exact absurd hvs (by simp [arrayForeachLoop])
  | succ fuel ih =>
    rw [arrayForeachLoop] at hvs
    split at hvs
    · obtain rfl := Option.some.inj hvs
      simp
    next hnull =>
    simp only [Option.bind_eq_bind, Option.bind_eq_some_iff, Option.some.injEq] at hvs
    obtain ⟨index, hindex, ⟨data, iter₁⟩, hinfo, iter₂, hstep, rest, hrest, rfl⟩ := hvs
    have hiter₁ : (checkOutOfBounds index a = false → data = iter.ptr) ∧ iter₁.data = iter₁.ptr := by
      simp only [defIterInfo, hindex, Option.bind_eq_bind, Option.bind_some] at hinfo
      split at hinfo
      · next hout =>
        obtain ⟨rfl, rfl⟩ := Prod.mk.inj (Option.some.inj hinfo)
        refine ⟨fun hc => ?_, rfl⟩
        rw [hout] at hc
        exact absurd hc (by simp)
      · obtain ⟨rfl, rfl⟩ := Prod.mk.inj (Option.some.inj hinfo)
        exact ⟨fun _ => hiter, hiter⟩
    have hiter₂ : iter₂.data = iter₂.ptr := by
      simp only [defIterStep, Option.bind_eq_bind, Option.bind_eq_some_iff] at hstep
      obtain ⟨index', -, hstep⟩ := hstep
      split at hstep
      · obtain rfl := Option.some.inj hstep
        rfl
      · simp only [Option.bind_eq_some_iff, Option.some.injEq] at hstep
        obtain ⟨x, -, rfl⟩ := hstep
        rfl
    intro v hv hin
    rcases List.mem_cons.mp hv with rfl | hv
    · intro hc
      apply hnull
      apply isNull_of_ptr
      rw [← hiter₁.1 hin]
      exact hc
    · exact ih hiter₂ hrest v hv hin

/-- A loop that visits the indices `is` in order, with the element that `mcl_array_at` gives for each. -/
def Visits (a : MclArray α φ) (is : List ℕ) (vs : Option (List (BitVec 32 × Option α))) : Prop :=
  ∃ l, vs = some l ∧ (l.map fun v => v.1.toNat) = is ∧ ∀ v ∈ l, mclArrayAt v.1 a = some v.2

/-- Both traversals end and visit every element once. -/
structure Traverses (a : MclArray α φ) : Prop where
  forward : ∀ iter, a.Visits (List.range a.curSize.toNat) (arrayForeach iter a)
  reverse : ∀ iter, a.Visits (List.range a.curSize.toNat).reverse (arrayForeachReverse iter a)

theorem visits_map (hin : a.InSlots) {is : List ℕ} (his : ∀ j ∈ is, j < a.curSize.toNat) :
    a.Visits is (some (is.map (visit a))) := by
  have hsize := a.curSize.isLt
  have hnat : ∀ j ∈ is, (BitVec.ofNat 32 j).toNat = j := by
    intro j hj
    have hlt := his j hj
    rw [BitVec.toNat_ofNat, Nat.mod_eq_of_lt (by omega)]
  refine ⟨_, rfl, ?_, ?_⟩
  · rw [List.map_map]
    exact (List.map_congr_left hnat).trans (List.map_id _)
  · intro v hv
    obtain ⟨j, hj, rfl⟩ := List.mem_map.mp hv
    have hfits := hin.fits
    have hlt := his j hj
    have hget : j < a.elems.length := by
      rw [elems_length hin]
      exact hlt
    change mclArrayAt (BitVec.ofNat 32 j) a = some (a.elems[j]?).join
    rw [mclArrayAt, checkOutOfBounds_of_lt hin (by rw [hnat j hj]; exact hlt), if_neg Bool.false_ne_true,
      read_eq hin.small (by rw [hnat j hj]; omega), hnat j hj, ← elems_getElem? hlt, List.getElem?_eq_getElem hget]
    rfl

/-- A visit to index `j` shows that no NULL is there. -/
theorem not_null_of_visits (hin : a.InSlots) {step : BitVec 32} {is : List ℕ} {fuel : ℕ}
    (hiter : iter.data = iter.ptr) (hvisits : a.Visits is (arrayForeachLoop (defIterStep step) a fuel iter))
    {j : ℕ} (hj : j ∈ is) (hlt : j < a.curSize.toNat) : a.elems[j]? ≠ some none := by
  obtain ⟨l, hl, hindices, hat⟩ := hvisits
  have hmem : j ∈ l.map fun v => v.1.toNat := by
    rw [hindices]
    exact hj
  obtain ⟨v, hv, rfl⟩ := List.mem_map.mp hmem
  have hfits := hin.fits
  have hcheck := checkOutOfBounds_of_lt hin hlt
  have hread := hat v hv
  rw [mclArrayAt, hcheck, if_neg Bool.false_ne_true, read_eq hin.small (by omega), ← elems_getElem? hlt] at hread
  intro hnone
  rw [hread] at hnone
  exact foreachLoop_not_null hiter hl v hv hcheck (Option.some.inj hnone)

theorem InSlots.traverses_iff (hin : a.InSlots) : a.Traverses ↔ none ∉ a.elems := by
  constructor
  · rintro htrav hmem
    obtain ⟨j, hj⟩ := List.mem_iff_getElem?.mp hmem
    have hlt : j < a.curSize.toNat := by
      rw [← elems_length hin]
      exact (List.getElem?_eq_some_iff.mp hj).1
    obtain ⟨iter', hhead, hstands⟩ := head_stands hin (Iter.initializer : ArrayIter α)
    have hvisits := htrav.forward Iter.initializer
    simp only [arrayForeach, hhead, Option.bind_eq_bind, Option.bind_some] at hvisits
    exact not_null_of_visits hin (hstands.1 (by omega)).data hvisits (List.mem_range.mpr hlt) hlt hj
  · intro hsome
    constructor
    · intro iter
      obtain ⟨iter', hhead, hstands⟩ := head_stands hin iter
      have hloop := foreachLoop_forward hin hsome a.curSize.toNat (Nat.lt_succ_self _) (Nat.zero_add _) hstands
      simp only [arrayForeach, hhead, Option.bind_eq_bind, Option.bind_some]
      rw [hloop, ← List.range_eq_range']
      exact visits_map hin fun j hj => List.mem_range.mp hj
    · intro iter
      obtain ⟨iter', htail, hstands⟩ := tail_stands hin iter
      have hloop := foreachLoop_backward hin hsome (Nat.lt_succ_self _) hstands
      simp only [arrayForeachReverse, htail, Option.bind_eq_bind, Option.bind_some]
      rw [hloop]
      exact visits_map hin fun j hj => List.mem_range.mp (List.mem_reverse.mp hj)

/-- Of an array that calls have led to. -/
theorem mclArray_traverses_iff [DecidableEq α] {initSize : BitVec 32} {junk : ℕ → Option α}
    {eraseJunk : Option φ} {a₀ : MclArray α φ} (hnew : mclArrayNew initSize junk eraseJunk = some (some a₀))
    {hist : List ((ArrayCall α φ × (ℕ → Option α)) × ArrayAnswer α φ)}
    (hr : (callMachine a₀).Reach (fun _ c => c.1 ≠ .tighten) hist a) : a.Traverses ↔ none ∉ a.elems :=
  (inSlots_of_reach (new_spec hnew).2 hr).traverses_iff

/-- Both traversals miss the NULL that has been appended. -/
theorem mclArray_traverses_null :
    ¬ ∀ (a₀ a : MclArray ℕ ℕ), mclArrayNew 0 (fun _ => none) none = some (some a₀) →
      (∃ hist, (callMachine a₀).Reach (fun _ c => c.1 ≠ .tighten) hist a) → a.Traverses := by
  intro hall
  obtain ⟨a₀, a, hist, hnew, hrun, helems⟩ := exists_of_calls [.append none]
    (fun a => a.elems = [none]) (by decide +kernel)
  have hr := Machine.reach_of_inputs (p := fun c => c.1 ≠ .tighten) hrun (by simp)
  have hnull := (inSlots_of_reach (new_spec hnew).2 hr).traverses_iff.mp (hall a₀ a hnew ⟨hist, hr⟩)
  rw [helems] at hnull
  exact hnull (by simp)

theorem mclArray_traverses_two :
    ∃ a : MclArray ℕ ℕ, a.elems = [some 7, some 8] ∧ a.Traverses := by
  obtain ⟨a₀, a, hist, hnew, hrun, helems⟩ := exists_of_calls [.append (some 7), .append (some 8)]
    (fun a => a.elems = [some 7, some 8]) (by decide +kernel)
  have hr := Machine.reach_of_inputs (p := fun c => c.1 ≠ .tighten) hrun (by simp)
  refine ⟨a, helems, (mclArray_traverses_iff hnew hr).mpr ?_⟩
  rw [helems]
  simp

/-! Erasing while iterating: the elements before the iterator stay, those behind it are untouched. -/

/-- An erase leaves the iterator on the next element. -/
theorem defIterErase_stands (hin : a.InSlots) (h : On a iter i) :
    ∃ iter' a', defIterErase iter a =
        some (some iter', iter', a', callFree a.eraseFn (a.elems[i]?).join) ∧
      a'.InSlots ∧ a'.elems = a.elems.eraseIdx i ∧ a'.eraseFn = a.eraseFn ∧ Stands a' iter' i := by
  have hi := h.toNat_index
  have hinside := h.inside
  have hfits := hin.fits
  have hsmall := hin.small
  obtain ⟨d, x, hd, hdlen, htake, hlast, hnext⟩ := defIterErase_eq hin h.index_eq (by rw [hi]; exact hinside)
  rw [hi] at hd htake hnext
  have hpred := toNat_sub_one (n := a.curSize) (by omega)
  refine ⟨_, _, hd, shrunk_inSlots hin hdlen (by omega), htake, rfl, ?_, ?_⟩
  · intro hlt
    refine ⟨hlt, ?_, ?_, rfl⟩
    · rw [toInt_eq_toNat (by omega), hi]
    · change x = ((d.take (a.curSize - 1).toNat)[i]?).join
      rw [htake]
      exact hnext
  · intro hge
    change (a.curSize - 1).toNat ≤ i at hge
    change x = none
    have hout : (a.elems.eraseIdx i).length ≤ i := by
      rw [List.length_eraseIdx, elems_length hin, if_pos hinside]
      omega
    rw [hnext, List.getElem?_eq_none hout]
    rfl

/-- The iterator of an array. -/
def cursor : Cursor (MclArray α φ) (ArrayIter α) (Option α) (φ × α) where
  atEnd := Iter.isNull
  look := defIterInfo
  next := defIterNext
  erase := fun iter a => (defIterErase iter a).map fun (_, iter, a, freed) => (iter, a, freed)

theorem arrayEraseLoop_eq (p : Option α → Bool) (fuel : ℕ) (iter : ArrayIter α) (a : MclArray α φ) :
    arrayEraseLoop p fuel iter a = cursor.eraseLoop p fuel iter a := by
  induction fuel generalizing iter a with
  | zero => rfl
  | succ fuel ih =>
    rw [arrayEraseLoop, Cursor.eraseLoop]
    simp only [ih, cursor, Option.bind_eq_bind, Option.bind_map]
    rfl

/-- The array holds `kept` and `rest`, none of them NULL, and the iterator stands in front of `rest`. -/
structure Between (eraseFn : Option φ) (kept rest : List (Option α)) (iter : ArrayIter α) (a : MclArray α φ) :
    Prop where
  inSlots : a.InSlots
  eraseFn : a.eraseFn = eraseFn
  elems : a.elems = kept ++ rest
  notNull : none ∉ a.elems
  stands : Stands a iter kept.length

theorem Between.on {eraseFn : Option φ} {kept rest : List (Option α)} {x : Option α}
    (h : Between eraseFn kept (x :: rest) iter a) : On a iter kept.length ∧ a.elems[kept.length]? = some x := by
  have hsize := elems_length h.inSlots
  rw [h.elems, List.length_append, List.length_cons] at hsize
  refine ⟨h.stands.1 (by omega), ?_⟩
  rw [h.elems, List.getElem?_append_right (Nat.le_refl _), Nat.sub_self, List.getElem?_cons_zero]

theorem cursor_walks (p : Option α → Bool) (eraseFn : Option φ) :
    cursor.Walks p id (callFree eraseFn) (Between eraseFn) := by
  constructor
  · intro kept iter a h
    have hsize := elems_length h.inSlots
    rw [h.elems, List.append_nil] at hsize
    exact isNull_of_ptr (h.stands.2 (by omega))
  · intro kept x rest iter a h
    obtain ⟨hon, hget⟩ := h.on
    obtain ⟨-, -, hnull⟩ := hon.not_null h.inSlots h.notNull
    refine ⟨hnull, ?_⟩
    have hinfo := hon.info h.inSlots
    rwa [hget, Option.join_some] at hinfo
  · intro kept x rest iter a hp h
    obtain ⟨iter', hnext, hstands⟩ := next_stands h.inSlots h.on.1
    refine ⟨iter', hnext, h.inSlots, h.eraseFn, ?_, h.notNull, ?_⟩
    · rw [h.elems, List.append_cons]
    · rwa [List.length_append, List.length_singleton]
  · intro kept x rest iter a hp h
    obtain ⟨hon, hget⟩ := h.on
    obtain ⟨iter', a', herase, hin, helems, hfn, hstands⟩ := defIterErase_stands h.inSlots hon
    rw [h.eraseFn, hget, Option.join_some] at herase
    have helems' : a'.elems = kept ++ rest := by
      rw [helems, h.elems, List.eraseIdx_append_of_length_le (Nat.le_refl _), Nat.sub_self, List.eraseIdx_cons_zero]
    have herase' : cursor.erase iter a = some (iter', a', callFree eraseFn x) := by
      simp only [cursor, herase, Option.map_some]
    refine ⟨iter', a', herase', hin, hfn.trans h.eraseFn, helems', ?_, hstands⟩
    rw [helems']
    have hold := h.notNull
    rw [h.elems] at hold
    exact fun hc => hold ((List.Sublist.append_left (List.sublist_cons_self x rest) kept).subset hc)

/-- The loop tests every element once and in order, leaves those that fail and releases the others. -/
theorem InSlots.eraseIf (h : a.InSlots) (hsome : none ∉ a.elems) (fn : φ) (p : Option α → Bool)
    (iter : ArrayIter α) :
    ∃ a', arrayEraseIf p iter (mclArrayCtrl .registEraseFn (some fn) a).2 =
        some (a.elems, a', callFrees (some fn) (a.elems.filter p)) ∧
      a'.elems = a.elems.filter fun x => !p x := by
  have hin : InSlots (mclArrayCtrl .registEraseFn (some fn) a).2 := ⟨h.fits, h.small⟩
  obtain ⟨iter', hhead, hstands⟩ := head_stands hin iter
  have hbetween : Between (some fn) [] a.elems iter' (mclArrayCtrl .registEraseFn (some fn) a).2 :=
    ⟨hin, rfl, rfl, hsome, hstands⟩
  obtain ⟨iter'', a', hloop, hend⟩ := (cursor_walks p (some fn)).eraseLoop_eq [] hbetween
  have hfuel : a.elems.length < a.curSize.toNat + 1 := by
    rw [elems_length h]
    exact Nat.lt_succ_self _
  have hrounds := hloop (a.curSize.toNat + 1)
  rw [if_pos hfuel, List.map_id] at hrounds
  refine ⟨a', ?_, hend.elems.trans (List.append_nil _)⟩
  simp only [arrayEraseIf, hhead, Option.bind_eq_bind, Option.bind_some]
  exact (arrayEraseLoop_eq p _ iter' _).trans hrounds

/-- A full array, erased from its ends. -/
theorem InSlots.eraseIf_full :
    ∃ a', arrayEraseIf (fun x => x != some 8) Iter.initializer
        (mclArrayCtrl .registEraseFn (some 0) (⟨[some 7, some 8, some 9], 3, 3, none⟩ : MclArray ℕ ℕ)).2 =
        some ([some 7, some 8, some 9], a', [(0, 7), (0, 9)]) ∧ a'.elems = [some 8] :=
  InSlots.eraseIf (a := ⟨[some 7, some 8, some 9], 3, 3, none⟩) ⟨by decide, by decide⟩ (by decide) 0 _ _

end MclArray
end Mcl
