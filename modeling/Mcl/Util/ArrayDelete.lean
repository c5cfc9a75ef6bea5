import Mcl.Util.ArrayRuns

/-! What deletion by index does to the elements of an array. -/
namespace Mcl

variable {α φ : Type}

namespace MclArray

/-- The elements in order, NULL included. -/
def elems (a : MclArray α φ) : List (Option α) := a.allData.take a.curSize.toNat

/-- The size does not pass the slots. -/
structure InSlots (a : MclArray α φ) : Prop where
  fits : a.curSize.toNat ≤ a.allData.length
  small : a.allData.length < 2 ^ 31

variable {a : MclArray α φ} {index : BitVec 32} {freeFn : Option φ}

/-- An index that an access has not refused. -/
theorem toNat_of_nonneg {n : BitVec 32} (h : 0 ≤ n.toInt) : n.toInt = n.toNat := by
  rw [BitVec.toInt_eq_toNat_cond] at h ⊢
  split at h <;> omega

theorem write_eq {i : BitVec 32} (h : a.allData.length < 2 ^ 31) (hi : i.toNat < a.allData.length)
    (data : Option α) : a.write i.toInt data = some { a with allData := a.allData.set i.toNat data } := by
  have hint := toInt_eq_toNat (show i.toNat < 2 ^ 31 by omega)
  rw [hint]
  exact if_pos ⟨by omega, by omega⟩

theorem read_eq {i : BitVec 32} (h : a.allData.length < 2 ^ 31) (hi : i.toNat < a.allData.length) :
    a.read i.toInt = a.allData[i.toNat]? := by
  have hint := toInt_eq_toNat (show i.toNat < 2 ^ 31 by omega)
  rw [hint]
  exact if_pos (by omega)

theorem freeSlot_eq (h : a.allData.length < 2 ^ 31) (hi : index.toNat < a.allData.length)
    (freeFn : Option φ) :
    freeSlot freeFn index a = some (callFree freeFn (a.allData[index.toNat]?).join) := by
  cases freeFn with
  | none => cases (a.allData[index.toNat]?).join <;> rfl
  | some fn =>
    obtain ⟨x, hx⟩ : ∃ x, a.allData[index.toNat]? = some x := ⟨_, List.getElem?_eq_getElem hi⟩
    simp only [freeSlot, read_eq h hi, hx, Option.map_some, Option.join_some]

theorem shiftDown_spec (n : ℕ) {i : BitVec 32} (h : a.allData.length < 2 ^ 31)
    (hn : i.toNat + n < a.allData.length) :
    ∃ d, shiftDown n i a = some { a with allData := d } ∧ d.length = a.allData.length ∧
      ∀ j, d[j]? = if i.toNat ≤ j ∧ j < i.toNat + n then a.allData[j + 1]? else a.allData[j]? := by
  induction n generalizing a i with
  | zero => exact ⟨a.allData, rfl, rfl, fun j => by rw [if_neg (by omega)]⟩
  | succ n ih =>
    have hsucc := toNat_add_one (show i.toNat < 2 ^ 31 by omega)
    have hread := read_eq (i := i + 1) h (by omega)
    obtain ⟨x, hx⟩ : ∃ x, a.allData[(i + 1).toNat]? = some x :=
      ⟨_, List.getElem?_eq_getElem (by omega)⟩
    have hwrite := write_eq h (show i.toNat < a.allData.length by omega) x
    obtain ⟨d, hd, hlen, hslots⟩ := ih (a := { a with allData := a.allData.set i.toNat x }) (i := i + 1)
      (by simpa using h) (by simpa [hsucc] using by omega)
    refine ⟨d, ?_, by simpa using hlen, fun j => ?_⟩
    · simp only [shiftDown, hread, hx, hwrite, Option.bind_eq_bind, Option.bind_some]
      exact hd
    · rw [hslots j, hsucc]
      rw [hsucc] at hx
      by_cases hj : j = i.toNat
      · subst hj
        rw [if_neg (by omega), if_pos (by omega), hx]
        exact List.getElem?_set_self (by omega)
      · have hset : (a.allData.set i.toNat x)[j]? = a.allData[j]? := List.getElem?_set_ne (Ne.symm hj)
        by_cases hin : i.toNat + 1 ≤ j ∧ j < i.toNat + 1 + n
        · rw [if_pos hin, if_pos (by omega)]
          exact List.getElem?_set_ne (by omega)
        · rw [if_neg hin, if_neg (by omega), hset]

theorem checkOutOfBounds_of_lt (h : a.InSlots) (hi : index.toNat < a.curSize.toNat) :
    checkOutOfBounds index a = false := by
  have hfits := h.fits
  have hsmall := h.small
  have hint := toInt_eq_toNat (show index.toNat < 2 ^ 31 by omega)
  have hne : ¬ a.curSize = 0 := by
    intro h0
    rw [h0] at hi
    exact absurd hi (Nat.not_lt_zero _)
  have hslt : index.slt 0 = false := by
    rw [← Bool.not_eq_true, BitVec.slt_iff_toInt_lt, hint, show (0 : BitVec 32).toInt = 0 from rfl]
    omega
  have hule : a.curSize.ule index = false := by
    rw [BitVec.ule, decide_eq_false_iff_not]
    omega
  rw [checkOutOfBounds, if_neg hne, hslt, hule]
  rfl

theorem elems_getElem? {j : ℕ} (hj : j < a.curSize.toNat) :
    a.elems[j]? = a.allData[j]? := List.getElem?_take_of_lt hj

theorem mclArrayDeleteIndx_eq (h : a.InSlots) (hi : index.toNat < a.curSize.toNat) (freeFn : Option φ) :
    ∃ d, mclArrayDeleteIndx index a freeFn =
        some (index.toInt, { a with allData := d, curSize := a.curSize - 1 },
          callFree freeFn (a.elems[index.toNat]?).join) ∧
      d.length = a.allData.length ∧
      d.take (a.curSize - 1).toNat = a.elems.eraseIdx index.toNat ∧
      d[(a.curSize - 1).toNat]? = some none := by
  have hfits := h.fits
  have hsmall := h.small
  have hpred := toNat_sub_one (n := a.curSize) (by omega)
  obtain ⟨n, hn⟩ : ∃ n, a.curSize.toNat = index.toNat + n + 1 :=
    ⟨a.curSize.toNat - index.toNat - 1, by omega⟩
  obtain ⟨d, hd, hlen, hslots⟩ := shiftDown_spec (a := a) n (i := index) hsmall (by omega)
  have hlast : (index + BitVec.ofNat 32 n).toNat = index.toNat + n := by
    rw [BitVec.toNat_add, BitVec.toNat_ofNat]
    omega
  have hwrite := write_eq (a := { a with allData := d }) (i := index + BitVec.ofNat 32 n)
    (by rw [hlen]; exact hsmall) (by rw [hlast, hlen]; omega) none
  refine ⟨d.set (index.toNat + n) none, ?_, by rw [List.length_set, hlen], ?_, ?_⟩
  · have hcount : (a.curSize - 1).toNat - index.toNat = n := by omega
    rw [mclArrayDeleteIndx, checkOutOfBounds_of_lt h hi, if_neg Bool.false_ne_true,
      freeSlot_eq hsmall (by omega), elems_getElem? hi]
    simp only [hcount, hd, hwrite, hlast, Option.bind_eq_bind, Option.bind_some]
    rfl
  · apply List.ext_getElem?
    intro j
    rw [hpred, List.getElem?_eraseIdx, List.getElem?_take]
    by_cases hj : j < a.curSize.toNat - 1
    · rw [if_pos hj, List.getElem?_set_ne (by omega), hslots j, elems_getElem? (by omega),
        elems_getElem? (by omega)]
      by_cases hlt : j < index.toNat
      · rw [if_neg (by omega), if_pos hlt]
      · rw [if_pos (by omega), if_neg hlt]
    · have hout : a.elems.length ≤ j + 1 := by
        rw [elems, List.length_take]
        omega
      rw [if_neg hj, if_neg (by omega), List.getElem?_eq_none hout]
  · rw [show (a.curSize - 1).toNat = index.toNat + n by omega]
    exact List.getElem?_set_self (by omega)

theorem mclArrayDelete_eq (h : a.InSlots) (hi : index.toNat < a.curSize.toNat) (freeFn : Option φ) :
    ∃ d, mclArrayDelete index a freeFn =
        some (index.toInt, { a with allData := d, curSize := a.curSize - 1 },
          callFree freeFn (a.elems[index.toNat]?).join) ∧
      d.length = a.allData.length ∧
      d.take (a.curSize - 1).toNat = (a.elems.set index.toNat a.elems.getLast?.join).dropLast ∧
      d[(a.curSize - 1).toNat]? = some none := by
  have hfits := h.fits
  have hsmall := h.small
  have hpred := toNat_sub_one (n := a.curSize) (by omega)
  obtain ⟨x, hx⟩ : ∃ x, a.allData[a.curSize.toNat - 1]? = some x :=
    ⟨_, List.getElem?_eq_getElem (by omega)⟩
  have hread : a.read (a.curSize - 1).toNat = some x := by
    rw [hpred, ← hx]
    exact if_pos (by omega)
  have hwrite := write_eq hsmall (show index.toNat < a.allData.length by omega) x
  have hwrite' : MclArray.write { a with allData := a.allData.set index.toNat x } (a.curSize - 1).toNat none =
      some { a with allData := (a.allData.set index.toNat x).set (a.curSize.toNat - 1) none } := by
    rw [hpred]
    exact if_pos ⟨by omega, by rw [List.length_set]; omega⟩
  refine ⟨(a.allData.set index.toNat x).set (a.curSize.toNat - 1) none, ?_, by simp, ?_, ?_⟩
  · rw [mclArrayDelete, checkOutOfBounds_of_lt h hi, if_neg Bool.false_ne_true,
      freeSlot_eq hsmall (by omega), elems_getElem? hi]
    simp only [hread, hwrite, hwrite', Option.bind_eq_bind, Option.bind_some]
    rfl
  · have hlen : a.elems.length = a.curSize.toNat := by
      rw [elems, List.length_take]
      omega
    have hlast : a.elems.getLast?.join = x := by
      rw [List.getLast?_eq_getElem?, hlen, elems_getElem? (by omega), hx]
      rfl
    apply List.ext_getElem?
    intro j
    rw [hpred, hlast, List.getElem?_take, List.getElem?_dropLast, List.length_set, hlen]
    by_cases hj : j < a.curSize.toNat - 1
    · rw [if_pos hj, if_pos hj, List.getElem?_set_ne (by omega), List.getElem?_set, List.getElem?_set,
        elems_getElem? (by omega), hlen]
      by_cases heq : index.toNat = j
      · rw [if_pos heq, if_pos heq, if_pos (by omega), if_pos (by omega)]
      · rw [if_neg heq, if_neg heq]
    · rw [if_neg hj, if_neg hj]
  · rw [hpred]
    exact List.getElem?_set_self (by rw [List.length_set]; omega)

/-! Deletion from an empty array: index 0 passes the check, and `_cur_size - 1` wraps around. -/

theorem shiftDown_none (n : ℕ) {i : BitVec 32} (h : a.allData.length < 2 ^ 31) (hi : i.toNat < 2 ^ 31)
    (hn : a.allData.length ≤ i.toNat + n) (hpos : 0 < n) : shiftDown n i a = none := by
  induction n generalizing a i with
  | zero => exact absurd hpos (Nat.lt_irrefl _)
  | succ n ih =>
    have hsucc := toNat_add_one hi
    by_cases hin : i.toNat + 1 < a.allData.length
    · obtain ⟨x, hx⟩ : ∃ x, a.allData[(i + 1).toNat]? = some x := ⟨_, List.getElem?_eq_getElem (by omega)⟩
      have hread := read_eq (i := i + 1) h (by omega)
      have hwrite := write_eq h (show i.toNat < a.allData.length by omega) x
      have hrest := ih (a := { a with allData := a.allData.set i.toNat x }) (i := i + 1)
        (by simpa using h) (by omega) (by simp; omega) (by omega)
      simp only [shiftDown, hread, hx, hwrite, hrest, Option.bind_eq_bind, Option.bind_some]
    · have hread : a.read (i + 1).toInt = none := by
        unfold read
        split
        · next h0 =>
          have hint := toNat_of_nonneg h0
          exact List.getElem?_eq_none (by omega)
        · rfl
      simp only [shiftDown, hread, Option.bind_eq_bind, Option.bind_none]

theorem checkOutOfBounds_empty (h0 : a.curSize = 0) : checkOutOfBounds 0 a = false := by
  rw [checkOutOfBounds, if_pos h0, h0]
  decide

theorem mclArrayDeleteIndx_empty (h : a.InSlots) (h0 : a.curSize = 0) (freeFn : Option φ) :
    mclArrayDeleteIndx 0 a freeFn = none := by
  have hsmall := h.small
  have hnone : shiftDown ((a.curSize - 1).toNat - (0 : BitVec 32).toNat) 0 a = none := by
    have hwrap : (a.curSize - 1).toNat - (0 : BitVec 32).toNat = 2 ^ 32 - 1 := by rw [h0]; rfl
    rw [hwrap]
    exact shiftDown_none _ hsmall (by decide) (by omega) (by omega)
  rw [mclArrayDeleteIndx, checkOutOfBounds_empty h0, if_neg Bool.false_ne_true]
  cases freeSlot freeFn 0 a with
  | none => rfl
  | some freed => simp only [hnone, Option.bind_eq_bind, Option.bind_some, Option.bind_none]

theorem mclArrayDelete_empty (h : a.InSlots) (h0 : a.curSize = 0) (freeFn : Option φ) :
    mclArrayDelete 0 a freeFn = none := by
  have hsmall := h.small
  have hnone : a.read (a.curSize - 1).toNat = none := by
    have hwrap : (a.curSize - 1).toNat = 2 ^ 32 - 1 := by rw [h0]; rfl
    rw [hwrap]
    refine (if_pos (by omega)).trans ?_
    exact List.getElem?_eq_none (by omega)
  rw [mclArrayDelete, checkOutOfBounds_empty h0, if_neg Bool.false_ne_true]
  cases freeSlot freeFn 0 a with
  | none => rfl
  | some freed => simp only [hnone, Option.bind_eq_bind, Option.bind_some, Option.bind_none]

/-! The law of deletion by index. -/

/-- A deletion that takes out the element at `index`, releases it and leaves `xs`. -/
def TakesOut (a : MclArray α φ) (index : BitVec 32) (freeFn : Option φ) (xs : List (Option α))
    (r : Option (ℤ × MclArray α φ × Freed φ α)) : Prop :=
  ∃ d c, r = some (index.toInt, { a with allData := d, curSize := c },
      callFree freeFn (a.elems[index.toNat]?).join) ∧
    d.length = a.allData.length ∧ d.take c.toNat = xs ∧ c.toNat + 1 = a.curSize.toNat

/-- `mcl_array_delete_indx` closes the gap, `mcl_array_delete` fills it with the last element, and
both refuse an index outside the array. -/
structure DeletesAt (a : MclArray α φ) (index : BitVec 32) (freeFn : Option φ) : Prop where
  inside : 0 ≤ index.toInt → index.toInt < a.curSize.toNat →
    a.TakesOut index freeFn (a.elems.eraseIdx index.toNat) (mclArrayDeleteIndx index a freeFn) ∧
      a.TakesOut index freeFn (a.elems.set index.toNat a.elems.getLast?.join).dropLast
        (mclArrayDelete index a freeFn)
  outside : ¬ (0 ≤ index.toInt ∧ index.toInt < a.curSize.toNat) →
    mclArrayDeleteIndx index a freeFn = some (-1, a, []) ∧
      mclArrayDelete index a freeFn = some (-1, a, [])

theorem checkOutOfBounds_iff (h : a.InSlots) :
    checkOutOfBounds index a = false ↔
      (0 ≤ index.toInt ∧ index.toInt < a.curSize.toNat) ∨ a.curSize = 0 ∧ index = 0 := by
  have hfits := h.fits
  have hsmall := h.small
  constructor
  · intro hout
    rcases of_checkOutOfBounds hout with hempty | hi
    · exact .inr hempty
    · have hint := toInt_eq_toNat (show index.toNat < 2 ^ 31 by omega)
      exact .inl (by omega)
  · rintro (⟨h0, hlt⟩ | ⟨h0, rfl⟩)
    · have hint := toNat_of_nonneg h0
      exact checkOutOfBounds_of_lt h (by omega)
    · exact checkOutOfBounds_empty h0

theorem InSlots.deletesAt_iff (h : a.InSlots) (index : BitVec 32) (freeFn : Option φ) :
    a.DeletesAt index freeFn ↔ ¬ (a.curSize = 0 ∧ index = 0) := by
  constructor
  · rintro hdel ⟨h0, rfl⟩
    have hout : ¬ (0 ≤ (0 : BitVec 32).toInt ∧ (0 : BitVec 32).toInt < a.curSize.toNat) := by
      rw [h0]
      decide
    have hrefused := (hdel.outside hout).1
    rw [mclArrayDeleteIndx_empty h h0] at hrefused
    exact absurd hrefused (by simp)
  · intro hne
    constructor
    · intro h0 hlt
      have hint := toNat_of_nonneg h0
      have hi : index.toNat < a.curSize.toNat := by omega
      have hpred := toNat_sub_one (n := a.curSize) (by omega)
      obtain ⟨d, hd, hlen, helems, -⟩ := mclArrayDeleteIndx_eq h hi freeFn
      obtain ⟨d', hd', hlen', helems', -⟩ := mclArrayDelete_eq h hi freeFn
      exact ⟨⟨d, _, hd, hlen, helems, by omega⟩, d', _, hd', hlen', helems', by omega⟩
    · intro hout
      have hcheck : checkOutOfBounds index a = true := by
        rw [← Bool.not_eq_false, checkOutOfBounds_iff h]
        exact fun hc => hc.elim hout hne
      rw [mclArrayDeleteIndx, mclArrayDelete, hcheck]
      exact ⟨rfl, rfl⟩

end MclArray
end Mcl
