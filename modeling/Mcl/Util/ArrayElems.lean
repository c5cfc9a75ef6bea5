import Mcl.Util.ArrayCalls

/-! What the calls of `mcl_array.h` do to the elements of an array. -/
namespace Mcl

variable {α φ : Type}

/-- The size that `try_extend_array` leaves. -/
def grownSize (totalSize curSize : BitVec 32) : BitVec 32 :=
  if totalSize.sle curSize ∧ (totalSize <<< 1).ule totalSize = false then totalSize <<< 1 else totalSize

/-- An array without its block: the elements, the size of the block and the destructor. -/
structure ArrayModel (α φ : Type) where
  items : List (Option α)
  totalSize : BitVec 32
  eraseFn : Option φ

namespace ArrayModel

/-- The number of slots that an insertion has. -/
def room (m : ArrayModel α φ) : ℕ := slotsOf (grownSize m.totalSize (BitVec.ofNat 32 m.items.length))

/-- The elements after an insertion, with the block that it may have extended. -/
def grow (m : ArrayModel α φ) (items : List (Option α)) : ArrayModel α φ :=
  { m with items := items, totalSize := grownSize m.totalSize (BitVec.ofNat 32 m.items.length) }

/-- `data` comes to stand at `i`, if there is a slot for one more element. -/
def insertAt (m : ArrayModel α φ) (i : ℕ) (data : Option α) : Option (ArrayModel α φ) :=
  if m.items.length < m.room then some (m.grow (m.items.insertIdx i data)) else none

/-- `mcl_array_insert` into an empty array stores behind slot 0. -/
def insertSecond (m : ArrayModel α φ) : Option (ArrayModel α φ) :=
  if 1 < m.room then some (m.grow [none]) else none

end ArrayModel

namespace MclArray

/-- The block is the one that was asked for, and an empty array shows no old pointer. -/
structure Placed (a : MclArray α φ) : Prop extends InSlots a where
  alloc : a.allData.length = slotsOf a.totalSize
  clear : a.curSize = 0 → (a.allData[0]?).join = none

/-- What an array is to its user. -/
def model (a : MclArray α φ) : ArrayModel α φ := ⟨a.elems, a.totalSize, a.eraseFn⟩

/-- The code does on the block what the model does on the elements; both may fail. -/
def Refines {ρ : Type} (r : Option (ρ × MclArray α φ)) (r' : Option (ρ × ArrayModel α φ)) : Prop :=
  r.map (fun x => (x.1, x.2.model)) = r' ∧ ∀ x ∈ r, x.2.Placed

variable {a a' : MclArray α φ} {junk : ℕ → Option α} {index : BitVec 32} {freeFn : Option φ}

theorem Refines.none {ρ : Type} :
    Refines (Option.none : Option (ρ × MclArray α φ)) Option.none := ⟨rfl, by simp⟩

theorem Refines.some {ρ : Type} (h : a.Placed) (r : ρ) : Refines (.some (r, a)) (.some (r, a.model)) :=
  ⟨rfl, by rintro x ⟨⟩; exact h⟩

theorem Refines.mapRet {ρ ρ' : Type} {r : Option (ρ × MclArray α φ)} {r' : Option (ρ × ArrayModel α φ)}
    (h : Refines r r') (f : ρ → ρ') :
    Refines (r.map fun x => (f x.1, x.2)) (r'.map fun x => (f x.1, x.2)) := by
  constructor
  · rw [← h.1, Option.map_map, Option.map_map]
    rfl
  · intro x hx
    obtain ⟨y, hy, rfl⟩ := Option.map_eq_some_iff.mp hx
    exact h.2 y hy

theorem elems_length (h : a.InSlots) : a.elems.length = a.curSize.toNat := by
  rw [elems, List.length_take, Nat.min_eq_left h.fits]

theorem ofNat_length (h : a.InSlots) : BitVec.ofNat 32 a.elems.length = a.curSize := by
  rw [elems_length h, BitVec.ofNat_toNat, BitVec.setWidth_eq]

theorem slotsOf_grown {n : BitVec 32} (hgrow : (n <<< 1).ule n = false) :
    slotsOf n = n.toNat ∧ (slotsOf (n <<< 1) = 2 * n.toNat ∨ slotsOf (n <<< 1) = 0) := by
  rw [BitVec.ule, decide_eq_false_iff_not] at hgrow
  have hshift : (n <<< 1).toNat = 2 * n.toNat % 2 ^ 32 := by
    rw [BitVec.toNat_shiftLeft, Nat.shiftLeft_eq, Nat.mul_comm, pow_one]
  have hsmall : n.toNat < 2 ^ 31 := by omega
  refine ⟨slotsOf_eq hsmall, ?_⟩
  by_cases hn : n.toNat < 2 ^ 30
  · rw [slotsOf_eq (by omega)]
    omega
  · rw [slotsOf_toInt, BitVec.toInt_eq_toNat_cond]
    split <;> omega

/-- Growing keeps the old slots, if there is a new block. -/
theorem tryExtendArray_eq (halloc : a.allData.length = slotsOf a.totalSize) (junk : ℕ → Option α) :
    ∃ d, tryExtendArray a junk = { a with allData := d, totalSize := grownSize a.totalSize a.curSize } ∧
      d.length = slotsOf (grownSize a.totalSize a.curSize) ∧
      (d.length ≠ 0 → 0 < a.allData.length ∧ a.allData.length ≤ d.length ∧
        ∀ j < a.allData.length, d[j]? = a.allData[j]?) := by
  unfold tryExtendArray tryExtendArrayWith extendArray grownSize
  by_cases hfull : a.totalSize.sle a.curSize = true
  · cases hgrow : (a.totalSize <<< 1).ule a.totalSize with
    | true =>
      rw [if_pos hfull, if_pos rfl, if_neg (fun hc => absurd hc.2 (by simp))]
      exact ⟨a.allData, rfl, halloc, fun hne => ⟨Nat.pos_of_ne_zero hne, Nat.le_refl _, fun _ _ => rfl⟩⟩
    | false =>
      obtain ⟨hold, hnew⟩ := slotsOf_grown hgrow
      have hlen := length_reallocData junk (a.totalSize <<< 1) a.allData
      rw [if_pos hfull, if_neg Bool.false_ne_true, if_pos ⟨hfull, rfl⟩]
      refine ⟨_, rfl, hlen, fun hne => ⟨by omega, by omega, fun j hj => ?_⟩⟩
      rw [reallocData, ← slotsOf, List.getElem?_append_left (by rw [List.length_take]; omega), List.getElem?_take,
        if_pos (by omega)]
  · rw [if_neg hfull, if_neg (fun hc => hfull hc.1)]
    exact ⟨a.allData, rfl, halloc, fun hne => ⟨Nat.pos_of_ne_zero hne, Nat.le_refl _, fun _ _ => rfl⟩⟩

theorem shiftUp_eq {lo n : ℕ} (hn : lo + n < a.allData.length) :
    ∃ d, shiftUp lo n a = some { a with allData := d } ∧ d.length = a.allData.length ∧
      ∀ j, d[j]? = if lo < j ∧ j ≤ lo + n then a.allData[j - 1]? else a.allData[j]? := by
  induction n generalizing a with
  | zero => exact ⟨a.allData, rfl, rfl, fun j => by rw [if_neg (by omega)]⟩
  | succ n ih =>
    obtain ⟨x, hx⟩ : ∃ x, a.allData[lo + n]? = some x := ⟨_, List.getElem?_eq_getElem (by omega)⟩
    have hread : a.read ((lo : ℤ) + n) = some x := by
      rw [← hx]
      exact if_pos (by omega)
    have hwrite : a.write ((lo : ℤ) + n + 1) x = some { a with allData := a.allData.set (lo + n + 1) x } :=
      if_pos ⟨by omega, by omega⟩
    obtain ⟨d, hd, hlen, hslots⟩ := ih (a := { a with allData := a.allData.set (lo + n + 1) x })
      (by simp only [List.length_set]; omega)
    refine ⟨d, ?_, by simpa using hlen, fun j => ?_⟩
    · simp only [shiftUp, hread, hwrite, Option.bind_eq_bind, Option.bind_some]
      exact hd
    · rw [hslots j]
      by_cases hj : j = lo + n + 1
      · subst hj
        rw [if_neg (by omega), if_pos (by omega), List.getElem?_set_self (by omega)]
        exact hx.symm
      · by_cases hin : lo < j ∧ j ≤ lo + n
        · rw [if_pos hin, if_pos (by omega), List.getElem?_set_ne (by omega)]
        · rw [if_neg hin, if_neg (by omega), List.getElem?_set_ne (by omega)]

theorem write_natCast {i : ℕ} (hi : i < a.allData.length) (data : Option α) :
    a.write i data = some { a with allData := a.allData.set i data } := if_pos ⟨by omega, by omega⟩

theorem tryExtendArray_curSize (h : a.InSlots) (junk : ℕ → Option α) :
    (tryExtendArray a junk).curSize = a.curSize := (tryExtendArray_small h.small junk).1

theorem InSlots.toInt_curSize (h : a.InSlots) : a.curSize.toInt = a.curSize.toNat :=
  toInt_eq_toNat (Nat.lt_of_le_of_lt h.fits h.small)

/-- Making room at `lo` and storing `data` there. -/
def openGap (lo : ℕ) (data : Option α) (a : MclArray α φ) : Option (MclArray α φ) := do
  let a ← shiftUp lo (a.curSize.toNat - lo) a
  let a ← a.write lo data
  some (increaseSize a)

theorem openGap_map {ρ : Type} (lo : ℕ) (data : Option α) (a : MclArray α φ) (ret : ρ) :
    ((openGap lo data a).map fun a => (ret, a)) = (do
      let a ← shiftUp lo (a.curSize.toNat - lo) a
      let a ← a.write lo data
      some (ret, increaseSize a)) := by
  simp only [openGap, Option.bind_eq_bind, Option.map_bind, Function.comp_def, Option.map_some]

theorem openGap_none {lo : ℕ} (hlo : lo ≤ a.curSize.toNat) (hfull : a.allData.length ≤ a.curSize.toNat)
    (data : Option α) : openGap lo data a = none := by
  cases hgap : openGap lo data a with
  | none => rfl
  | some a' =>
    simp only [openGap, Option.bind_eq_bind, Option.bind_eq_some_iff] at hgap
    obtain ⟨b, hshift, b', hwrite, -⟩ := hgap
    obtain ⟨hrew, hlt⟩ := shiftUp_some hshift
    obtain ⟨-, hlt', -⟩ := write_some hwrite
    have hlen := hrew.length
    by_cases hlast : lo = a.curSize.toNat
    · omega
    · have := hlt (by omega)
      omega

theorem openGap_eq {lo : ℕ} (hlo : lo ≤ a.curSize.toNat) (hroom : a.curSize.toNat < a.allData.length)
    (hsmall : a.allData.length < 2 ^ 31) (data : Option α) :
    ∃ d, openGap lo data a = some { a with allData := d, curSize := a.curSize + 1 } ∧
      d.length = a.allData.length ∧ d.take (a.curSize + 1).toNat = a.elems.insertIdx lo data := by
  have hsucc := toNat_add_one (show a.curSize.toNat < 2 ^ 31 by omega)
  have hlen : a.elems.length = a.curSize.toNat := by
    rw [elems, List.length_take]
    omega
  have hend : lo + (a.curSize.toNat - lo) < a.allData.length := by omega
  obtain ⟨d, hd, hdlen, hslots⟩ := shiftUp_eq hend
  have hwrite := write_natCast (a := { a with allData := d }) (i := lo) (by rw [hdlen]; omega) data
  refine ⟨d.set lo data, ?_, by rw [List.length_set, hdlen], ?_⟩
  · simp only [openGap, hd, hwrite, Option.bind_eq_bind, Option.bind_some]
    rfl
  · apply List.ext_getElem?
    intro j
    rw [hsucc, List.getElem?_take, List.getElem?_insertIdx, hlen]
    by_cases hj : j < a.curSize.toNat + 1
    · rw [if_pos hj]
      rcases Nat.lt_trichotomy j lo with hlt | rfl | hgt
      · rw [if_pos hlt, List.getElem?_set_ne (by omega), hslots j, if_neg (by omega),
          elems_getElem? (by omega)]
      · rw [if_neg (Nat.lt_irrefl _), if_pos rfl, if_pos hlo, List.getElem?_set_self (by omega)]
      · rw [if_neg (by omega), if_neg (by omega), List.getElem?_set_ne (by omega), hslots j,
          if_pos (by omega), elems_getElem? (by omega)]
    · rw [if_neg hj, if_neg (by omega), if_neg (by omega), List.getElem?_eq_none (by omega)]

/-- A block that begins like the old one. -/
theorem take_eq_elems {d : List (Option α)} (hfits : a.curSize.toNat ≤ a.allData.length)
    (hold : ∀ j < a.allData.length, d[j]? = a.allData[j]?) : d.take a.curSize.toNat = a.elems := by
  apply List.ext_getElem?
  intro j
  rw [elems, List.getElem?_take, List.getElem?_take]
  by_cases hj : j < a.curSize.toNat
  · rw [if_pos hj, if_pos hj, hold j (by omega)]
  · rw [if_neg hj, if_neg hj]

/-- An insertion at `lo`, after `try_extend_array`. -/
theorem Placed.insertAt (h : a.Placed) {lo : ℕ} (hlo : lo ≤ a.curSize.toNat) (data : Option α)
    (junk : ℕ → Option α) (ret : ℤ) :
    Refines ((openGap lo data (tryExtendArray a junk)).map fun a => (ret, a))
      ((a.model.insertAt lo data).map fun m => (ret, m)) := by
  obtain ⟨d, hext, hdlen, hkeep⟩ := tryExtendArray_eq h.alloc junk
  have hitems : a.model.items = a.elems := rfl
  have hroom : a.model.room = d.length := by
    rw [ArrayModel.room, hitems, ofNat_length h.toInSlots, hdlen]
    rfl
  have hdsmall : d.length < 2 ^ 31 := by
    rw [hdlen]
    exact slotsOf_lt _
  rw [hext, ArrayModel.insertAt, hroom, hitems, elems_length h.toInSlots]
  by_cases hlt : a.curSize.toNat < d.length
  · obtain ⟨-, hle, hold⟩ := hkeep (by omega)
    have hfits := h.fits
    have hsucc := toNat_add_one (show a.curSize.toNat < 2 ^ 31 by omega)
    obtain ⟨d', hgap, hlen', htake⟩ := openGap_eq
      (a := { a with allData := d, totalSize := grownSize a.totalSize a.curSize }) hlo hlt hdsmall data
    have helems : d.take a.curSize.toNat = a.elems := take_eq_elems h.fits hold
    rw [if_pos hlt, hgap, Option.map_some, Option.map_some]
    constructor
    · simp only [Option.map_some, model, elems, ArrayModel.grow, Option.some.injEq, Prod.mk.injEq,
        ArrayModel.mk.injEq, true_and, and_true]
      constructor
      · rw [htake, elems, helems]
        rfl
      · rw [show BitVec.ofNat 32 (a.allData.take a.curSize.toNat).length = a.curSize from
          ofNat_length h.toInSlots]
    · rintro x ⟨⟩
      constructor
      · constructor
        · change (a.curSize + 1).toNat ≤ d'.length
          rw [hsucc, hlen']
          exact hlt
        · change d'.length < 2 ^ 31
          rw [hlen']
          exact hdsmall
      · exact hlen'.trans hdlen
      · intro h0
        have hzero : (a.curSize + 1).toNat = 0 := by
          rw [show a.curSize + 1 = 0 from h0]
          rfl
        omega
  · rw [if_neg hlt, openGap_none
      (a := { a with allData := d, totalSize := grownSize a.totalSize a.curSize }) hlo (Nat.le_of_not_lt hlt)]
    exact .none

/-! The four calls are insertions at a position. -/

theorem mclArrayAppend_eq (h : a.InSlots) (data : Option α) (junk : ℕ → Option α) :
    mclArrayAppend data a junk =
      (openGap a.curSize.toNat data (tryExtendArray a junk)).map fun a' => ((a.curSize.toNat : ℤ), a') := by
  rw [openGap_map, tryExtendArray_curSize h junk, Nat.sub_self, mclArrayAppend, h.toInt_curSize]
  rfl

theorem mclArrayPreappend_eq (h : a.InSlots) (data : Option α) (junk : ℕ → Option α) :
    mclArrayPreappend data a junk = (openGap 0 data (tryExtendArray a junk)).map fun a' => (0, a') := by
  have hcur := tryExtendArray_curSize h junk
  have hstop : (if (a.curSize.toNat : ℤ) > 0 then 0 else (a.curSize.toNat : ℤ)) = ((0 : ℕ) : ℤ) := by
    split <;> omega
  unfold mclArrayPreappend
  simp only [openGap_map, hcur, h.toInt_curSize, hstop, Nat.sub_zero, Int.toNat_natCast]
  rfl

theorem mclArrayPreinsert_eq (h : a.InSlots) (hi : index.toNat < a.curSize.toNat) (data : Option α)
    (junk : ℕ → Option α) :
    mclArrayPreinsert data index a junk =
      (openGap index.toNat data (tryExtendArray a junk)).map fun a' => ((index.toNat : ℤ), a') := by
  have hlt : a.curSize.toNat < 2 ^ 31 := Nat.lt_of_le_of_lt h.fits h.small
  unfold mclArrayPreinsert
  rw [checkOutOfBounds_of_lt h hi, if_neg Bool.false_ne_true]
  by_cases h0 : index = 0
  · subst h0
    rw [if_pos rfl]
    exact mclArrayPreappend_eq h data junk
  · have hcur := tryExtendArray_curSize h junk
    have hindex := toInt_eq_toNat (n := index) (by omega)
    have hpred := toNat_sub_one (n := a.curSize) (by omega)
    have hpredInt := toInt_eq_toNat (n := a.curSize - 1) (by omega)
    have hcount : ((a.curSize - 1).toInt + 1 - (index.toNat : ℤ)).toNat = a.curSize.toNat - index.toNat := by
      omega
    rw [if_neg h0]
    simp only [openGap_map, hcur, hindex, hcount]

theorem mclArrayInsert_eq (h : a.InSlots) (hi : index.toNat < a.curSize.toNat) (data : Option α)
    (junk : ℕ → Option α) :
    mclArrayInsert data index a junk =
      (openGap (index.toNat + 1) data (tryExtendArray a junk)).map fun a' =>
        ((index.toNat : ℤ) + 1, a') := by
  have hlt : a.curSize.toNat < 2 ^ 31 := Nat.lt_of_le_of_lt h.fits h.small
  have hpred := toNat_sub_one (n := a.curSize) (by omega)
  unfold mclArrayInsert
  rw [checkOutOfBounds_of_lt h hi, if_neg Bool.false_ne_true]
  by_cases hlast : index = a.curSize - 1
  · have hnat : a.curSize.toNat = index.toNat + 1 := by
      rw [hlast]
      omega
    rw [if_pos hlast, mclArrayAppend_eq h, hnat]
    rfl
  · have hcur := tryExtendArray_curSize h junk
    have hindex := toInt_eq_toNat (n := index) (by omega)
    have hne : index.toNat ≠ a.curSize.toNat - 1 := fun hc => hlast (BitVec.eq_of_toNat_eq (by omega))
    have hpredInt := toInt_eq_toNat (n := a.curSize - 1) (by omega)
    have hsucc := toNat_add_one (n := index) (by omega)
    have hsuccInt : (index + 1).toInt = ((index.toNat + 1 : ℕ) : ℤ) := by
      rw [toInt_eq_toNat (by omega), hsucc]
    have hlo : index.toInt + 1 = ((index.toNat + 1 : ℕ) : ℤ) := by omega
    have hcount : ((a.curSize - 1).toInt - index.toInt).toNat = a.curSize.toNat - (index.toNat + 1) := by
      omega
    rw [if_neg hlast]
    simp only [openGap_map, hcur, hlo, hsuccInt, hcount]
    rfl

theorem mclArrayAppend_refines (h : a.Placed) (data : Option α) (junk : ℕ → Option α) :
    Refines (mclArrayAppend data a junk)
      ((a.model.insertAt a.model.items.length data).map fun m => ((a.model.items.length : ℤ), m)) := by
  have hlen : a.model.items.length = a.curSize.toNat := elems_length h.toInSlots
  rw [mclArrayAppend_eq h.toInSlots, hlen]
  exact h.insertAt (Nat.le_refl _) data junk _

theorem mclArrayPreappend_refines (h : a.Placed) (data : Option α) (junk : ℕ → Option α) :
    Refines (mclArrayPreappend data a junk) ((a.model.insertAt 0 data).map fun m => (0, m)) := by
  rw [mclArrayPreappend_eq h.toInSlots]
  exact h.insertAt (Nat.zero_le _) data junk _

theorem mclArrayPreinsert_refines (h : a.Placed) (hi : index.toNat < a.curSize.toNat) (data : Option α)
    (junk : ℕ → Option α) :
    Refines (mclArrayPreinsert data index a junk)
      ((a.model.insertAt index.toNat data).map fun m => (index.toInt, m)) := by
  have hlt : a.curSize.toNat < 2 ^ 31 := Nat.lt_of_le_of_lt h.fits h.small
  rw [mclArrayPreinsert_eq h.toInSlots hi, toInt_eq_toNat (n := index) (by omega)]
  exact h.insertAt (Nat.le_of_lt hi) data junk _

theorem mclArrayInsert_refines (h : a.Placed) (hi : index.toNat < a.curSize.toNat) (data : Option α)
    (junk : ℕ → Option α) :
    Refines (mclArrayInsert data index a junk)
      ((a.model.insertAt (index.toNat + 1) data).map fun m => ((index.toNat : ℤ) + 1, m)) := by
  rw [mclArrayInsert_eq h.toInSlots hi]
  exact h.insertAt (by omega) data junk _

/-- Slot 1 of an empty array, as its block is after `try_extend_array`. -/
theorem mclArrayInsert_first (h0 : a.curSize = 0) {d : List (Option α)} {t : BitVec 32}
    (hext : tryExtendArray a junk = { a with allData := d, totalSize := t }) (data : Option α) :
    mclArrayInsert data 0 a junk =
      (MclArray.write { a with allData := d, totalSize := t } 1 data).map fun a' => (1, increaseSize a') := by
  have hne : ¬ (0 : BitVec 32) = a.curSize - 1 := by
    rw [h0]
    decide
  unfold mclArrayInsert
  rw [checkOutOfBounds_empty h0, if_neg Bool.false_ne_true, if_neg hne, hext]
  dsimp only
  rw [h0]
  exact (Option.map_eq_bind ..).symm

theorem mclArrayInsert_empty (h : a.Placed) (h0 : a.curSize = 0) (data : Option α) (junk : ℕ → Option α) :
    Refines (mclArrayInsert data 0 a junk) (a.model.insertSecond.map fun m => (1, m)) := by
  obtain ⟨d, hext, hdlen, hkeep⟩ := tryExtendArray_eq h.alloc junk
  have hroom : a.model.room = d.length := by
    rw [ArrayModel.room, show a.model.items = a.elems from rfl, ofNat_length h.toInSlots, hdlen]
    rfl
  rw [mclArrayInsert_first h0 hext, ArrayModel.insertSecond, hroom]
  by_cases hlt : 1 < d.length
  · obtain ⟨hpos, -, hold⟩ := hkeep (by omega)
    have hfirst : d[0]? = some none := by
      rw [hold 0 hpos]
      have hclear := h.clear h0
      rw [List.getElem?_eq_getElem hpos] at hclear ⊢
      exact congrArg some hclear
    have hwrite := write_natCast
      (a := { a with allData := d, totalSize := grownSize a.totalSize a.curSize }) hlt data
    rw [if_pos hlt, show (1 : ℤ) = ((1 : ℕ) : ℤ) from rfl, hwrite]
    constructor
    · simp only [Option.map_some, model, elems, increaseSize, ArrayModel.grow, h0, Option.some.injEq,
        Prod.mk.injEq, ArrayModel.mk.injEq, true_and, and_true]
      constructor
      · apply List.ext_getElem?
        intro j
        rw [List.getElem?_take, show ((0 : BitVec 32) + 1).toNat = 1 from rfl]
        cases j with
        | zero => rw [if_pos Nat.one_pos, List.getElem?_set_ne (by omega), hfirst]; rfl
        | succ j => rw [if_neg (by omega)]; rfl
      · rfl
    · rintro x ⟨⟩
      constructor
      · constructor
        · change (a.curSize + 1).toNat ≤ (d.set 1 data).length
          rw [h0, List.length_set]
          change 1 ≤ _
          omega
        · change (d.set 1 data).length < 2 ^ 31
          rw [List.length_set, hdlen]
          exact slotsOf_lt _
      · change (d.set 1 data).length = _
        rw [List.length_set]
        exact hdlen
      · intro hc
        change a.curSize + 1 = 0 at hc
        rw [h0] at hc
        exact absurd hc (by decide)
  · have hout : MclArray.write { a with allData := d, totalSize := grownSize a.totalSize a.curSize } 1 data =
        none := if_neg (by change ¬ (_ ∧ (1 : ℤ) < d.length); omega)
    rw [if_neg hlt, hout]
    exact .none

end MclArray
end Mcl
