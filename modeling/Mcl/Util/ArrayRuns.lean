import Mcl.Library.Runs
import Mcl.Util.Array

/-! Capacity and slot accesses of `mcl_array.c` over whole runs. -/
namespace Mcl
open Mcl.Library

variable {α φ : Type}

/-- A call, with what the memory it may allocate holds. -/
inductive ArrayOp (α φ : Type) where
  | append (data : Option α) (junk : ℕ → Option α)
  | preappend (data : Option α) (junk : ℕ → Option α)
  | insert (data : Option α) (index : BitVec 32) (junk : ℕ → Option α)
  | preinsert (data : Option α) (index : BitVec 32) (junk : ℕ → Option α)
  | clean (freeFn : Option φ)
  | tighten (junk : ℕ → Option α)

def execArray (a : MclArray α φ) : ArrayOp α φ → Option ((ℤ × Freed φ α) × MclArray α φ)
  | .append data junk => (mclArrayAppend data a junk).map fun (ret, a) => ((ret, []), a)
  | .preappend data junk => (mclArrayPreappend data a junk).map fun (ret, a) => ((ret, []), a)
  | .insert data index junk => (mclArrayInsert data index a junk).map fun (ret, a) => ((ret, []), a)
  | .preinsert data index junk =>
    (mclArrayPreinsert data index a junk).map fun (ret, a) => ((ret, []), a)
  | .clean freeFn => (mclArrayClean a freeFn).map fun (a, freed) => ((0, freed), a)
  | .tighten junk => some ((0, []), mclArrayTighten a junk)

def arrayMachine (a : MclArray α φ) : Machine (MclArray α φ) (ArrayOp α φ) (ℤ × Freed φ α) :=
  ⟨a, execArray⟩

/-- The calls that put an element into an empty array. -/
def ArrayOp.Puts : ArrayOp α φ → Prop
  | append _ _ | preappend _ _ => True
  | insert _ index _ | preinsert _ index _ => index = 0
  | clean _ | tighten _ => False

/-- An element is put into an array that `mcl_array_tighten` left without any slot. -/
def Overruns (a : MclArray α φ) (op : ArrayOp α φ) : Prop := a.totalSize = 0 ∧ op.Puts

instance : (op : ArrayOp α φ) → Decidable op.Puts
  | .append _ _ | .preappend _ _ => .isTrue trivial
  | .insert _ index _ | .preinsert _ index _ => inferInstanceAs (Decidable (index = 0))
  | .clean _ | .tighten _ => .isFalse id

instance (a : MclArray α φ) (op : ArrayOp α φ) : Decidable (Overruns a op) :=
  inferInstanceAs (Decidable (a.totalSize = 0 ∧ op.Puts))

namespace MclArray

structure WF (a : MclArray α φ) : Prop where
  alloc : a.allData.length = a.totalSize.toNat
  fits : a.curSize.toNat ≤ a.totalSize.toNat
  small : a.totalSize.toNat < 2 ^ 31
  -- sizes double, and the insert of a first element writes slot 1
  ne_one : a.totalSize.toNat ≠ 1

/-- Only the contents of slots differ. -/
structure SameShape (a a' : MclArray α φ) : Prop where
  length : a'.allData.length = a.allData.length
  curSize : a'.curSize = a.curSize
  totalSize : a'.totalSize = a.totalSize

variable {a a' a'' : MclArray α φ}

theorem SameShape.refl (a : MclArray α φ) : SameShape a a := ⟨rfl, rfl, rfl⟩

theorem SameShape.trans (h : SameShape a a') (h' : SameShape a' a'') : SameShape a a'' :=
  ⟨h'.length.trans h.length, h'.curSize.trans h.curSize, h'.totalSize.trans h.totalSize⟩

theorem SameShape.wf (h : SameShape a a') (hwf : a.WF) : a'.WF := by
  refine ⟨?_, ?_, ?_, ?_⟩
  · rw [h.length, h.totalSize, hwf.alloc]
  · rw [h.curSize, h.totalSize]; exact hwf.fits
  · rw [h.totalSize]; exact hwf.small
  · rw [h.totalSize]; exact hwf.ne_one

theorem write_spec {i : ℤ} (h0 : 0 ≤ i) (hi : i < a.allData.length) (data : Option α) :
    ∃ a', a.write i data = some a' ∧ SameShape a a' :=
  ⟨_, if_pos ⟨h0, hi⟩, List.length_set, rfl, rfl⟩

theorem read_spec {i : ℤ} (h0 : 0 ≤ i) (hi : i < a.allData.length) : ∃ x, a.read i = some x := by
  have hlt : i.toNat < a.allData.length := by omega
  exact ⟨_, (if_pos h0).trans (List.getElem?_eq_getElem hlt)⟩

theorem shiftUp_spec {lo : ℤ} (h0 : 0 ≤ lo) (n : ℕ) (hn : lo + n < a.allData.length) :
    ∃ a', shiftUp lo n a = some a' ∧ SameShape a a' := by
  induction n generalizing a with
  | zero => exact ⟨a, rfl, .refl a⟩
  | succ n ih =>
    obtain ⟨x, hx⟩ := a.read_spec (i := lo + n) (by omega) (by omega)
    obtain ⟨a₁, h₁, s₁⟩ := a.write_spec (i := lo + n + 1) (by omega) (by omega) x
    obtain ⟨a₂, h₂, s₂⟩ := ih (a := a₁) (by rw [s₁.length]; omega)
    exact ⟨a₂, by simp [shiftUp, hx, h₁, h₂], s₁.trans s₂⟩

theorem nullLoop_spec (n : ℕ) {i : ℤ} (h0 : 0 ≤ i) (hi : i + n ≤ a.allData.length) :
    ∃ a', nullLoop n i a = some a' ∧ SameShape a a' := by
  induction n generalizing a i with
  | zero => exact ⟨a, rfl, .refl a⟩
  | succ n ih =>
    obtain ⟨a₁, h₁, s₁⟩ := a.write_spec h0 (by omega) none
    obtain ⟨a₂, h₂, s₂⟩ := ih (a := a₁) (i := i + 1) (by omega) (by rw [s₁.length]; omega)
    exact ⟨a₂, by simp [nullLoop, h₁, h₂], s₁.trans s₂⟩

theorem cleanArrayLoop_spec (freeFn : Option φ) (n : ℕ) {i : ℤ} (h0 : 0 ≤ i)
    (hi : i + n ≤ a.allData.length) :
    ∃ a' freed, cleanArrayLoop freeFn n i a = some (a', freed) ∧ SameShape a a' := by
  induction n generalizing a i with
  | zero => exact ⟨a, [], rfl, .refl a⟩
  | succ n ih =>
    obtain ⟨x, hx⟩ := a.read_spec h0 (by omega)
    obtain ⟨a₁, h₁, s₁⟩ := a.write_spec h0 (by omega) none
    obtain ⟨a₂, freed, h₂, s₂⟩ := ih (a := a₁) (i := i + 1) (by omega) (by rw [s₁.length]; omega)
    exact ⟨a₂, callFree freeFn x ++ freed, by simp [cleanArrayLoop, hx, h₁, h₂], s₁.trans s₂⟩

theorem extendArray_spec (h : a.WF) {n : BitVec 32} (hn : n.toNat < 2 ^ 31) (hne : n.toNat ≠ 1)
    (hgrow : a.totalSize.toNat < n.toNat) (junk : ℕ → Option α) :
    (extendArray (reallocData junk) n a).WF ∧ (extendArray (reallocData junk) n a).curSize = a.curSize ∧
      (extendArray (reallocData junk) n a).totalSize = n := by
  have hule : n.ule a.totalSize = false := by
    rw [BitVec.ule, decide_eq_false_iff_not]
    omega
  have hfits : a.curSize.toNat ≤ n.toNat := by
    have := h.fits
    omega
  simp only [extendArray, hule, Bool.false_eq_true, if_false, and_self, and_true]
  exact ⟨(length_reallocData junk n a.allData).trans (slotsOf_eq hn), hfits, hn, hne⟩

/-- After a growth there is a slot behind the last element, unless there were no slots at all. -/
theorem tryExtendArray_spec (h : a.WF) (hcur : a.curSize.toNat < 2 ^ 30)
    (hpos : a.totalSize.toNat ≠ 0) (junk : ℕ → Option α) :
    ∃ a', tryExtendArray a junk = a' ∧ a'.WF ∧ a'.curSize = a.curSize ∧
      a.curSize.toNat < a'.totalSize.toNat := by
  refine ⟨_, rfl, ?_⟩
  unfold tryExtendArray tryExtendArrayWith
  have hsle := sle_iff_toNat h.small (show a.curSize.toNat < 2 ^ 31 by omega)
  have hfits := h.fits
  by_cases hfull : a.totalSize.toNat ≤ a.curSize.toNat
  · have hdouble := toNat_shiftLeft_one (show a.totalSize.toNat < 2 ^ 30 by omega)
    obtain ⟨hwf, hc, ht⟩ := extendArray_spec h (n := a.totalSize <<< 1) (by omega) (by omega)
      (by omega) junk
    rw [if_pos (hsle.mpr hfull), ht, hdouble]
    exact ⟨hwf, hc, by omega⟩
  · rw [if_neg (fun hc => hfull (hsle.mp hc))]
    exact ⟨h, rfl, by omega⟩

theorem tryExtendArray_of_empty (h0 : a.totalSize = 0) (junk : ℕ → Option α) :
    tryExtendArray a junk = a := by
  unfold tryExtendArray tryExtendArrayWith extendArray
  rw [h0]
  simp

theorem increaseSize_wf (h : a.WF) (hlt : a.curSize.toNat < a.totalSize.toNat) :
    (increaseSize a).WF := by
  have hsmall := h.small
  have hsucc := toNat_add_one (show a.curSize.toNat < 2 ^ 31 by omega)
  refine ⟨h.alloc, ?_, h.small, h.ne_one⟩
  change (a.curSize + 1).toNat ≤ a.totalSize.toNat
  omega

/-- An index that the bounds check lets pass. -/
theorem of_checkOutOfBounds {index : BitVec 32} (h : checkOutOfBounds index a = false) :
    (a.curSize = 0 ∧ index = 0) ∨ index.toNat < a.curSize.toNat := by
  unfold checkOutOfBounds at h
  split at h
  · next h0 =>
    rw [Bool.or_eq_false_iff, h0] at h
    have hule : ¬ (0 : BitVec 32).toNat < index.toNat := by
      simpa [BitVec.ult] using h.2
    refine .inl ⟨h0, BitVec.eq_of_toNat_eq ?_⟩
    rw [show (0 : BitVec 32).toNat = 0 from rfl] at hule ⊢
    omega
  · rw [Bool.or_eq_false_iff] at h
    have hle : ¬ a.curSize.toNat ≤ index.toNat := by simpa [BitVec.ule] using h.2
    exact .inr (by omega)

theorem totalSize_ne_zero (h : a.WF) {index : BitVec 32} (hin : checkOutOfBounds index a = false)
    (hpos : a.totalSize = 0 → index ≠ 0) : a.totalSize.toNat ≠ 0 := by
  intro h0
  have hfits := h.fits
  rcases of_checkOutOfBounds hin with ⟨-, hi⟩ | hi
  · exact hpos (BitVec.eq_of_toNat_eq h0) hi
  · omega

/-- Making room, storing and counting, in an array with a free slot. -/
theorem shift_write_spec (h : a.WF) (hlt : a.curSize.toNat < a.totalSize.toNat) {j i : ℤ} {n : ℕ}
    (hj : 0 ≤ j) (hn : j + n < a.totalSize.toNat) (hi0 : 0 ≤ i) (hi : i < a.totalSize.toNat)
    (data : Option α) :
    ∃ a₁ a₂, shiftUp j n a = some a₁ ∧ a₁.write i data = some a₂ ∧ (increaseSize a₂).WF := by
  have halloc := h.alloc
  obtain ⟨a₁, h₁, s₁⟩ := a.shiftUp_spec hj n (by omega)
  obtain ⟨a₂, h₂, s₂⟩ := a₁.write_spec hi0 (by rw [s₁.length]; omega) data
  have s := s₁.trans s₂
  exact ⟨a₁, a₂, h₁, h₂, increaseSize_wf (s.wf h) (by rw [s.curSize, s.totalSize]; exact hlt)⟩

theorem mclArrayAppend_spec (h : a.WF) (hcur : a.curSize.toNat < 2 ^ 30)
    (hpos : a.totalSize.toNat ≠ 0) (data : Option α) (junk : ℕ → Option α) :
    ∃ r a', mclArrayAppend data a junk = some (r, a') ∧ a'.WF := by
  obtain ⟨b, hb, hwf, hc, hlt⟩ := tryExtendArray_spec h hcur hpos junk
  have hint := toInt_eq_toNat (show a.curSize.toNat < 2 ^ 31 by omega)
  obtain ⟨b₁, b₂, h₁, h₂, hwf'⟩ := shift_write_spec (j := 0) (i := a.curSize.toInt) (n := 0) hwf
    (by rw [hc]; exact hlt) (by omega) (by omega) (by omega) (by omega) data
  obtain rfl := Option.some.inj h₁
  exact ⟨_, _, by simp only [mclArrayAppend, hb, h₂]; rfl, hwf'⟩

theorem mclArrayPreappend_spec (h : a.WF) (hcur : a.curSize.toNat < 2 ^ 30)
    (hpos : a.totalSize.toNat ≠ 0) (data : Option α) (junk : ℕ → Option α) :
    ∃ r a', mclArrayPreappend data a junk = some (r, a') ∧ a'.WF := by
  obtain ⟨b, hb, hwf, hc, hlt⟩ := tryExtendArray_spec h hcur hpos junk
  have hint := toInt_eq_toNat (show a.curSize.toNat < 2 ^ 31 by omega)
  have hi : (if a.curSize.toInt > 0 then 0 else a.curSize.toInt) = 0 := by omega
  obtain ⟨b₁, b₂, h₁, h₂, hwf'⟩ := shift_write_spec (j := 0) (i := 0) (n := a.curSize.toInt.toNat) hwf
    (by rw [hc]; exact hlt) (by omega) (by omega) (by omega) (by omega) data
  exact ⟨_, _, by simp only [mclArrayPreappend, hb, hi, h₁, h₂, Option.bind_eq_bind,
    Option.bind_some]; rfl, hwf'⟩

theorem mclArrayInsert_spec (h : a.WF) (hcur : a.curSize.toNat < 2 ^ 30) {index : BitVec 32}
    (hpos : a.totalSize = 0 → index ≠ 0) (data : Option α) (junk : ℕ → Option α) :
    ∃ r a', mclArrayInsert data index a junk = some (r, a') ∧ a'.WF := by
  unfold mclArrayInsert
  cases hout : checkOutOfBounds index a with
  | true => exact ⟨-1, a, rfl, h⟩
  | false =>
    have hpos' := totalSize_ne_zero h hout hpos
    obtain ⟨b, hb, hwf, hc, hlt⟩ := tryExtendArray_spec h hcur hpos' junk
    have hone := hwf.ne_one
    rcases of_checkOutOfBounds hout with ⟨h0, rfl⟩ | hi
    · -- the first element goes to slot 1
      have hlast : ¬ (0 : BitVec 32) = a.curSize - 1 := by
        rw [h0]
        decide
      obtain ⟨b₁, b₂, h₁, h₂, hwf'⟩ := shift_write_spec (j := 1) (i := 1) (n := 0) hwf
        (by rw [hc]; exact hlt) (by omega) (by omega) (by omega) (by omega) data
      refine ⟨1, increaseSize b₂, ?_, hwf'⟩
      rw [if_neg Bool.false_ne_true, if_neg hlast]
      simp only [hb, hc]
      rw [h0]
      change (shiftUp 1 0 b).bind _ = _
      rw [h₁, Option.bind_some]
      change (b₁.write 1 data).bind _ = _
      rw [h₂]
      rfl
    · by_cases hlast : index = a.curSize - 1
      · simp only [Bool.false_eq_true, if_false, hlast, if_true]
        exact mclArrayAppend_spec h hcur hpos' data junk
      · have hindex := toInt_eq_toNat (show index.toNat < 2 ^ 31 by omega)
        have hpred := toNat_sub_one (n := a.curSize) (by omega)
        have hpredInt := toInt_eq_toNat (show (a.curSize - 1).toNat < 2 ^ 31 by omega)
        have hsucc := toNat_add_one (show index.toNat < 2 ^ 31 by omega)
        have hsuccInt := toInt_eq_toNat (show (index + 1).toNat < 2 ^ 31 by omega)
        have hbefore : index.toNat ≠ a.curSize.toNat - 1 := fun hc =>
          hlast (BitVec.eq_of_toNat_eq (by omega))
        obtain ⟨b₁, b₂, h₁, h₂, hwf'⟩ := shift_write_spec (j := index.toInt + 1)
          (i := (index + 1).toInt) (n := ((a.curSize - 1).toInt - index.toInt).toNat) hwf
          (by rw [hc]; exact hlt) (by omega) (by omega) (by omega) (by omega) data
        refine ⟨(index + 1).toInt, increaseSize b₂, ?_, hwf'⟩
        simp only [Bool.false_eq_true, if_false, hlast, hb, hc, h₁, h₂, Option.bind_eq_bind,
          Option.bind_some]

theorem mclArrayPreinsert_spec (h : a.WF) (hcur : a.curSize.toNat < 2 ^ 30) {index : BitVec 32}
    (hpos : a.totalSize = 0 → index ≠ 0) (data : Option α) (junk : ℕ → Option α) :
    ∃ r a', mclArrayPreinsert data index a junk = some (r, a') ∧ a'.WF := by
  unfold mclArrayPreinsert
  cases hout : checkOutOfBounds index a with
  | true => exact ⟨-1, a, rfl, h⟩
  | false =>
    have hpos' := totalSize_ne_zero h hout hpos
    by_cases hzero : index = 0
    · simp only [Bool.false_eq_true, if_false, hzero, if_true]
      exact mclArrayPreappend_spec h hcur hpos' data junk
    · obtain ⟨b, hb, hwf, hc, hlt⟩ := tryExtendArray_spec h hcur hpos' junk
      have hi : index.toNat < a.curSize.toNat :=
        (of_checkOutOfBounds hout).resolve_left fun hc => hzero hc.2
      have hindex := toInt_eq_toNat (show index.toNat < 2 ^ 31 by omega)
      have hpred := toNat_sub_one (n := a.curSize) (by omega)
      have hpredInt := toInt_eq_toNat (show (a.curSize - 1).toNat < 2 ^ 31 by omega)
      obtain ⟨b₁, b₂, h₁, h₂, hwf'⟩ := shift_write_spec (j := index.toInt)
        (i := index.toInt) (n := ((a.curSize - 1).toInt + 1 - index.toInt).toNat) hwf
        (by rw [hc]; exact hlt) (by omega) (by omega) (by omega) (by omega) data
      refine ⟨index.toInt, increaseSize b₂, ?_, hwf'⟩
      simp only [Bool.false_eq_true, if_false, hzero, hb, hc, h₁, h₂, Option.bind_eq_bind,
        Option.bind_some]

theorem mclArrayClean_spec (h : a.WF) (hcur : a.curSize.toNat < 2 ^ 30) (freeFn : Option φ) :
    ∃ a' freed, mclArrayClean a freeFn = some (a', freed) ∧ a'.WF := by
  have hint := toInt_eq_toNat (show a.curSize.toNat < 2 ^ 31 by omega)
  have halloc := h.alloc
  have hfits := h.fits
  obtain ⟨b, freed, hb, hs⟩ := cleanArrayLoop_spec (a := a) freeFn a.curSize.toInt.toNat
    (i := 0) (by omega) (by omega)
  have hwf := hs.wf h
  exact ⟨{ b with curSize := 0 }, freed, by simp [mclArrayClean, hb],
    hwf.alloc, Nat.zero_le _, hwf.small, hwf.ne_one⟩

theorem mclArrayTighten_wf (h : a.WF) (hcur : a.curSize.toNat < 2 ^ 30) (junk : ℕ → Option α) :
    (mclArrayTighten a junk).WF := by
  have hdouble := toNat_shiftLeft_one hcur
  unfold mclArrayTighten
  by_cases hle : a.totalSize.sle (a.curSize <<< 1) = true
  · rwa [if_pos hle]
  · rw [if_neg hle]
    have hsmall : (a.curSize <<< 1).toNat < 2 ^ 31 := by omega
    have hfits : a.curSize.toNat ≤ (a.curSize <<< 1).toNat := by omega
    have hne : (a.curSize <<< 1).toNat ≠ 1 := by omega
    exact ⟨(length_reallocData junk _ a.allData).trans (slotsOf_eq hsmall), hfits, hsmall, hne⟩

/-- A new array has at least the slots it was asked for. -/
theorem mclArrayNew_spec {initSize : BitVec 32} (hsize : initSize.toInt < 2 ^ 30)
    (junk : ℕ → Option α) (eraseJunk : Option φ) :
    ∃ r, mclArrayNew initSize junk eraseJunk = some r ∧ ∀ a, r = some a → a.WF := by
  unfold mclArrayNew mclArrayNewWith
  cases hneg : initSize.slt 0 with
  | true => exact ⟨none, rfl, by simp⟩
  | false =>
    simp only [Bool.false_eq_true, if_false]
    generalize hcap : newCapacity initSize = capacity
    have hbound : capacity.toNat < 2 ^ 31 ∧ capacity.toNat ≠ 1 := by
      have h0 : 0 ≤ initSize.toInt := by simpa [BitVec.slt] using hneg
      have hnat : initSize.toNat < 2 ^ 30 := by
        rw [BitVec.toInt_eq_toNat_cond] at h0 hsize
        split at h0 <;> omega
      have hdouble := toNat_shiftLeft_one hnat
      subst hcap
      unfold newCapacity
      split
      · omega
      · decide
    have hlen : (mallocData junk (sizeofSlots capacity)).length = capacity.toNat := by
      rw [length_mallocData, slotsOf_eq hbound.1]
    have hint := toInt_eq_toNat hbound.1
    obtain ⟨b, hb, hs⟩ := nullLoop_spec (a := ⟨mallocData junk (sizeofSlots capacity), 0, 0, eraseJunk⟩)
      capacity.toInt.toNat (i := 0) (by omega) (by rw [hlen]; omega)
    refine ⟨some { b with curSize := 0, totalSize := capacity }, by simp only [hb, Option.bind_eq_bind, Option.bind_some], ?_⟩
    rintro a ⟨⟩
    exact ⟨hs.length.trans hlen, Nat.zero_le _, hbound.1, hbound.2⟩

/-! Steps and runs. -/

theorem write_of_no_slots (h : a.allData = []) (i : ℤ) (data : Option α) : a.write i data = none := by
  apply if_neg
  rw [h, List.length_nil]
  omega

theorem WF.of_no_slots (h : a.WF) (h0 : a.totalSize = 0) : a.allData = [] ∧ a.curSize = 0 := by
  have halloc := h.alloc
  have hfits := h.fits
  rw [h0] at halloc hfits
  exact ⟨List.length_eq_zero_iff.mp halloc, BitVec.eq_of_toNat_eq (Nat.le_zero.mp hfits)⟩

/-- Without any slot the element is written outside the block: doubling 0 gives no slot. -/
theorem execArray_overrun (h : a.WF) {op : ArrayOp α φ} (ho : Overruns a op) :
    execArray a op = none := by
  obtain ⟨h0, hputs⟩ := ho
  obtain ⟨hdata, hcur⟩ := h.of_no_slots h0
  have hwrite := a.write_of_no_slots hdata
  have hout : checkOutOfBounds 0 a = false := by
    unfold checkOutOfBounds
    rw [hcur]
    decide
  have happend : ∀ data junk, mclArrayAppend data a junk = none := by
    intro data junk
    simp [mclArrayAppend, tryExtendArray_of_empty h0, hwrite]
  have hpreappend : ∀ data junk, mclArrayPreappend data a junk = none := by
    intro data junk
    have hint : a.curSize.toInt.toNat = 0 := by rw [hcur]; rfl
    simp [mclArrayPreappend, tryExtendArray_of_empty h0, hint, shiftUp, hwrite]
  cases op with
  | append data junk => simp [execArray, happend]
  | preappend data junk => simp [execArray, hpreappend]
  | insert data index junk =>
    obtain rfl : index = 0 := hputs
    have hlast : ¬ (0 : BitVec 32) = a.curSize - 1 := by
      rw [hcur]
      decide
    have hcount : ((a.curSize - 1).toInt - (0 : BitVec 32).toInt).toNat = 0 := by
      rw [hcur]
      decide
    rw [execArray, Option.map_eq_none_iff, mclArrayInsert, hout, if_neg Bool.false_ne_true, if_neg hlast]
    simp only [tryExtendArray_of_empty h0, hcount, shiftUp, hwrite, Option.bind_eq_bind,
      Option.bind_some, Option.bind_none]
  | preinsert data index junk =>
    obtain rfl : index = 0 := hputs
    rw [execArray, Option.map_eq_none_iff, mclArrayPreinsert, hout, if_neg Bool.false_ne_true,
      if_pos rfl]
    exact hpreappend data junk
  | clean freeFn => exact hputs.elim
  | tighten junk => exact hputs.elim

theorem execArray_spec (h : a.WF) (hcur : a.curSize.toNat < 2 ^ 30) {op : ArrayOp α φ}
    (ho : ¬ Overruns a op) : ∃ ans a', execArray a op = some (ans, a') ∧ a'.WF := by
  have hpos : op.Puts → a.totalSize.toNat ≠ 0 := fun hp h0 => ho ⟨BitVec.eq_of_toNat_eq h0, hp⟩
  have hzero : ∀ index : BitVec 32, (index = 0 → op.Puts) → a.totalSize = 0 → index ≠ 0 :=
    fun index hp h0 hi => ho ⟨h0, hp hi⟩
  cases op with
  | append data junk =>
    obtain ⟨r, a', ha, hwf⟩ := mclArrayAppend_spec h hcur (hpos trivial) data junk
    exact ⟨(r, []), a', by simp [execArray, ha], hwf⟩
  | preappend data junk =>
    obtain ⟨r, a', ha, hwf⟩ := mclArrayPreappend_spec h hcur (hpos trivial) data junk
    exact ⟨(r, []), a', by simp [execArray, ha], hwf⟩
  | insert data index junk =>
    obtain ⟨r, a', ha, hwf⟩ := mclArrayInsert_spec h hcur (hzero index id) data junk
    exact ⟨(r, []), a', by simp [execArray, ha], hwf⟩
  | preinsert data index junk =>
    obtain ⟨r, a', ha, hwf⟩ := mclArrayPreinsert_spec h hcur (hzero index id) data junk
    exact ⟨(r, []), a', by simp [execArray, ha], hwf⟩
  | clean freeFn =>
    obtain ⟨a', freed, ha, hwf⟩ := mclArrayClean_spec h hcur freeFn
    exact ⟨(0, freed), a', by simp [execArray, ha], hwf⟩
  | tighten junk => exact ⟨_, _, rfl, mclArrayTighten_wf h hcur junk⟩

end MclArray

/-- A tightened empty array has no slot, and an append does not get it one. -/
theorem mclArray_overrun :
    ∃ a : MclArray Unit Unit, mclArrayNew 0 (fun _ => none) none = some (some a) ∧
      ((arrayMachine a).run [.tighten fun _ => none]).isSome ∧
      (arrayMachine a).run [.tighten fun _ => none, .append (some ()) fun _ => none] = none :=
  ⟨_, rfl, rfl, rfl⟩

/-- A run keeps its sizes in order and its accesses inside the block, up to a first element
put into an array without slots. -/
theorem mclArray_safe {initSize : BitVec 32} (hsize : initSize.toInt < 2 ^ 30)
    (junk : ℕ → Option α) (eraseJunk : Option φ) :
    mclArrayNew initSize junk eraseJunk ≠ none ∧
      ∀ a, mclArrayNew initSize junk eraseJunk = some (some a) →
        ∀ hist s, (arrayMachine a).Reach
            (fun s op => s.curSize.toNat < 2 ^ 30 ∧ ¬ Overruns s op) hist s →
          s.curSize.toNat ≤ s.totalSize.toNat ∧ s.allData.length = s.totalSize.toNat ∧
            (s.curSize.toNat < 2 ^ 30 →
              ∀ op, (execArray s op).isSome ↔ ¬ Overruns s op) := by
  obtain ⟨r, hr, hwf⟩ := MclArray.mclArrayNew_spec hsize junk eraseJunk
  refine ⟨by simp [hr], fun a ha hist s hreach => ?_⟩
  have hs : s.WF := by
    refine hreach.invariant (hwf a ?_) ?_
    · exact Option.some.inj (hr.symm.trans ha)
    · rintro s op ans s' hs ⟨hcur, hok⟩ hstep
      obtain ⟨ans', a', hexec, hwf'⟩ := MclArray.execArray_spec hs hcur hok
      obtain ⟨-, rfl⟩ := Prod.mk.inj (Option.some.inj (hexec.symm.trans hstep))
      exact hwf'
  refine ⟨hs.fits, hs.alloc, fun hcur op => ⟨fun hsome ho => ?_, fun ho => ?_⟩⟩
  · rw [MclArray.execArray_overrun hs ho] at hsome
    exact Bool.false_ne_true hsome
  · obtain ⟨ans, a', hexec, -⟩ := MclArray.execArray_spec hs hcur ho
    rw [hexec]
    rfl

/-- Elements in front, behind and in between, a block given back and another one asked for. -/
def someOps : List (ArrayOp ℕ ℕ) :=
  [.append (some 7) fun _ => none, .preappend (some 8) fun _ => none, .insert (some 9) 0 fun _ => none,
    .tighten fun _ => none, .preinsert none 1 fun _ => none, .append (some 5) fun _ => none,
    .append (some 6) fun _ => none, .append (some 4) fun _ => some 1]

theorem mclArray_safe_someOps : ∃ a : MclArray ℕ ℕ, mclArrayNew 0 (fun _ => some 1) none = some (some a) ∧
    ∃ hist s, (arrayMachine a).run someOps = some (hist, s) ∧ s.curSize = 7 ∧ s.totalSize = 12 ∧
      s.allData.length = s.totalSize.toNat ∧ (execArray s (.append (some 3) fun _ => none)).isSome := by
  let a : MclArray ℕ ℕ := ⟨List.replicate 64 none, 0, 64, none⟩
  have hnew : mclArrayNew 0 (fun _ => some 1) none = some (some a) := rfl
  obtain ⟨hist, s, hrun, hcur, htotal⟩ := ((arrayMachine a).restrict fun s op =>
    decide (s.curSize.toNat < 2 ^ 30 ∧ ¬ Overruns s op)).exists_of_run someOps
      (fun r => r.2.curSize = 7 ∧ r.2.totalSize = 12) (by decide +kernel)
  have hreach : (arrayMachine a).Reach (fun s op => s.curSize.toNat < 2 ^ 30 ∧ ¬ Overruns s op) hist s :=
    (Machine.reach_of_run hrun).of_restrict.mono fun _ _ hok => of_decide_eq_true hok
  obtain ⟨-, hsafe⟩ := mclArray_safe (show (0 : BitVec 32).toInt < 2 ^ 30 by decide) (fun _ => some 1) (none : Option ℕ)
  obtain ⟨-, halloc, hnext⟩ := hsafe a hnew hist s hreach
  have hops := Machine.runFrom_history hrun
  refine ⟨a, hnew, hist, s, ?_, hcur, htotal, halloc, (hnext (by rw [hcur]; decide) _).mpr fun ho => ?_⟩
  · rw [← hops]
    exact hreach.run
  · exact absurd (htotal.symm.trans ho.1) (by decide)

end Mcl
