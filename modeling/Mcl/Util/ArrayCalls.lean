import Mcl.Util.ArrayDelete

/-! Every call of `mcl_array.h` on one array. -/
namespace Mcl
open Mcl.Library

variable {α φ : Type}

/-- A call. Any iterator value may be passed to an erase. -/
inductive ArrayCall (α φ : Type) where
  | append (data : Option α)
  | preappend (data : Option α)
  | insert (data : Option α) (index : BitVec 32)
  | preinsert (data : Option α) (index : BitVec 32)
  | deleteIndx (index : BitVec 32) (freeFn : Option φ)
  | delete (index : BitVec 32) (freeFn : Option φ)
  | deleteObj (data : Option α) (freeFn : Option φ)
  | deleteRange (bindex eindex : BitVec 32) (freeFn : Option φ)
  | clean (freeFn : Option φ)
  | tighten
  | at (index : BitVec 32)
  | size
  | ctrl (cmd : DsCtrlCmd) (data : Option φ)
  | iterErase (iter : ArrayIter α)

/-- What a call returns and writes, and the destructor calls it makes. An erase returns its
iterator or NULL, here 1 or 0. -/
structure ArrayAnswer (α φ : Type) where
  ret : ℤ
  data : Option α
  iter : Option (ArrayIter α)
  freed : Freed φ α

def retAnswer (r : ℤ × MclArray α φ) : ArrayAnswer α φ × MclArray α φ :=
  (⟨r.1, none, none, []⟩, r.2)

def deleteAnswer (r : ℤ × MclArray α φ × Freed φ α) : ArrayAnswer α φ × MclArray α φ :=
  (⟨r.1, none, none, r.2.2⟩, r.2.1)

/-- `junk` is what the memory that the call may allocate holds. -/
def callArray [DecidableEq α] (a : MclArray α φ) (junk : ℕ → Option α) :
    ArrayCall α φ → Option (ArrayAnswer α φ × MclArray α φ)
  | .append data => (mclArrayAppend data a junk).map retAnswer
  | .preappend data => (mclArrayPreappend data a junk).map retAnswer
  | .insert data index => (mclArrayInsert data index a junk).map retAnswer
  | .preinsert data index => (mclArrayPreinsert data index a junk).map retAnswer
  | .deleteIndx index freeFn => (mclArrayDeleteIndx index a freeFn).map deleteAnswer
  | .delete index freeFn => (mclArrayDelete index a freeFn).map deleteAnswer
  | .deleteObj data freeFn => (mclArrayDeleteObj data a freeFn).map deleteAnswer
  | .deleteRange bindex eindex freeFn => (mclArrayDeleteRange bindex eindex a freeFn).map deleteAnswer
  | .clean freeFn => (mclArrayClean a freeFn).map fun (a, freed) => (⟨0, none, none, freed⟩, a)
  | .tighten => some (⟨0, none, none, []⟩, mclArrayTighten a junk)
  | .at index => (mclArrayAt index a).map fun data => (⟨0, data, none, []⟩, a)
  | .size => some (retAnswer (mclArraySize a, a))
  | .ctrl cmd data => some (retAnswer (mclArrayCtrl cmd data a))
  | .iterErase iter => (defIterErase iter a).map fun (ret, iter, a, freed) =>
      (⟨if ret.isSome then 1 else 0, none, some iter, freed⟩, a)

def callMachine [DecidableEq α] (a : MclArray α φ) :
    Machine (MclArray α φ) (ArrayCall α φ × (ℕ → Option α)) (ArrayAnswer α φ) :=
  ⟨a, fun a c => callArray a c.2 c.1⟩

namespace MclArray

variable {a a' : MclArray α φ} {junk : ℕ → Option α} {index : BitVec 32} {freeFn : Option φ}

/-- Only contents of slots differ. -/
def Rewrites (a a' : MclArray α φ) : Prop :=
  ∃ d, a' = { a with allData := d } ∧ d.length = a.allData.length

theorem Rewrites.refl (a : MclArray α φ) : Rewrites a a := ⟨a.allData, rfl, rfl⟩

theorem Rewrites.trans {a'' : MclArray α φ} (h : Rewrites a a') (h' : Rewrites a' a'') : Rewrites a a'' := by
  obtain ⟨d, rfl, hd⟩ := h
  obtain ⟨d', rfl, hd'⟩ := h'
  exact ⟨d', rfl, hd'.trans hd⟩

theorem Rewrites.curSize (h : Rewrites a a') : a'.curSize = a.curSize := by
  obtain ⟨d, rfl, -⟩ := h
  rfl

theorem Rewrites.length (h : Rewrites a a') : a'.allData.length = a.allData.length := by
  obtain ⟨d, rfl, hd⟩ := h
  exact hd

theorem Rewrites.eraseFn (h : Rewrites a a') : a'.eraseFn = a.eraseFn := by
  obtain ⟨d, rfl, -⟩ := h
  rfl

theorem write_some {i : ℤ} {data : Option α} (h : a.write i data = some a') :
    0 ≤ i ∧ i < a.allData.length ∧ Rewrites a a' := by
  unfold write at h
  split at h
  · next hin =>
    obtain rfl := Option.some.inj h
    exact ⟨hin.1, hin.2, _, rfl, List.length_set⟩
  · exact absurd h (by simp)

theorem shiftUp_some {lo : ℤ} {n : ℕ} (h : shiftUp lo n a = some a') :
    Rewrites a a' ∧ (0 < n → lo + n < a.allData.length) := by
  induction n generalizing a with
  | zero =>
    obtain rfl := Option.some.inj h
    exact ⟨.refl _, fun hn => absurd hn (Nat.lt_irrefl _)⟩
  | succ n ih =>
    simp only [shiftUp, Option.bind_eq_bind, Option.bind_eq_some_iff] at h
    obtain ⟨x, -, a₁, hwrite, hrest⟩ := h
    obtain ⟨-, hlt, hrew⟩ := write_some hwrite
    exact ⟨hrew.trans (ih hrest).1, fun _ => by push_cast; omega⟩

theorem shiftUp_write_some {lo i : ℤ} {n : ℕ} {data : Option α} {b b' : MclArray α φ}
    (hshift : shiftUp lo n a = some b) (hwrite : b.write i data = some b') :
    Rewrites a b' ∧ (0 < n → lo + n < a.allData.length) ∧ 0 ≤ i ∧ i < a.allData.length := by
  obtain ⟨hrew, hlt⟩ := shiftUp_some hshift
  obtain ⟨h0, hlt', hrew'⟩ := write_some hwrite
  rw [hrew.length] at hlt'
  exact ⟨hrew.trans hrew', hlt, h0, hlt'⟩

/-! No call makes the size pass the slots. -/

theorem tryExtendArray_small (h : a.allData.length < 2 ^ 31) (junk : ℕ → Option α) :
    (tryExtendArray a junk).curSize = a.curSize ∧ (tryExtendArray a junk).allData.length < 2 ^ 31 := by
  have hgrow : ∀ n : BitVec 32, (reallocData junk (sizeofSlots n) a.allData).length < 2 ^ 31 := by
    intro n
    rw [length_reallocData]
    exact slotsOf_lt n
  unfold tryExtendArray tryExtendArrayWith extendArray
  split
  · split
    · exact ⟨rfl, h⟩
    · exact ⟨rfl, hgrow _⟩
  · exact ⟨rfl, h⟩

theorem increaseSize_inSlots (hr : Rewrites a a') (hsmall : a.allData.length < 2 ^ 31)
    (hlt : a.curSize.toNat < a.allData.length) : (increaseSize a').InSlots := by
  have hlen := hr.length
  constructor
  · change (a'.curSize + 1).toNat ≤ a'.allData.length
    rw [hr.curSize, toNat_add_one (by omega)]
    omega
  · change a'.allData.length < 2 ^ 31
    omega

theorem append_inSlots (h : a.InSlots) {data : Option α} {r : ℤ × MclArray α φ}
    (ha : mclArrayAppend data a junk = some r) : r.2.InSlots := by
  obtain ⟨hc, hsmall⟩ := tryExtendArray_small h.small junk
  simp only [mclArrayAppend, Option.bind_eq_bind, Option.bind_eq_some_iff, Option.some.injEq] at ha
  obtain ⟨b, hwrite, rfl⟩ := ha
  obtain ⟨h0, hlt, hrew⟩ := write_some hwrite
  have hint := toNat_of_nonneg h0
  exact increaseSize_inSlots hrew hsmall (by rw [hc]; omega)

theorem preappend_inSlots (h : a.InSlots) {data : Option α} {r : ℤ × MclArray α φ}
    (ha : mclArrayPreappend data a junk = some r) : r.2.InSlots := by
  obtain ⟨hc, hsmall⟩ := tryExtendArray_small h.small junk
  simp only [mclArrayPreappend, Option.bind_eq_bind, Option.bind_eq_some_iff, Option.some.injEq] at ha
  obtain ⟨b, hshift, b', hwrite, rfl⟩ := ha
  obtain ⟨hrew, hlt, h0, hlt'⟩ := shiftUp_write_some hshift hwrite
  have hfits := h.fits
  have hint := toInt_eq_toNat (show a.curSize.toNat < 2 ^ 31 by have := h.small; omega)
  refine increaseSize_inSlots hrew hsmall ?_
  rw [hc]
  by_cases hpos : 0 < a.curSize.toInt
  · have := hlt (by omega)
    omega
  · rw [if_neg hpos] at hlt'
    omega

theorem insert_inSlots (h : a.InSlots) {data : Option α} {r : ℤ × MclArray α φ}
    (ha : mclArrayInsert data index a junk = some r) : r.2.InSlots := by
  obtain ⟨hc, hsmall⟩ := tryExtendArray_small h.small junk
  have hfits := h.fits
  have hlen := h.small
  unfold mclArrayInsert at ha
  split at ha
  · obtain rfl := Option.some.inj ha
    exact h
  · next hout =>
    rw [Bool.not_eq_true] at hout
    split at ha
    · exact append_inSlots h ha
    · next hlast =>
      simp only [Option.bind_eq_bind, Option.bind_eq_some_iff, Option.some.injEq] at ha
      obtain ⟨b, hshift, b', hwrite, rfl⟩ := ha
      obtain ⟨hrew, hlt, h0, hlt'⟩ := shiftUp_write_some hshift hwrite
      refine increaseSize_inSlots hrew hsmall ?_
      rw [hc] at hlt ⊢
      rcases of_checkOutOfBounds hout with ⟨hzero, -⟩ | hi
      · rw [hzero]
        change 0 < _
        omega
      · have hindex := toInt_eq_toNat (show index.toNat < 2 ^ 31 by omega)
        have hpred := toNat_sub_one (n := a.curSize) (by omega)
        have hpredInt := toInt_eq_toNat (show (a.curSize - 1).toNat < 2 ^ 31 by omega)
        have hne : index.toNat ≠ a.curSize.toNat - 1 := fun hc =>
          hlast (BitVec.eq_of_toNat_eq (by omega))
        have := hlt (by omega)
        omega

theorem preinsert_inSlots (h : a.InSlots) {data : Option α} {r : ℤ × MclArray α φ}
    (ha : mclArrayPreinsert data index a junk = some r) : r.2.InSlots := by
  obtain ⟨hc, hsmall⟩ := tryExtendArray_small h.small junk
  have hfits := h.fits
  have hlen := h.small
  unfold mclArrayPreinsert at ha
  split at ha
  · obtain rfl := Option.some.inj ha
    exact h
  · next hout =>
    rw [Bool.not_eq_true] at hout
    split at ha
    · exact preappend_inSlots h ha
    · next hzero =>
      simp only [Option.bind_eq_bind, Option.bind_eq_some_iff, Option.some.injEq] at ha
      obtain ⟨b, hshift, b', hwrite, rfl⟩ := ha
      obtain ⟨hrew, hlt, h0, hlt'⟩ := shiftUp_write_some hshift hwrite
      refine increaseSize_inSlots hrew hsmall ?_
      rw [hc] at hlt ⊢
      have hi := (of_checkOutOfBounds hout).resolve_left fun hc => hzero hc.2
      have hindex := toInt_eq_toNat (show index.toNat < 2 ^ 31 by omega)
      have hpred := toNat_sub_one (n := a.curSize) (by omega)
      have hpredInt := toInt_eq_toNat (show (a.curSize - 1).toNat < 2 ^ 31 by omega)
      have := hlt (by omega)
      omega

theorem shrunk_inSlots (h : a.InSlots) {d : List (Option α)} {c : BitVec 32}
    (hd : d.length = a.allData.length) (hc : c.toNat ≤ a.curSize.toNat) :
    MclArray.InSlots { a with allData := d, curSize := c } := by
  constructor
  · change c.toNat ≤ d.length
    rw [hd]
    exact Nat.le_trans hc h.fits
  · change d.length < 2 ^ 31
    rw [hd]
    exact h.small

theorem deleteIndx_inSlots (h : a.InSlots) {r : ℤ × MclArray α φ × Freed φ α}
    (ha : mclArrayDeleteIndx index a freeFn = some r) : r.2.1.InSlots := by
  cases hout : checkOutOfBounds index a with
  | true =>
    rw [mclArrayDeleteIndx, hout, if_pos rfl] at ha
    obtain rfl := Option.some.inj ha
    exact h
  | false =>
    rcases of_checkOutOfBounds hout with ⟨h0, rfl⟩ | hi
    · rw [mclArrayDeleteIndx_empty h h0] at ha
      exact absurd ha (by simp)
    · obtain ⟨d, hd, hlen, -⟩ := mclArrayDeleteIndx_eq h hi freeFn
      rw [hd] at ha
      obtain rfl := Option.some.inj ha
      have hpred := toNat_sub_one (n := a.curSize) (by omega)
      exact shrunk_inSlots h hlen (by omega)

theorem delete_inSlots (h : a.InSlots) {r : ℤ × MclArray α φ × Freed φ α}
    (ha : mclArrayDelete index a freeFn = some r) : r.2.1.InSlots := by
  cases hout : checkOutOfBounds index a with
  | true =>
    rw [mclArrayDelete, hout, if_pos rfl] at ha
    obtain rfl := Option.some.inj ha
    exact h
  | false =>
    rcases of_checkOutOfBounds hout with ⟨h0, rfl⟩ | hi
    · rw [mclArrayDelete_empty h h0] at ha
      exact absurd ha (by simp)
    · obtain ⟨d, hd, hlen, -⟩ := mclArrayDelete_eq h hi freeFn
      rw [hd] at ha
      obtain rfl := Option.some.inj ha
      have hpred := toNat_sub_one (n := a.curSize) (by omega)
      exact shrunk_inSlots h hlen (by omega)

theorem freeRange_some {n : ℕ} {i : BitVec 32} {r : MclArray α φ × Freed φ α}
    (h : freeRange freeFn n i a = some r) : Rewrites a r.1 := by
  induction n generalizing a i r with
  | zero =>
    obtain rfl := Option.some.inj h
    exact .refl _
  | succ n ih =>
    simp only [freeRange, Option.bind_eq_bind, Option.bind_eq_some_iff, Option.some.injEq] at h
    obtain ⟨freed, -, b, hb, r', hrest, rfl⟩ := h
    refine Rewrites.trans ?_ (ih (r := r') hrest)
    split at hb
    · obtain rfl := Option.some.inj hb
      exact .refl _
    · exact (write_some hb).2.2

theorem moveRange_some {cnt : BitVec 32} {n : ℕ} {i : BitVec 32} (h : moveRange cnt n i a = some a') :
    Rewrites a a' := by
  induction n generalizing a i with
  | zero =>
    obtain rfl := Option.some.inj h
    exact .refl _
  | succ n ih =>
    simp only [moveRange, Option.bind_eq_bind, Option.bind_eq_some_iff] at h
    obtain ⟨x, -, b, hb, b', hb', hrest⟩ := h
    exact ((write_some hb).2.2.trans (write_some hb').2.2).trans (ih hrest)

theorem cleanArrayLoop_some {n : ℕ} {i : ℤ} {r : MclArray α φ × Freed φ α}
    (h : cleanArrayLoop freeFn n i a = some r) : Rewrites a r.1 := by
  induction n generalizing a i r with
  | zero =>
    obtain rfl := Option.some.inj h
    exact .refl _
  | succ n ih =>
    simp only [cleanArrayLoop, Option.bind_eq_bind, Option.bind_eq_some_iff, Option.some.injEq] at h
    obtain ⟨x, -, b, hb, r', hrest, rfl⟩ := h
    exact (write_some hb).2.2.trans (ih (r := r') hrest)

theorem deleteRange_inSlots (h : a.InSlots) {bindex eindex : BitVec 32} {r : ℤ × MclArray α φ × Freed φ α}
    (ha : mclArrayDeleteRange bindex eindex a freeFn = some r) : r.2.1.InSlots := by
  have hfits := h.fits
  have hsmall := h.small
  unfold mclArrayDeleteRange at ha
  dsimp only at ha
  split at ha
  · obtain rfl := Option.some.inj ha
    exact h
  next hout =>
  rw [Bool.or_eq_true, not_or, Bool.not_eq_true, Bool.not_eq_true] at hout
  split at ha
  · obtain rfl := Option.some.inj ha
    exact h
  next hle =>
  split at ha
  · simp only [Option.bind_eq_bind, Option.bind_eq_some_iff, Option.some.injEq] at ha
    obtain ⟨r', hdel, rfl⟩ := ha
    exact deleteIndx_inSlots (r := r') h hdel
  · next hne =>
    simp only [Option.bind_eq_bind, Option.bind_eq_some_iff, Option.some.injEq] at ha
    obtain ⟨r', hfree, b, hmove, rfl⟩ := ha
    have hrew := (freeRange_some hfree).trans (moveRange_some hmove)
    obtain ⟨d, rfl, hd⟩ := hrew
    refine shrunk_inSlots h hd ?_
    rcases of_checkOutOfBounds hout.1 with ⟨h0, rfl⟩ | hb
    · rcases of_checkOutOfBounds hout.2 with ⟨-, rfl⟩ | he
      · exact absurd rfl hne
      · rw [h0] at he
        exact absurd he (Nat.not_lt_zero _)
    · have he := (of_checkOutOfBounds hout.2).resolve_left fun hc => by
        rw [hc.1] at hb
        exact absurd hb (Nat.not_lt_zero _)
      have hbint := toInt_eq_toNat (show bindex.toNat < 2 ^ 31 by omega)
      have heint := toInt_eq_toNat (show eindex.toNat < 2 ^ 31 by omega)
      rw [BitVec.slt_iff_toInt_lt, hbint, heint] at hle
      have hcnt : (eindex - bindex).toNat = eindex.toNat - bindex.toNat :=
        BitVec.toNat_sub_of_le (by rw [BitVec.le_def]; omega)
      have hc : (a.curSize - (eindex - bindex)).toNat = a.curSize.toNat - (eindex - bindex).toNat :=
        BitVec.toNat_sub_of_le (by rw [BitVec.le_def]; omega)
      change (a.curSize - (eindex - bindex)).toNat ≤ _
      omega

theorem deleteObj_inSlots [DecidableEq α] (h : a.InSlots) {data : Option α}
    {r : ℤ × MclArray α φ × Freed φ α} (ha : mclArrayDeleteObj data a freeFn = some r) :
    r.2.1.InSlots := by
  simp only [mclArrayDeleteObj, Option.bind_eq_bind, Option.bind_eq_some_iff] at ha
  obtain ⟨i, -, hdel⟩ := ha
  split at hdel
  · obtain rfl := Option.some.inj hdel
    exact h
  · exact delete_inSlots h hdel

theorem clean_inSlots (h : a.InSlots) {r : MclArray α φ × Freed φ α}
    (ha : mclArrayClean a freeFn = some r) : r.1.InSlots := by
  simp only [mclArrayClean, Option.bind_eq_bind, Option.bind_eq_some_iff, Option.some.injEq] at ha
  obtain ⟨r', hclean, rfl⟩ := ha
  obtain ⟨d, hd, hlen⟩ := cleanArrayLoop_some hclean
  change MclArray.InSlots { r'.1 with curSize := 0 }
  rw [hd]
  exact shrunk_inSlots h hlen (Nat.zero_le _)

theorem iterErase_inSlots (h : a.InSlots) {iter : ArrayIter α}
    {r : Option (ArrayIter α) × ArrayIter α × MclArray α φ × Freed φ α}
    (ha : defIterErase iter a = some r) : r.2.2.1.InSlots := by
  simp only [defIterErase, Option.bind_eq_bind, Option.bind_eq_some_iff] at ha
  obtain ⟨index, -, ha⟩ := ha
  split at ha
  · obtain rfl := Option.some.inj ha
    exact h
  · simp only [Option.bind_eq_some_iff] at ha
    obtain ⟨r', hdel, ha⟩ := ha
    have hr' := deleteIndx_inSlots h hdel
    split at ha
    · obtain rfl := Option.some.inj ha
      exact hr'
    · simp only [Option.bind_eq_some_iff, Option.some.injEq] at ha
      obtain ⟨x, -, rfl⟩ := ha
      exact hr'

theorem ctrl_rewrites (cmd : DsCtrlCmd) (data : Option φ) (a : MclArray α φ) :
    (mclArrayCtrl cmd data a).2.allData = a.allData ∧ (mclArrayCtrl cmd data a).2.curSize = a.curSize := by
  cases data with
  | none => exact ⟨rfl, rfl⟩
  | some fn => cases cmd <;> exact ⟨rfl, rfl⟩

theorem callArray_inSlots [DecidableEq α] (h : a.InSlots) {call : ArrayCall α φ} (hcall : call ≠ .tighten)
    {r : ArrayAnswer α φ × MclArray α φ} (ha : callArray a junk call = some r) : r.2.InSlots := by
  cases call with
  | append data =>
    obtain ⟨r', hr', rfl⟩ := Option.map_eq_some_iff.mp ha
    exact append_inSlots h hr'
  | preappend data =>
    obtain ⟨r', hr', rfl⟩ := Option.map_eq_some_iff.mp ha
    exact preappend_inSlots h hr'
  | insert data index =>
    obtain ⟨r', hr', rfl⟩ := Option.map_eq_some_iff.mp ha
    exact insert_inSlots h hr'
  | preinsert data index =>
    obtain ⟨r', hr', rfl⟩ := Option.map_eq_some_iff.mp ha
    exact preinsert_inSlots h hr'
  | deleteIndx index freeFn =>
    obtain ⟨r', hr', rfl⟩ := Option.map_eq_some_iff.mp ha
    exact deleteIndx_inSlots h hr'
  | delete index freeFn =>
    obtain ⟨r', hr', rfl⟩ := Option.map_eq_some_iff.mp ha
    exact delete_inSlots h hr'
  | deleteObj data freeFn =>
    obtain ⟨r', hr', rfl⟩ := Option.map_eq_some_iff.mp ha
    exact deleteObj_inSlots h hr'
  | deleteRange bindex eindex freeFn =>
    obtain ⟨r', hr', rfl⟩ := Option.map_eq_some_iff.mp ha
    exact deleteRange_inSlots h hr'
  | clean freeFn =>
    obtain ⟨r', hr', rfl⟩ := Option.map_eq_some_iff.mp ha
    exact clean_inSlots h hr'
  | tighten => exact absurd rfl hcall
  | «at» index =>
    obtain ⟨r', -, rfl⟩ := Option.map_eq_some_iff.mp ha
    exact h
  | size =>
    obtain rfl := Option.some.inj ha
    exact h
  | ctrl cmd data =>
    obtain rfl := Option.some.inj ha
    obtain ⟨hdata, hcur⟩ := ctrl_rewrites cmd data a
    constructor
    · change (mclArrayCtrl cmd data a).2.curSize.toNat ≤ (mclArrayCtrl cmd data a).2.allData.length
      rw [hdata, hcur]
      exact h.fits
    · change (mclArrayCtrl cmd data a).2.allData.length < _
      rw [hdata]
      exact h.small
  | iterErase iter =>
    obtain ⟨r', hr', rfl⟩ := Option.map_eq_some_iff.mp ha
    exact iterErase_inSlots h hr'

theorem nullLoop_some {n : ℕ} {i : ℤ} (h : nullLoop n i a = some a') : Rewrites a a' := by
  induction n generalizing a i with
  | zero =>
    obtain rfl := Option.some.inj h
    exact .refl _
  | succ n ih =>
    simp only [nullLoop, Option.bind_eq_bind, Option.bind_eq_some_iff] at h
    obtain ⟨b, hb, hrest⟩ := h
    exact (write_some hb).2.2.trans (ih hrest)

theorem new_spec {initSize : BitVec 32} {eraseJunk : Option φ}
    (h : mclArrayNew initSize junk eraseJunk = some (some a)) : a.curSize = 0 ∧ a.InSlots := by
  unfold mclArrayNew mclArrayNewWith at h
  split at h
  · exact absurd h (by simp)
  · simp only [Option.bind_eq_bind, Option.bind_eq_some_iff, Option.some.injEq] at h
    obtain ⟨b, hloop, rfl⟩ := h
    have hlen := (nullLoop_some hloop).length
    refine ⟨rfl, Nat.zero_le _, ?_⟩
    change b.allData.length < _
    rw [hlen, length_mallocData]
    exact slotsOf_lt _

theorem inSlots_of_reach [DecidableEq α] {a₀ : MclArray α φ} (h : a₀.InSlots)
    {hist : List ((ArrayCall α φ × (ℕ → Option α)) × ArrayAnswer α φ)}
    (hr : (callMachine a₀).Reach (fun _ c => c.1 ≠ .tighten) hist a) : a.InSlots :=
  hr.invariant (P := InSlots) h fun _ _ _ _ hs hok he => callArray_inSlots hs hok he

/-- In every array that insertions and deletions lead to. -/
theorem mclArray_delete_iff [DecidableEq α] {initSize : BitVec 32} {junk : ℕ → Option α}
    {eraseJunk : Option φ} {a₀ : MclArray α φ} (hnew : mclArrayNew initSize junk eraseJunk = some (some a₀))
    {hist : List ((ArrayCall α φ × (ℕ → Option α)) × ArrayAnswer α φ)}
    (hr : (callMachine a₀).Reach (fun _ c => c.1 ≠ .tighten) hist a) (index : BitVec 32)
    (freeFn : Option φ) : a.DeletesAt index freeFn ↔ ¬ (a.curSize = 0 ∧ index = 0) :=
  (inSlots_of_reach (new_spec hnew).2 hr).deletesAt_iff index freeFn

/-- What calls on a new array show, by evaluation. -/
theorem exists_of_calls (calls : List (ArrayCall ℕ ℕ)) (shows : MclArray ℕ ℕ → Prop) [DecidablePred shows]
    (h : ((mclArrayNew 0 (fun _ => none) none).any fun a => a.any fun a =>
      ((callMachine a).run (calls.map fun call => (call, fun _ => none))).any fun r => decide (shows r.2)) = true) :
    ∃ a₀ a hist, mclArrayNew 0 (fun _ => none) none = some (some a₀) ∧
      (callMachine a₀).run (calls.map fun call => (call, fun _ => none)) = some (hist, a) ∧ shows a := by
  obtain ⟨a₀, hnew, h⟩ := (Option.any_eq_true _ _).mp h
  obtain ⟨a₀, rfl, h⟩ := (Option.any_eq_true _ _).mp h
  obtain ⟨hist, a, hrun, hshows⟩ := (callMachine a₀).exists_of_run _ (fun r => shows r.2) h
  exact ⟨a₀, a, hist, hnew, hrun, hshows⟩

/-- A new array has nothing to delete at index 0. -/
theorem mclArray_delete_empty :
    ¬ ∀ (a₀ a : MclArray ℕ ℕ), mclArrayNew 0 (fun _ => none) none = some (some a₀) →
      (∃ hist, (callMachine a₀).Reach (fun _ c => c.1 ≠ .tighten) hist a) →
        ∀ index freeFn, a.DeletesAt index freeFn := by
  intro hall
  obtain ⟨a₀, hnew⟩ : ∃ a₀ : MclArray ℕ ℕ, mclArrayNew 0 (fun _ => none) none = some (some a₀) := ⟨_, rfl⟩
  obtain ⟨h0, hslots⟩ := new_spec hnew
  have hdel := hall a₀ a₀ hnew ⟨[], .init⟩ 0 none
  exact (hslots.deletesAt_iff 0 none).mp hdel ⟨h0, rfl⟩

theorem mclArray_delete_two :
    ∃ a : MclArray ℕ ℕ, a.elems = [some 7, some 8] ∧ a.DeletesAt 1 (some 0) := by
  obtain ⟨a₀, a, hist, hnew, hrun, helems⟩ := exists_of_calls [.append (some 7), .append (some 8)]
    (fun a => a.elems = [some 7, some 8]) (by decide +kernel)
  have hr := Machine.reach_of_inputs (p := fun c => c.1 ≠ .tighten) hrun (by simp)
  refine ⟨a, helems, (mclArray_delete_iff hnew hr 1 (some 0)).mpr ?_⟩
  exact fun hc => absurd hc.2 (by decide)

end MclArray
end Mcl
