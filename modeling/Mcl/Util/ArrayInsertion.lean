import Mcl.Util.ArrayRefinement

/-! The insertions of `mcl_array.h`, as their callers see them. -/
namespace Mcl

variable {α φ : Type}

theorem le_grownSize (totalSize curSize : BitVec 32) :
    totalSize.toNat ≤ (grownSize totalSize curSize).toNat := by
  unfold grownSize
  split
  · next hgrow =>
    have hule := hgrow.2
    rw [BitVec.ule, decide_eq_false_iff_not] at hule
    omega
  · exact Nat.le_refl _

namespace MclArray

variable {a : MclArray α φ} {junk : ℕ → Option α} {index : BitVec 32}

/-- A call that stores `data` and returns `i`, where the new element is found. It leaves `xs`, and no
slot that `realloc` has not set is among them. -/
def Stores (a : MclArray α φ) (data : Option α) (i : ℕ) (xs : List (Option α))
    (r : Option (ℤ × MclArray α φ)) : Prop :=
  ∃ a', r = some ((i : ℤ), a') ∧ a'.elems = xs ∧ a'.curSize.toNat = a.curSize.toNat + 1 ∧
    mclArrayAt (BitVec.ofNat 32 i) a' = some data ∧ a.totalSize.toNat ≤ a'.totalSize.toNat

theorem at_eq (h : a.InSlots) (hi : index.toNat < a.curSize.toNat) :
    mclArrayAt index a = a.elems[index.toNat]? := by
  have hfits := h.fits
  rw [mclArrayAt, checkOutOfBounds_of_lt h hi, if_neg Bool.false_ne_true,
    read_eq h.small (by omega), elems_getElem? hi]

/-- An insertion at `lo` that finds a free slot. -/
theorem InSlots.stores (h : a.InSlots) (halloc : a.allData.length = slotsOf a.totalSize) {lo : ℕ}
    (hlo : lo ≤ a.curSize.toNat) (hroom : a.curSize.toNat < (tryExtendArray a junk).allData.length)
    (data : Option α) :
    a.Stores data lo (a.elems.take lo ++ data :: a.elems.drop lo)
      ((openGap lo data (tryExtendArray a junk)).map fun a' => ((lo : ℤ), a')) := by
  obtain ⟨d, hext, hdlen, hkeep⟩ := tryExtendArray_eq halloc junk
  rw [hext] at hroom ⊢
  change a.curSize.toNat < d.length at hroom
  have hsmall : d.length < 2 ^ 31 := by
    rw [hdlen]
    exact slotsOf_lt _
  obtain ⟨d', hgap, hlen', htake⟩ := openGap_eq
    (a := { a with allData := d, totalSize := grownSize a.totalSize a.curSize }) hlo hroom hsmall data
  have hsucc := toNat_add_one (n := a.curSize) (by omega)
  have hold := (hkeep (by omega)).2.2
  have hfits := h.fits
  have helems : d.take a.curSize.toNat = a.elems := take_eq_elems h.fits hold
  have hxs : d'.take (a.curSize + 1).toNat = a.elems.take lo ++ data :: a.elems.drop lo := by
    have hle : lo ≤ a.elems.length := by
      rw [elems_length h]
      exact hlo
    obtain ⟨xs, ys, heq, hlen, hins⟩ := List.exists_of_modifyTailIdx (List.cons data) hle
    rw [htake, elems, helems, List.insertIdx, hins, heq, ← hlen, List.take_left, List.drop_left]
  have hin : MclArray.InSlots { a with
      allData := d', totalSize := grownSize a.totalSize a.curSize, curSize := a.curSize + 1 } := by
    constructor
    · change (a.curSize + 1).toNat ≤ d'.length
      rw [hsucc, hlen']
      exact hroom
    · change d'.length < 2 ^ 31
      rw [hlen']
      exact hsmall
  rw [hgap]
  refine ⟨_, rfl, hxs, hsucc, ?_, le_grownSize _ _⟩
  have hindex : (BitVec.ofNat 32 lo).toNat = lo := by
    rw [BitVec.toNat_ofNat, Nat.mod_eq_of_lt (by omega)]
  rw [at_eq hin]
  · change (d'.take (a.curSize + 1).toNat)[(BitVec.ofNat 32 lo).toNat]? = some data
    have hlen : (a.elems.take lo).length = lo := by
      rw [List.length_take, elems_length h]
      omega
    rw [hxs, hindex, List.getElem?_append_right (by omega), hlen, Nat.sub_self, List.getElem?_cons_zero]
  · change (BitVec.ofNat 32 lo).toNat < (a.curSize + 1).toNat
    omega

/-- The block that `_total_size` speaks of, with a slot at least. -/
structure Allocated (a : MclArray α φ) : Prop where
  fits : a.curSize.toNat ≤ a.totalSize.toNat
  alloc : a.allData.length = a.totalSize.toNat
  pos : 1 ≤ a.totalSize.toNat
  small : a.totalSize.toNat < 2 ^ 30

theorem Allocated.inSlots (h : a.Allocated) : a.InSlots := by
  have halloc := h.alloc
  have hsmall := h.small
  constructor
  · rw [halloc]
    exact h.fits
  · omega

theorem Allocated.slots (h : a.Allocated) : a.allData.length = slotsOf a.totalSize := by
  have hsmall := h.small
  rw [slotsOf_eq (by omega)]
  exact h.alloc

theorem Allocated.room (h : a.Allocated) (junk : ℕ → Option α) :
    a.curSize.toNat < (tryExtendArray a junk).allData.length := by
  have hpos := h.pos
  have hfits := h.fits
  have hsmall := h.small
  have hdouble := toNat_shiftLeft_one hsmall
  obtain ⟨d, hext, hdlen, -⟩ := tryExtendArray_eq h.slots junk
  have hsle := sle_iff_toNat (n := a.totalSize) (m := a.curSize) (by omega) (by omega)
  have hule : (a.totalSize <<< 1).ule a.totalSize = false := by
    rw [BitVec.ule, decide_eq_false_iff_not]
    omega
  rw [hext]
  change a.curSize.toNat < d.length
  rw [hdlen, grownSize]
  by_cases hfull : a.totalSize.toNat ≤ a.curSize.toNat
  · rw [if_pos ⟨hsle.mpr hfull, hule⟩, slotsOf_eq (by omega)]
    omega
  · rw [if_neg (fun hc => hfull (hsle.mp hc.1)), slotsOf_eq (by omega)]
    omega

/-- The three insertions that keep to their word. -/
structure Inserts (a : MclArray α φ) (data : Option α) (junk : ℕ → Option α) : Prop where
  append : a.Stores data a.curSize.toNat (a.elems ++ [data]) (mclArrayAppend data a junk)
  preappend : a.Stores data 0 ([data] ++ a.elems) (mclArrayPreappend data a junk)
  preinsert : ∀ index : BitVec 32,
    (0 ≤ index.toInt ∧ index.toInt < a.curSize.toNat) ∨ a.curSize = 0 ∧ index = 0 →
      a.Stores data index.toNat (a.elems.take index.toNat ++ [data] ++ a.elems.drop index.toNat)
        (mclArrayPreinsert data index a junk)
  refused : ∀ index : BitVec 32,
    ¬ ((0 ≤ index.toInt ∧ index.toInt < a.curSize.toNat) ∨ a.curSize = 0 ∧ index = 0) →
      mclArrayPreinsert data index a junk = some (-1, a)

theorem Allocated.inserts (h : a.Allocated) (data : Option α) (junk : ℕ → Option α) : a.Inserts data junk := by
  have hin := h.inSlots
  have hroom := h.room junk
  have hlen := elems_length hin
  have hpreappend : a.Stores data 0 ([data] ++ a.elems) (mclArrayPreappend data a junk) := by
    have hstores := hin.stores h.slots (Nat.zero_le _) hroom data
    rw [List.take_zero, List.drop_zero] at hstores
    rw [mclArrayPreappend_eq hin]
    exact hstores
  constructor
  · have hstores := hin.stores h.slots (Nat.le_refl _) hroom data
    rw [← hlen, List.take_length, List.drop_length, hlen] at hstores
    rw [mclArrayAppend_eq hin]
    exact hstores
  · exact hpreappend
  · rintro index (⟨h0, hlt⟩ | ⟨h0, rfl⟩)
    · have hint := toNat_of_nonneg h0
      have hi : index.toNat < a.curSize.toNat := by omega
      have hstores := hin.stores h.slots (Nat.le_of_lt hi) hroom data
      rw [mclArrayPreinsert_eq hin hi, List.append_assoc]
      exact hstores
    · have hnil : a.elems = [] := by
        rw [← List.length_eq_zero_iff, hlen, h0]
        rfl
      rw [mclArrayPreinsert, checkOutOfBounds_empty h0, if_neg Bool.false_ne_true, if_pos rfl]
      rw [hnil] at hpreappend ⊢
      exact hpreappend
  · intro index hout
    have hcheck : checkOutOfBounds index a = true := by
      rw [← Bool.not_eq_false, checkOutOfBounds_iff hin]
      exact hout
    rw [mclArrayPreinsert, hcheck, if_pos rfl]

/-- A full array, behind whose elements the new block holds anything. -/
theorem Allocated.inserts_full :
    (⟨[some 7, some 8], 2, 2, none⟩ : MclArray ℕ Unit).Inserts (some 9) fun _ => some 1 :=
  Allocated.inserts ⟨by decide, rfl, by decide, by decide⟩ _ _

/-- `mcl_array_insert`: the element goes behind the one at `index`, or the index is refused. A call
that finds no slot for one more element is an overrun; it returns neither, so it is kept apart. -/
inductive InsertsAfter (a : MclArray α φ) (data : Option α) (index : BitVec 32) (junk : ℕ → Option α) : Prop where
  | stored (i : ℕ) (hin : checkOutOfBounds index a = false)
      (h : a.Stores data i (a.elems.take (index.toNat + 1) ++ [data] ++ a.elems.drop (index.toNat + 1))
        (mclArrayInsert data index a junk))
  | refused (hout : checkOutOfBounds index a = true) (h : mclArrayInsert data index a junk = some (-1, a))
  | noSlot (hfull : (tryExtendArray a junk).allData.length ≤ a.curSize.toNat)
      (h : mclArrayInsert data index a junk = none)

theorem Placed.insertsAfter_inside (h : a.Placed) (hi : index.toNat < a.curSize.toNat) (data : Option α)
    (junk : ℕ → Option α) : a.InsertsAfter data index junk := by
  have heq := mclArrayInsert_eq h.toInSlots hi data junk
  by_cases hroom : a.curSize.toNat < (tryExtendArray a junk).allData.length
  · apply InsertsAfter.stored (index.toNat + 1) (checkOutOfBounds_of_lt h.toInSlots hi)
    rw [heq, List.append_assoc]
    exact h.toInSlots.stores h.alloc hi hroom data
  · apply InsertsAfter.noSlot (Nat.le_of_not_lt hroom)
    have hcur := tryExtendArray_curSize h.toInSlots junk
    rw [heq, openGap_none (by rw [hcur]; exact hi) (by rw [hcur]; exact Nat.le_of_not_lt hroom)]
    rfl

/-- The first element goes to slot 1, so what an array with slots shows is the NULL of slot 0. -/
theorem Placed.insert_empty (h : a.Placed) (hone : a.allData.length ≠ 1) (h0 : a.curSize = 0)
    (hslots : a.allData ≠ []) (data : Option α) (junk : ℕ → Option α) :
    ∃ a', mclArrayInsert data 0 a junk = some (1, a') ∧ a'.elems = [none] ∧ a'.curSize = 1 ∧
      a.totalSize.toNat ≤ a'.totalSize.toNat := by
  obtain ⟨d, hext, hdlen, hkeep⟩ := tryExtendArray_eq h.alloc junk
  have hlen : 2 ≤ a.allData.length := by
    have hne : a.allData.length ≠ 0 := fun hc => hslots (List.length_eq_zero_iff.mp hc)
    omega
  have halloc := h.alloc
  have hgrown : grownSize a.totalSize a.curSize = a.totalSize := by
    have hsmall := h.small
    have hint := slotsOf_toInt a.totalSize
    have hzero : (0 : BitVec 32).toInt = 0 := rfl
    apply if_neg
    rintro ⟨hsle, -⟩
    rw [BitVec.sle, decide_eq_true_eq, h0, hzero] at hsle
    omega
  have hroom : 1 < d.length := by
    rw [hdlen, hgrown, ← halloc]
    omega
  have hfirst : d[0]? = some none := by
    have hclear := h.clear h0
    rw [(hkeep (by omega)).2.2 0 (by omega)]
    rw [List.getElem?_eq_getElem (by omega)] at hclear ⊢
    exact congrArg some hclear
  have hwrite := write_natCast
    (a := { a with allData := d, totalSize := grownSize a.totalSize a.curSize }) hroom data
  refine ⟨{ a with allData := d.set 1 data, totalSize := grownSize a.totalSize a.curSize, curSize := 1 }, ?_, ?_,
    rfl, le_grownSize _ _⟩
  · rw [mclArrayInsert_first h0 hext, show (1 : ℤ) = ((1 : ℕ) : ℤ) from rfl, hwrite]
    simp only [Option.map_some, increaseSize, h0]
    rfl
  · apply List.ext_getElem?
    intro j
    change ((d.set 1 data).take 1)[j]? = _
    rw [List.getElem?_take]
    cases j with
    | zero => rw [if_pos Nat.one_pos, List.getElem?_set_ne (by omega), hfirst]; rfl
    | succ j => rw [if_neg (by omega)]; rfl

/-- Only NULL can be taken for what has been inserted first, unless there was no slot for it. -/
theorem Placed.insertsAfter_empty (h : a.Placed) (hone : a.allData.length ≠ 1) (h0 : a.curSize = 0)
    (data : Option α) (junk : ℕ → Option α) :
    a.InsertsAfter data 0 junk ↔ ¬ (data ≠ none ∧ a.allData ≠ []) := by
  by_cases hslots : a.allData = []
  · obtain ⟨d, hext, hdlen, hkeep⟩ := tryExtendArray_eq h.alloc junk
    have hd : d.length = 0 := by
      by_contra hne
      have hpos := (hkeep hne).1
      rw [hslots] at hpos
      exact absurd hpos (Nat.lt_irrefl _)
    have hinsert := mclArrayInsert_first h0 hext data
    have hwrite := write_of_no_slots
      (a := { a with allData := d, totalSize := grownSize a.totalSize a.curSize })
      (List.length_eq_zero_iff.mp hd) 1 data
    rw [hwrite] at hinsert
    refine ⟨fun _ hc => hc.2 hslots, fun _ => .noSlot ?_ hinsert⟩
    rw [hext]
    exact Nat.le_trans (Nat.le_of_eq hd) (Nat.zero_le _)
  · obtain ⟨a', hresult, helems, hcur, htotal⟩ := h.insert_empty hone h0 hslots data junk
    have hnil : a.elems = [] := by
      rw [← List.length_eq_zero_iff, elems_length h.toInSlots, h0]
      rfl
    constructor
    · rintro hins ⟨hdata, -⟩
      cases hins with
      | stored i hin hst =>
        obtain ⟨a'', hret, hxs, -⟩ := hst
        rw [hresult] at hret
        obtain ⟨-, rfl⟩ := Prod.mk.inj (Option.some.inj hret)
        rw [hnil, helems] at hxs
        exact hdata (List.head_eq_of_cons_eq hxs).symm
      | refused hout _ =>
        rw [checkOutOfBounds_empty h0] at hout
        exact absurd hout Bool.false_ne_true
      | noSlot _ hnone =>
        rw [hresult] at hnone
        exact absurd hnone (by simp)
    · intro hdata
      obtain rfl : data = none := by
        by_contra hne
        exact hdata ⟨hne, hslots⟩
      refine .stored 1 (checkOutOfBounds_empty h0) ⟨a', hresult, ?_, ?_, ?_, htotal⟩
      · rw [hnil]
        exact helems
      · rw [h0, hcur]
        rfl
      · rw [mclArrayAt, checkOutOfBounds, hcur]
        rfl

end MclArray
end Mcl
