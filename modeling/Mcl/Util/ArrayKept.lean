import Mcl.Util.ArrayInsertion

/-! Every call keeps a placed array placed, but for one: from `2 ^ 30` elements on,
`mcl_array_tighten` asks for a negative number of slots and loses the block. -/
namespace Mcl
open Mcl.Library

variable {α φ : Type}

namespace MclArray

variable {a a₀ : MclArray α φ} {junk : ℕ → Option α} {index : BitVec 32}

/-- The elements are gone, the size is not. -/
structure Lost (a : MclArray α φ) : Prop where
  noSlots : a.allData = []
  big : 2 ^ 30 ≤ a.curSize.toNat
  small : a.curSize.toNat < 2 ^ 31
  doubled : a.totalSize = a.curSize <<< 1

theorem shiftDown_some {a' : MclArray α φ} {n : ℕ} {i : BitVec 32} (h : shiftDown n i a = some a') :
    Rewrites a a' := by
  induction n generalizing a i with
  | zero =>
    obtain rfl := Option.some.inj h
    exact .refl _
  | succ n ih =>
    simp only [shiftDown, Option.bind_eq_bind, Option.bind_eq_some_iff] at h
    obtain ⟨x, -, b, hb, hrest⟩ := h
    exact (write_some hb).2.2.trans (ih hrest)

theorem Rewrites.noSlots {a' : MclArray α φ} (h : Rewrites a a') (h0 : a.allData = []) : a'.allData = [] := by
  rw [← List.length_eq_zero_iff, h.length, h0]
  rfl

theorem read_of_no_slots (h : a.allData = []) (i : ℤ) : a.read i = none := by
  unfold read
  rw [h]
  split <;> rfl

theorem shift_write_of_no_slots (h : a.allData = []) (lo i : ℤ) (n : ℕ) (data : Option α) (ret : ℤ) :
    (do
      let a ← shiftUp lo n a
      let a ← a.write i data
      some (ret, increaseSize a)) = none := by
  cases hshift : shiftUp lo n a with
  | none => rfl
  | some b =>
    have hb := (shiftUp_some hshift).1.noSlots h
    simp only [write_of_no_slots hb, Option.bind_eq_bind, Option.bind_some, Option.bind_none]

namespace Lost

variable {freeFn : Option φ}

theorem tryExtendArray (h : a.Lost) (junk : ℕ → Option α) : tryExtendArray a junk = a := by
  have hbig := h.big
  have hsmall := h.small
  have hle : ((a.curSize <<< 1) <<< 1).ule (a.curSize <<< 1) = true := by
    rw [BitVec.ule, decide_eq_true_eq, BitVec.toNat_shiftLeft, BitVec.toNat_shiftLeft, Nat.shiftLeft_eq,
      Nat.shiftLeft_eq]
    omega
  unfold Mcl.tryExtendArray tryExtendArrayWith extendArray
  rw [h.doubled, hle, if_pos rfl, ite_self]

theorem append (h : a.Lost) (data : Option α) (junk : ℕ → Option α) : mclArrayAppend data a junk = none := by
  simp only [mclArrayAppend, h.tryExtendArray, write_of_no_slots h.noSlots, Option.bind_eq_bind,
    Option.bind_none]

theorem preappend (h : a.Lost) (data : Option α) (junk : ℕ → Option α) :
    mclArrayPreappend data a junk = none := by
  unfold mclArrayPreappend
  rw [h.tryExtendArray]
  exact shift_write_of_no_slots h.noSlots _ _ _ _ _

theorem insert (h : a.Lost) (hin : checkOutOfBounds index a = false) (data : Option α) (junk : ℕ → Option α) :
    mclArrayInsert data index a junk = none := by
  unfold mclArrayInsert
  rw [hin, if_neg Bool.false_ne_true, h.append, h.tryExtendArray]
  split
  · rfl
  · exact shift_write_of_no_slots h.noSlots _ _ _ _ _

theorem preinsert (h : a.Lost) (hin : checkOutOfBounds index a = false) (data : Option α)
    (junk : ℕ → Option α) : mclArrayPreinsert data index a junk = none := by
  unfold mclArrayPreinsert
  rw [hin, if_neg Bool.false_ne_true, h.preappend, h.tryExtendArray]
  split
  · rfl
  · exact shift_write_of_no_slots h.noSlots _ _ _ _ _

theorem deleteIndx (h : a.Lost) (hin : checkOutOfBounds index a = false) (freeFn : Option φ) :
    mclArrayDeleteIndx index a freeFn = none := by
  unfold mclArrayDeleteIndx
  rw [hin, if_neg Bool.false_ne_true]
  cases freeSlot freeFn index a with
  | none => rfl
  | some freed =>
    simp only [Option.bind_eq_bind, Option.bind_some]
    cases hshift : shiftDown ((a.curSize - 1).toNat - index.toNat) index a with
    | none => rfl
    | some b =>
      have hb := (shiftDown_some hshift).noSlots h.noSlots
      rw [Option.bind_some, write_of_no_slots hb, Option.bind_none]

theorem delete (h : a.Lost) (hin : checkOutOfBounds index a = false) (freeFn : Option φ) :
    mclArrayDelete index a freeFn = none := by
  unfold mclArrayDelete
  rw [hin, if_neg Bool.false_ne_true]
  cases freeSlot freeFn index a with
  | none => rfl
  | some freed => simp only [read_of_no_slots h.noSlots, Option.bind_eq_bind, Option.bind_some, Option.bind_none]

theorem deleteObj [DecidableEq α] (h : a.Lost) (data : Option α) (freeFn : Option φ) :
    mclArrayDeleteObj data a freeFn = none := by
  have hbig := h.big
  obtain ⟨n, hn⟩ : ∃ n, a.curSize.toNat = n + 1 := ⟨a.curSize.toNat - 1, by omega⟩
  unfold mclArrayDeleteObj
  rw [hn]
  simp only [findObj, read_of_no_slots h.noSlots, Option.bind_eq_bind, Option.bind_none]

theorem clean (h : a.Lost) (freeFn : Option φ) : mclArrayClean a freeFn = none := by
  have hbig := h.big
  have hint := toInt_eq_toNat h.small
  obtain ⟨n, hn⟩ : ∃ n, a.curSize.toInt.toNat = n + 1 := ⟨a.curSize.toNat - 1, by omega⟩
  unfold mclArrayClean
  rw [hn]
  simp only [cleanArrayLoop, read_of_no_slots h.noSlots, Option.bind_eq_bind, Option.bind_none]

/-- Inside the size there is an element behind the range to move. -/
theorem deleteRange (h : a.Lost) {bindex eindex : BitVec 32} {r : ℤ × MclArray α φ × Freed φ α}
    (hr : mclArrayDeleteRange bindex eindex a freeFn = some r) : r.2.1 = a := by
  have hbig := h.big
  unfold mclArrayDeleteRange at hr
  dsimp only at hr
  split at hr
  · obtain rfl := Option.some.inj hr
    rfl
  next hout =>
  rw [Bool.or_eq_true, not_or, Bool.not_eq_true, Bool.not_eq_true] at hout
  split at hr
  · obtain rfl := Option.some.inj hr
    rfl
  split at hr
  · rw [h.deleteIndx hout.1] at hr
    exact absurd hr (by simp)
  · simp only [Option.bind_eq_bind, Option.bind_eq_some_iff, Option.some.injEq] at hr
    obtain ⟨r', hfree, b, hmove, -⟩ := hr
    have hrew := freeRange_some hfree
    have hb := hrew.noSlots h.noSlots
    have he : eindex.toNat < a.curSize.toNat := by
      apply (of_checkOutOfBounds hout.2).resolve_left
      rintro ⟨h0, -⟩
      rw [h0] at hbig
      exact absurd hbig (by decide)
    obtain ⟨n, hn⟩ : ∃ n, r'.1.curSize.toNat - eindex.toNat = n + 1 := by
      refine ⟨a.curSize.toNat - eindex.toNat - 1, ?_⟩
      rw [hrew.curSize]
      omega
    rw [hn] at hmove
    simp only [moveRange, read_of_no_slots hb, Option.bind_eq_bind, Option.bind_none] at hmove
    exact absurd hmove (by simp)

theorem tighten (h : a.Lost) (junk : ℕ → Option α) : mclArrayTighten a junk = a := by
  unfold mclArrayTighten
  dsimp only
  rw [← h.doubled]
  apply if_pos
  exact decide_eq_true (Int.le_refl _)

theorem iterErase (h : a.Lost) {iter : ArrayIter α}
    {r : Option (ArrayIter α) × ArrayIter α × MclArray α φ × Freed φ α} (hr : defIterErase iter a = some r) :
    r.2.2.1 = a := by
  simp only [defIterErase, Option.bind_eq_bind, Option.bind_eq_some_iff] at hr
  obtain ⟨index, -, hr⟩ := hr
  cases hout : checkOutOfBounds index a with
  | true =>
    rw [hout, if_pos rfl] at hr
    obtain rfl := Option.some.inj hr
    rfl
  | false =>
    rw [hout, if_neg Bool.false_ne_true, h.deleteIndx hout] at hr
    exact absurd hr (by simp)

theorem of_bounds {β : Type} {x : Option β} {b r : β} (hx : x = some r)
    (hout : checkOutOfBounds index a = true → x = some b) (hin : checkOutOfBounds index a = false → x = none) :
    r = b := by
  cases hcheck : checkOutOfBounds index a with
  | true =>
    rw [hout hcheck] at hx
    exact (Option.some.inj hx).symm
  | false =>
    rw [hin hcheck] at hx
    exact absurd hx (by simp)

/-- A call that returns has found nothing to do in the block. -/
theorem callArray [DecidableEq α] (h : a.Lost) {call : ArrayCall α φ} {r : ArrayAnswer α φ × MclArray α φ}
    (hr : callArray a junk call = some r) : r.2.Lost := by
  cases call with
  | append data =>
    rw [Mcl.callArray, h.append] at hr
    exact absurd hr (by simp)
  | preappend data =>
    rw [Mcl.callArray, h.preappend] at hr
    exact absurd hr (by simp)
  | insert data index =>
    obtain ⟨r', hr', rfl⟩ := Option.map_eq_some_iff.mp hr
    obtain rfl := of_bounds hr' (fun hout => by rw [mclArrayInsert, hout, if_pos rfl]) fun hin => h.insert hin data junk
    exact h
  | preinsert data index =>
    obtain ⟨r', hr', rfl⟩ := Option.map_eq_some_iff.mp hr
    obtain rfl := of_bounds hr' (fun hout => by rw [mclArrayPreinsert, hout, if_pos rfl]) fun hin => h.preinsert hin data junk
    exact h
  | deleteIndx index freeFn =>
    obtain ⟨r', hr', rfl⟩ := Option.map_eq_some_iff.mp hr
    obtain rfl := of_bounds hr' (fun hout => by rw [mclArrayDeleteIndx, hout, if_pos rfl]) fun hin => h.deleteIndx hin freeFn
    exact h
  | delete index freeFn =>
    obtain ⟨r', hr', rfl⟩ := Option.map_eq_some_iff.mp hr
    obtain rfl := of_bounds hr' (fun hout => by rw [mclArrayDelete, hout, if_pos rfl]) fun hin => h.delete hin freeFn
    exact h
  | deleteObj data freeFn =>
    rw [Mcl.callArray, h.deleteObj] at hr
    exact absurd hr (by simp)
  | deleteRange bindex eindex freeFn =>
    obtain ⟨r', hr', rfl⟩ := Option.map_eq_some_iff.mp hr
    change r'.2.1.Lost
    rw [h.deleteRange hr']
    exact h
  | clean freeFn =>
    rw [Mcl.callArray, h.clean] at hr
    exact absurd hr (by simp)
  | tighten =>
    obtain rfl := Option.some.inj hr
    change (mclArrayTighten a junk).Lost
    rw [h.tighten]
    exact h
  | «at» index =>
    obtain ⟨r', -, rfl⟩ := Option.map_eq_some_iff.mp hr
    exact h
  | size =>
    obtain rfl := Option.some.inj hr
    exact h
  | ctrl cmd data =>
    obtain rfl := Option.some.inj hr
    cases data with
    | none => exact h
    | some fn => cases cmd <;> exact ⟨h.noSlots, h.big, h.small, h.doubled⟩
  | iterErase iter =>
    obtain ⟨r', hr', rfl⟩ := Option.map_eq_some_iff.mp hr
    change r'.2.2.1.Lost
    rw [h.iterErase hr']
    exact h

end Lost

theorem toNat_shiftLeft_even (n : BitVec 32) : (n <<< 1).toNat % 2 = 0 := by
  rw [BitVec.toNat_shiftLeft, Nat.shiftLeft_eq]
  omega

theorem grownSize_even {totalSize : BitVec 32} (h : totalSize.toNat % 2 = 0) (curSize : BitVec 32) :
    (grownSize totalSize curSize).toNat % 2 = 0 := by
  unfold grownSize
  split
  · exact toNat_shiftLeft_even _
  · exact h

/-! What the calls of the model do to the size of the block: an insertion may double it, and no other
call but `mcl_array_tighten` changes it. -/

section Sizes

variable {m m' : ArrayModel α φ} {r : ArrayAnswer α φ} {data : Option α} {i : ℕ}

theorem insertAt_even (h : m.totalSize.toNat % 2 = 0) (hm : m.insertAt i data = some m') :
    m'.totalSize.toNat % 2 = 0 := by
  unfold ArrayModel.insertAt at hm
  split at hm
  · obtain rfl := Option.some.inj hm
    exact grownSize_even h _
  · exact absurd hm (by simp)

theorem insertSecond_even (h : m.totalSize.toNat % 2 = 0) (hm : m.insertSecond = some m') :
    m'.totalSize.toNat % 2 = 0 := by
  unfold ArrayModel.insertSecond at hm
  split at hm
  · obtain rfl := Option.some.inj hm
    exact grownSize_even h _
  · exact absurd hm (by simp)

theorem refuse_totalSize (hm : m.refuse = some (r, m')) : m'.totalSize = m.totalSize := by
  obtain ⟨-, rfl⟩ := Prod.mk.inj (Option.some.inj hm)
  rfl

theorem deleteAt_totalSize {freeFn : Option φ} {items : List (Option α)}
    (hm : m.deleteAt index freeFn items = some (r, m')) : m'.totalSize = m.totalSize := by
  unfold ArrayModel.deleteAt at hm
  split at hm
  · obtain ⟨-, rfl⟩ := Prod.mk.inj (Option.some.inj hm)
    rfl
  · split at hm
    · exact absurd hm (by simp)
    · exact refuse_totalSize hm

theorem deleteRange_totalSize {bindex eindex : BitVec 32} {freeFn : Option φ}
    (hm : m.deleteRange bindex eindex freeFn = some (r, m')) : m'.totalSize = m.totalSize := by
  unfold ArrayModel.deleteRange at hm
  split at hm
  · split at hm
    · exact refuse_totalSize hm
    · split at hm
      · obtain ⟨r', hd, heq⟩ := Option.map_eq_some_iff.mp hm
        obtain ⟨-, rfl⟩ := Prod.mk.inj heq
        exact deleteAt_totalSize hd
      · obtain ⟨-, rfl⟩ := Prod.mk.inj (Option.some.inj hm)
        rfl
  · split at hm
    · exact absurd hm (by simp)
    · exact refuse_totalSize hm

theorem lookup_totalSize (hm : m.lookup index = some (r, m')) : m'.totalSize = m.totalSize := by
  unfold ArrayModel.lookup at hm
  split at hm
  · exact absurd hm (by simp)
  · obtain ⟨-, rfl⟩ := Prod.mk.inj (Option.some.inj hm)
    rfl

theorem ctrl_totalSize (cmd : DsCtrlCmd) (data : Option φ) : (m.ctrl cmd data).2.totalSize = m.totalSize := by
  cases data with
  | none => rfl
  | some fn => cases cmd <;> rfl

theorem iterErase_totalSize {iter : ArrayIter α} (hm : m.iterErase iter = some (r, m')) :
    m'.totalSize = m.totalSize := by
  simp only [ArrayModel.iterErase, Option.bind_eq_bind, Option.bind_eq_some_iff] at hm
  obtain ⟨index, -, hm⟩ := hm
  split at hm
  · obtain ⟨-, rfl⟩ := Prod.mk.inj (Option.some.inj hm)
    rfl
  · split at hm
    · exact absurd hm (by simp)
    · obtain ⟨-, rfl⟩ := Prod.mk.inj (Option.some.inj hm)
      rfl

theorem insert_even (h : m.totalSize.toNat % 2 = 0) (hm : m.insert data index = some (r, m')) :
    m'.totalSize.toNat % 2 = 0 := by
  unfold ArrayModel.insert at hm
  split at hm
  · obtain ⟨m'', hi, heq⟩ := Option.map_eq_some_iff.mp hm
    obtain ⟨-, rfl⟩ := Prod.mk.inj heq
    exact insertAt_even h hi
  · split at hm
    · obtain ⟨m'', hi, heq⟩ := Option.map_eq_some_iff.mp hm
      obtain ⟨-, rfl⟩ := Prod.mk.inj heq
      exact insertSecond_even h hi
    · rwa [refuse_totalSize hm]

theorem preinsert_even (h : m.totalSize.toNat % 2 = 0) (hm : m.preinsert data index = some (r, m')) :
    m'.totalSize.toNat % 2 = 0 := by
  unfold ArrayModel.preinsert at hm
  split at hm
  · obtain ⟨m'', hi, heq⟩ := Option.map_eq_some_iff.mp hm
    obtain ⟨-, rfl⟩ := Prod.mk.inj heq
    exact insertAt_even h hi
  · rwa [refuse_totalSize hm]

/-- The sizes that blocks come in are even. -/
theorem callModel_even [DecidableEq α] (h : m.totalSize.toNat % 2 = 0) {call : ArrayCall α φ}
    (hm : callModel m call = some (r, m')) : m'.totalSize.toNat % 2 = 0 := by
  cases call with
  | append data =>
    obtain ⟨m'', hi, heq⟩ := Option.map_eq_some_iff.mp hm
    obtain ⟨-, rfl⟩ := Prod.mk.inj heq
    exact insertAt_even h hi
  | preappend data =>
    obtain ⟨m'', hi, heq⟩ := Option.map_eq_some_iff.mp hm
    obtain ⟨-, rfl⟩ := Prod.mk.inj heq
    exact insertAt_even h hi
  | insert data index => exact insert_even h hm
  | preinsert data index => exact preinsert_even h hm
  | deleteIndx index freeFn => rwa [deleteAt_totalSize hm]
  | delete index freeFn => rwa [deleteAt_totalSize hm]
  | deleteObj data freeFn =>
    unfold callModel at hm
    dsimp only at hm
    split at hm
    · rwa [deleteAt_totalSize hm]
    · rwa [refuse_totalSize hm]
  | deleteRange bindex eindex freeFn => rwa [deleteRange_totalSize hm]
  | clean freeFn =>
    obtain ⟨-, rfl⟩ := Prod.mk.inj (Option.some.inj hm)
    exact h
  | tighten => exact absurd hm (by simp [callModel])
  | «at» index => rwa [lookup_totalSize hm]
  | size =>
    obtain ⟨-, rfl⟩ := Prod.mk.inj (Option.some.inj hm)
    exact h
  | ctrl cmd data =>
    obtain rfl := congrArg Prod.snd (Option.some.inj hm)
    rwa [ctrl_totalSize]
  | iterErase iter => rwa [iterErase_totalSize hm]

end Sizes

theorem Placed.tighten (h : a.Placed) (junk : ℕ → Option α) :
    (mclArrayTighten a junk).Placed ∨ (mclArrayTighten a junk).Lost := by
  have hfits := h.fits
  have hsmall := h.small
  have hlen := length_reallocData junk (a.curSize <<< 1) a.allData
  unfold mclArrayTighten
  dsimp only
  split
  · exact .inl h
  by_cases hcur : a.curSize.toNat < 2 ^ 30
  · have hdouble := toNat_shiftLeft_one hcur
    rw [slotsOf_eq (by omega)] at hlen
    refine .inl ⟨⟨?_, ?_⟩, ?_, ?_⟩
    · change a.curSize.toNat ≤ (reallocData junk (sizeofSlots (a.curSize <<< 1)) a.allData).length
      omega
    · change (reallocData junk (sizeofSlots (a.curSize <<< 1)) a.allData).length < 2 ^ 31
      omega
    · exact length_reallocData _ _ _
    · intro h0
      have hzero : (reallocData junk (sizeofSlots (a.curSize <<< 1)) a.allData).length = 0 := by
        rw [hlen, hdouble, show a.curSize = 0 from h0]
        rfl
      change ((reallocData junk (sizeofSlots (a.curSize <<< 1)) a.allData)[0]?).join = none
      rw [List.length_eq_zero_iff.mp hzero]
      rfl
  · refine .inr ⟨?_, Nat.le_of_not_lt hcur, ?_, rfl⟩
    · rw [slotsOf_toInt, BitVec.toInt_eq_toNat_cond, BitVec.toNat_shiftLeft, Nat.shiftLeft_eq] at hlen
      have hzero : (reallocData junk (sizeofSlots (a.curSize <<< 1)) a.allData).length = 0 := by
        split at hlen <;> omega
      exact List.length_eq_zero_iff.mp hzero
    · change a.curSize.toNat < 2 ^ 31
      omega

/-- What every array that `mcl_array_new` returns stays. -/
def Kept (a : MclArray α φ) : Prop := a.totalSize.toNat % 2 = 0 ∧ (a.Placed ∨ a.Lost)

theorem Kept.new {initSize : BitVec 32} {eraseJunk : Option φ}
    (h : mclArrayNew initSize junk eraseJunk = some (some a)) : a.Kept := by
  obtain ⟨hplaced, hmodel⟩ := new_placed h
  refine ⟨?_, .inl hplaced⟩
  change a.model.totalSize.toNat % 2 = 0
  rw [hmodel]
  change (newCapacity initSize).toNat % 2 = 0
  unfold newCapacity
  split
  · exact toNat_shiftLeft_even _
  · rfl

theorem Kept.callArray [DecidableEq α] (h : a.Kept) {call : ArrayCall α φ}
    {r : ArrayAnswer α φ × MclArray α φ} (hr : callArray a junk call = some r) : r.2.Kept := by
  obtain ⟨heven, hplaced | hlost⟩ := h
  · by_cases hcall : call = .tighten
    · subst hcall
      obtain rfl := Option.some.inj hr
      refine ⟨?_, hplaced.tighten junk⟩
      change (mclArrayTighten a junk).totalSize.toNat % 2 = 0
      unfold mclArrayTighten
      dsimp only
      split
      · exact heven
      · exact toNat_shiftLeft_even _
    · obtain ⟨hmodel, hkeep⟩ := callArray_refines hplaced hcall junk
      rw [hr] at hmodel
      exact ⟨callModel_even heven hmodel.symm, .inl (hkeep r hr)⟩
  · have hlost' := hlost.callArray hr
    refine ⟨?_, .inr hlost'⟩
    rw [hlost'.doubled]
    exact toNat_shiftLeft_even _

theorem Kept.insertsAfter_iff (h : a.Kept) (data : Option α) (index : BitVec 32) (junk : ℕ → Option α) :
    a.InsertsAfter data index junk ↔ ¬ (a.curSize = 0 ∧ index = 0 ∧ data ≠ none ∧ a.allData ≠ []) := by
  obtain ⟨heven, hplaced | hlost⟩ := h
  · have hone : a.allData.length ≠ 1 := by
      have hslots := slotsOf_toInt a.totalSize
      rw [BitVec.toInt_eq_toNat_cond] at hslots
      rw [hplaced.alloc]
      split at hslots <;> omega
    rcases bounds_cases hplaced.toInSlots index with ⟨hi, -⟩ | ⟨hnil, rfl, -⟩ | ⟨-, hne, hout⟩
    · rw [items_length hplaced.toInSlots] at hi
      refine ⟨fun _ hc => ?_, fun _ => hplaced.insertsAfter_inside hi data junk⟩
      rw [hc.1] at hi
      exact absurd hi (Nat.not_lt_zero _)
    · have h0 := (items_eq_nil_iff hplaced.toInSlots).mp hnil
      rw [hplaced.insertsAfter_empty hone h0]
      constructor
      · exact fun hnot hc => hnot hc.2.2
      · exact fun hnot hc => hnot ⟨h0, rfl, hc⟩
    · refine ⟨fun _ hc => ?_, fun _ => .refused hout (by rw [mclArrayInsert, hout, if_pos rfl])⟩
      exact hne ⟨(items_eq_nil_iff hplaced.toInSlots).mpr hc.1, hc.2.1⟩
  · refine ⟨fun _ hc => hc.2.2.2 hlost.noSlots, fun _ => ?_⟩
    cases hout : checkOutOfBounds index a with
    | true => exact .refused hout (by rw [mclArrayInsert, hout, if_pos rfl])
    | false =>
      apply InsertsAfter.noSlot
      · rw [hlost.tryExtendArray, hlost.noSlots]
        exact Nat.zero_le _
      · exact hlost.insert hout data junk

/-- After any calls, `mcl_array_insert` goes wrong on the first element of an array, and there only. -/
theorem mclArrayInsert_iff [DecidableEq α] {initSize : BitVec 32} {junk₀ : ℕ → Option α} {eraseJunk : Option φ}
    (hnew : mclArrayNew initSize junk₀ eraseJunk = some (some a₀))
    {hist : List ((ArrayCall α φ × (ℕ → Option α)) × ArrayAnswer α φ)}
    (hr : (callMachine a₀).Reach (fun _ _ => True) hist a) (data : Option α) (index : BitVec 32)
    (junk : ℕ → Option α) :
    a.InsertsAfter data index junk ↔ ¬ (a.curSize = 0 ∧ index = 0 ∧ data ≠ none ∧ a.allData ≠ []) :=
  Kept.insertsAfter_iff
    (hr.invariant (P := Kept) (Kept.new hnew) fun _ _ _ _ hs _ he => hs.callArray he) data index junk

/-- The element inserted into a new array is not in it. -/
theorem mclArrayInsert_loses :
    ¬ ∀ (a₀ a : MclArray ℕ ℕ), mclArrayNew 0 (fun _ => none) none = some (some a₀) →
      (∃ hist, (callMachine a₀).Reach (fun _ _ => True) hist a) →
        ∀ data index junk, a.InsertsAfter data index junk := by
  intro hall
  obtain ⟨a₀, hnew, hdata⟩ : ∃ a₀ : MclArray ℕ ℕ,
      mclArrayNew 0 (fun _ => none) none = some (some a₀) ∧ a₀.allData ≠ [] := ⟨_, rfl, by decide⟩
  have hins := hall a₀ a₀ hnew ⟨[], .init⟩ (some 7) 0 fun _ => none
  have h0 := (new_spec hnew).1
  exact ((Kept.new hnew).insertsAfter_iff (some 7) 0 fun _ => none).mp hins ⟨h0, rfl, by simp, hdata⟩

theorem mclArrayInsert_two :
    ∃ a : MclArray ℕ ℕ, a.elems = [some 7, some 8] ∧ a.InsertsAfter (some 9) 0 fun _ => none := by
  obtain ⟨a₀, a, hist, hnew, hrun, helems, hsize⟩ := exists_of_calls [.append (some 7), .append (some 8)]
    (fun a => a.elems = [some 7, some 8] ∧ a.curSize = 2) (by decide +kernel)
  refine ⟨a, helems, (mclArrayInsert_iff hnew (Machine.reach_of_run hrun) (some 9) 0 _).mpr ?_⟩
  intro hfirst
  rw [hsize] at hfirst
  exact absurd hfirst.1 (by decide)

end MclArray
end Mcl
