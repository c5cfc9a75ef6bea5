import Mcl.Util.ArrayRemoval

/-! Whole runs of `mcl_array.c` against an array without its block. -/
namespace Mcl
open Mcl.Library

variable {α φ : Type}

/-- The answer of a call that returns a number only. -/
def ArrayAnswer.ofRet (ret : ℤ) : ArrayAnswer α φ := ⟨ret, none, none, []⟩

namespace ArrayModel

/-- `mcl_array_insert` stores behind `index`. -/
def insert (m : ArrayModel α φ) (data : Option α) (index : BitVec 32) :
    Option (ArrayAnswer α φ × ArrayModel α φ) :=
  if index.toNat < m.items.length then
    (m.insertAt (index.toNat + 1) data).map fun m => (.ofRet ((index.toNat : ℤ) + 1), m)
  else if m.items = [] ∧ index = 0 then m.insertSecond.map fun m => (.ofRet 1, m)
  else m.refuse

/-- `mcl_array_preinsert` stores at `index`. -/
def preinsert (m : ArrayModel α φ) (data : Option α) (index : BitVec 32) :
    Option (ArrayAnswer α φ × ArrayModel α φ) :=
  if index.toNat < m.items.length ∨ m.items = [] ∧ index = 0 then
    (m.insertAt index.toNat data).map fun m => (.ofRet index.toInt, m)
  else m.refuse

/-- The slot that an empty array shows is NULL, if it exists. -/
def lookup (m : ArrayModel α φ) (index : BitVec 32) : Option (ArrayAnswer α φ × ArrayModel α φ) :=
  if m.items = [] ∧ index = 0 ∧ slotsOf m.totalSize = 0 then none
  else some (⟨0, (m.items[index.toNat]?).join, none, []⟩, m)

def ctrl (m : ArrayModel α φ) (cmd : DsCtrlCmd) (data : Option φ) : ArrayAnswer α φ × ArrayModel α φ :=
  match data with
  | none => (.ofRet 0, m)
  | some freeFn =>
    match cmd with
    | .registEraseFn => (.ofRet 1, { m with eraseFn := some freeFn })
    | .unregistEraseFn => (.ofRet 1, { m with eraseFn := none })

/-- The iterator moves to the element that has taken the place of the erased one. -/
def iterErase (m : ArrayModel α φ) (iter : ArrayIter α) : Option (ArrayAnswer α φ × ArrayModel α φ) := do
  let index ← iter.index
  if index.toNat < m.items.length then
    let items := m.items.eraseIdx index.toNat
    let next := (items[index.toNat]?).join
    some (⟨1, none, some { iter with u := .index index.toInt, ptr := next, data := next },
      callFree m.eraseFn (m.items[index.toNat]?).join⟩, { m with items := items })
  else if m.items = [] ∧ index = 0 then none
  else some (⟨0, none, some iter.unset, []⟩, m)

/-- The element at the index of an iterator. -/
def itemUnder (m : ArrayModel α φ) (iter : ArrayIter α) : Option α :=
  (iter.index.bind fun index => m.items[index.toNat]?).join

end ArrayModel

/-- Every call but `mcl_array_tighten`, which is about the block alone. -/
def callModel [DecidableEq α] (m : ArrayModel α φ) :
    ArrayCall α φ → Option (ArrayAnswer α φ × ArrayModel α φ)
  | .append data =>
    (m.insertAt m.items.length data).map fun m' => (.ofRet m.items.length, m')
  | .preappend data => (m.insertAt 0 data).map fun m => (.ofRet 0, m)
  | .insert data index => m.insert data index
  | .preinsert data index => m.preinsert data index
  | .deleteIndx index freeFn => m.deleteAt index freeFn (m.items.eraseIdx index.toNat)
  | .delete index freeFn => m.deleteAt index freeFn (m.items.set index.toNat m.items.getLast?.join).dropLast
  | .deleteObj data freeFn =>
    let i := m.items.findIdx fun x => data = x
    if i < m.items.length then
      m.deleteAt (BitVec.ofNat 32 i) freeFn (m.items.set i m.items.getLast?.join).dropLast
    else m.refuse
  | .deleteRange bindex eindex freeFn => m.deleteRange bindex eindex freeFn
  | .clean freeFn => some (m.clean freeFn)
  | .tighten => none
  | .at index => m.lookup index
  | .size => some (.ofRet m.items.length, m)
  | .ctrl cmd data => some (m.ctrl cmd data)
  | .iterErase iter => m.iterErase iter

namespace MclArray

variable {a a₀ : MclArray α φ} {junk : ℕ → Option α} {index : BitVec 32}

theorem Refines.retAnswer {r : Option (ℤ × MclArray α φ)} {m : Option (ArrayModel α φ)} {ret : ℤ}
    (h : Refines r (m.map fun m => (ret, m))) :
    Refines (r.map Mcl.retAnswer) (m.map fun m => (ArrayAnswer.ofRet ret, m)) := by
  have hret := h.mapRet (ArrayAnswer.ofRet : ℤ → ArrayAnswer α φ)
  rw [Option.map_map] at hret
  exact hret

theorem insert_refines (h : a.Placed) (data : Option α) (index : BitVec 32) (junk : ℕ → Option α) :
    Refines ((mclArrayInsert data index a junk).map retAnswer) (a.model.insert data index) := by
  unfold ArrayModel.insert
  rcases bounds_cases h.toInSlots index with ⟨hi, -⟩ | ⟨hnil, rfl, -⟩ | ⟨hi, hne, hout⟩
  · rw [if_pos hi]
    rw [items_length h.toInSlots] at hi
    exact (mclArrayInsert_refines h hi data junk).retAnswer
  · rw [if_neg (by rw [hnil]; exact Nat.not_lt_zero _), if_pos ⟨hnil, rfl⟩]
    have h0 := (items_eq_nil_iff h.toInSlots).mp hnil
    exact (mclArrayInsert_empty h h0 data junk).retAnswer
  · rw [if_neg hi, if_neg hne, mclArrayInsert, hout, if_pos rfl]
    exact .some h _

theorem preinsert_refines (h : a.Placed) (data : Option α) (index : BitVec 32) (junk : ℕ → Option α) :
    Refines ((mclArrayPreinsert data index a junk).map retAnswer) (a.model.preinsert data index) := by
  unfold ArrayModel.preinsert
  rcases bounds_cases h.toInSlots index with ⟨hi, -⟩ | ⟨hnil, rfl, hout⟩ | ⟨hi, hne, hout⟩
  · rw [if_pos (.inl hi)]
    rw [items_length h.toInSlots] at hi
    exact (mclArrayPreinsert_refines h hi data junk).retAnswer
  · rw [if_pos (.inr ⟨hnil, rfl⟩), mclArrayPreinsert, hout, if_neg Bool.false_ne_true, if_pos rfl]
    exact (mclArrayPreappend_refines h data junk).retAnswer
  · rw [if_neg (fun hc => hc.elim hi hne), mclArrayPreinsert, hout, if_pos rfl]
    exact .some h _

theorem size_refines (h : a.Placed) :
    Refines (some (Mcl.retAnswer (mclArraySize a, a))) (some (ArrayAnswer.ofRet a.model.items.length, a.model)) := by
  rw [mclArraySize, h.toInt_curSize, ← items_length h.toInSlots]
  exact .some h _

theorem at_refines (h : a.Placed) (index : BitVec 32) :
    Refines ((mclArrayAt index a).map fun data => ((⟨0, data, none, []⟩ : ArrayAnswer α φ), a))
      (a.model.lookup index) := by
  unfold ArrayModel.lookup mclArrayAt
  rcases bounds_cases h.toInSlots index with ⟨hi, hout⟩ | ⟨hnil, rfl, hout⟩ | ⟨hi, hne, hout⟩
  · have hlen := items_length h.toInSlots
    have hfits := h.fits
    have hread := read_eq h.small (i := index) (by omega)
    rw [hout, if_neg Bool.false_ne_true, hread, if_neg (fun hc => by rw [hc.1] at hi; exact absurd hi (Nat.not_lt_zero _))]
    rw [show a.model.items = a.elems from rfl, elems_getElem? (by omega),
      List.getElem?_eq_getElem (show index.toNat < a.allData.length by omega)]
    exact .some h _
  · have h0 := (items_eq_nil_iff h.toInSlots).mp hnil
    have hread : a.read (0 : BitVec 32).toInt = a.allData[0]? := if_pos (Int.le_refl _)
    have hclear := h.clear h0
    rw [hout, if_neg Bool.false_ne_true, hread]
    by_cases hslots : slotsOf a.model.totalSize = 0
    · rw [if_pos ⟨hnil, rfl, hslots⟩, List.getElem?_eq_none (by rw [h.alloc]; exact Nat.le_of_eq hslots)]
      exact .none
    · have hpos : 0 < a.allData.length := by
        rw [h.alloc]
        exact Nat.pos_of_ne_zero hslots
      rw [if_neg (fun hc => hslots hc.2.2), hnil, List.getElem?_nil]
      rw [List.getElem?_eq_getElem hpos] at hclear ⊢
      change Refines (some ((⟨0, a.allData[0], none, []⟩ : ArrayAnswer α φ), a)) _
      rw [show a.allData[0] = none from hclear]
      exact .some h _
  · rw [hout, if_pos rfl, if_neg (fun hc => hne ⟨hc.1, hc.2.1⟩), List.getElem?_eq_none (Nat.le_of_not_lt hi)]
    exact .some h _

theorem ctrl_refines (h : a.Placed) (cmd : DsCtrlCmd) (data : Option φ) :
    Refines (some (retAnswer (mclArrayCtrl cmd data a))) (some (a.model.ctrl cmd data)) := by
  have hplaced : ∀ f : Option φ, MclArray.Placed { a with eraseFn := f } := fun f =>
    ⟨⟨h.fits, h.small⟩, h.alloc, h.clear⟩
  cases data with
  | none => exact .some h _
  | some fn =>
    cases cmd with
    | registEraseFn => exact .some (hplaced (some fn)) _
    | unregistEraseFn => exact .some (hplaced none) _

/-- The iterator moves to what has come to stand at its index, NULL behind the last element. -/
theorem defIterErase_eq (h : a.InSlots) {iter : ArrayIter α} (hindex : iter.index = some index)
    (hi : index.toNat < a.curSize.toNat) :
    ∃ d x, defIterErase iter a =
        some (some { iter with u := .index index.toInt, ptr := x, data := x },
          { iter with u := .index index.toInt, ptr := x, data := x },
          { a with allData := d, curSize := a.curSize - 1 }, callFree a.eraseFn (a.elems[index.toNat]?).join) ∧
      d.length = a.allData.length ∧
      d.take (a.curSize - 1).toNat = a.elems.eraseIdx index.toNat ∧
      d[(a.curSize - 1).toNat]? = some none ∧
      x = ((a.elems.eraseIdx index.toNat)[index.toNat]?).join := by
  have hfits := h.fits
  have hsmall := h.small
  obtain ⟨d, hd, hdlen, htake, hlast⟩ := mclArrayDeleteIndx_eq h hi a.eraseFn
  have hpred := toNat_sub_one (n := a.curSize) (by omega)
  have hint := toInt_eq_toNat (n := index) (by omega)
  have hread : MclArray.read { a with allData := d, curSize := a.curSize - 1 } index.toInt =
      d[index.toNat]? := read_eq (a := { a with allData := d, curSize := a.curSize - 1 })
        (by rw [hdlen]; exact hsmall) (by rw [hdlen]; omega)
  have hnext : (d[index.toNat]?).join = ((a.elems.eraseIdx index.toNat)[index.toNat]?).join := by
    rw [← htake, hpred, List.getElem?_take]
    by_cases hlt : index.toNat < a.curSize.toNat - 1
    · rw [if_pos hlt]
    · rw [if_neg hlt, show index.toNat = (a.curSize - 1).toNat by omega, hlast]
      rfl
  obtain ⟨x, hx⟩ : ∃ x, d[index.toNat]? = some x := ⟨_, List.getElem?_eq_getElem (by omega)⟩
  rw [hx] at hnext hread
  refine ⟨d, x, ?_, hdlen, htake, hlast, hnext⟩
  simp only [defIterErase, hindex, checkOutOfBounds_of_lt h hi, hd, hread, Option.bind_eq_bind, Option.bind_some,
    Bool.false_eq_true, if_false, if_neg (show ¬ index.toInt < 0 by omega)]

theorem iterErase_refines (h : a.Placed) (iter : ArrayIter α) :
    Refines ((defIterErase iter a).map fun (ret, iter, a, freed) =>
      (⟨if ret.isSome then 1 else 0, none, some iter, freed⟩, a)) (a.model.iterErase iter) := by
  unfold ArrayModel.iterErase
  cases hindex : iter.index with
  | none =>
    simp only [defIterErase, hindex, Option.bind_eq_bind, Option.bind_none]
    exact .none
  | some index =>
    simp only [Option.bind_eq_bind, Option.bind_some]
    rcases bounds_cases h.toInSlots index with ⟨hi, hout⟩ | ⟨hnil, rfl, hout⟩ | ⟨hi, hne, hout⟩
    · have hi' : index.toNat < a.curSize.toNat := by
        rw [← items_length h.toInSlots]
        exact hi
      obtain ⟨d, x, hd, hdlen, htake, hlast, hnext⟩ := defIterErase_eq h.toInSlots hindex hi'
      have hpred := toNat_sub_one (n := a.curSize) (by omega)
      rw [if_pos hi, hd]
      constructor
      · simp only [Option.map_some, model, elems, htake, hnext, Option.isSome_some, if_true]
      · rintro x ⟨⟩
        refine h.shrunk hdlen (by omega) fun hc => ?_
        rw [hc] at hlast
        rw [show (0 : ℕ) = (0 : BitVec 32).toNat from rfl, hlast]
        rfl
    · have h0 := (items_eq_nil_iff h.toInSlots).mp hnil
      rw [if_neg (by rw [hnil]; exact Nat.not_lt_zero _), if_pos ⟨hnil, rfl⟩]
      simp only [defIterErase, hindex, hout, mclArrayDeleteIndx_empty h.toInSlots h0, Bool.false_eq_true, if_false,
        Option.bind_eq_bind, Option.bind_some, Option.bind_none]
      exact .none
    · rw [if_neg hi, if_neg hne]
      simp only [defIterErase, hindex, hout, if_true, Option.bind_eq_bind, Option.bind_some]
      exact .some h _

/-- One call. -/
theorem callArray_refines [DecidableEq α] (h : a.Placed) {call : ArrayCall α φ} (hcall : call ≠ .tighten)
    (junk : ℕ → Option α) : Refines (callArray a junk call) (callModel a.model call) := by
  cases call with
  | append data =>
    exact (mclArrayAppend_refines h data junk).retAnswer
  | preappend data =>
    exact (mclArrayPreappend_refines h data junk).retAnswer
  | insert data index => exact insert_refines h data index junk
  | preinsert data index => exact preinsert_refines h data index junk
  | deleteIndx index freeFn => exact mclArrayDeleteIndx_refines h index freeFn
  | delete index freeFn => exact mclArrayDelete_refines h index freeFn
  | deleteObj data freeFn => exact mclArrayDeleteObj_refines h data freeFn
  | deleteRange bindex eindex freeFn => exact mclArrayDeleteRange_refines h bindex eindex freeFn
  | clean freeFn => exact mclArrayClean_refines h freeFn
  | tighten => exact absurd rfl hcall
  | «at» index => exact at_refines h index
  | size => exact size_refines h
  | ctrl cmd data => exact ctrl_refines h cmd data
  | iterErase iter => exact iterErase_refines h iter

/-! The constructor. -/

theorem nullLoop_clears {n : ℕ} {i : ℕ} (h : nullLoop n i a = some a') :
    ∃ d, a' = { a with allData := d } ∧ d.length = a.allData.length ∧
      ∀ j, d[j]? = if i ≤ j ∧ j < i + n then some none else a.allData[j]? := by
  induction n generalizing a i with
  | zero =>
    obtain rfl := Option.some.inj h
    exact ⟨a.allData, rfl, rfl, fun j => by rw [if_neg (by omega)]⟩
  | succ n ih =>
    simp only [nullLoop, Option.bind_eq_bind, Option.bind_eq_some_iff] at h
    obtain ⟨b, hwrite, hrest⟩ := h
    have hlt := (write_some hwrite).2.1
    rw [write_natCast (by omega)] at hwrite
    obtain rfl := Option.some.inj hwrite
    obtain ⟨d, rfl, hlen, hslots⟩ := ih (i := i + 1) hrest
    refine ⟨d, rfl, by rw [hlen, List.length_set], fun j => ?_⟩
    rw [hslots j]
    by_cases hj : j = i
    · subst hj
      rw [if_neg (by omega), if_pos (by omega), List.getElem?_set_self (by omega)]
    · by_cases hin : i + 1 ≤ j ∧ j < i + 1 + n
      · rw [if_pos hin, if_pos (by omega)]
      · rw [if_neg hin, if_neg (by omega), List.getElem?_set_ne (by omega)]

/-- A new array is empty, over slots that are all NULL. -/
theorem new_placed {initSize : BitVec 32} {junk : ℕ → Option α} {eraseJunk : Option φ}
    (h : mclArrayNew initSize junk eraseJunk = some (some a)) :
    a.Placed ∧ a.model = ⟨[], newCapacity initSize, eraseJunk⟩ := by
  have hnew := new_spec h
  unfold mclArrayNew mclArrayNewWith at h
  split at h
  · exact absurd h (by simp)
  generalize newCapacity initSize = capacity at h ⊢
  simp only [Option.bind_eq_bind, Option.bind_eq_some_iff, Option.some.injEq] at h
  obtain ⟨b, hloop, rfl⟩ := h
  obtain ⟨d, rfl, hlen, hslots⟩ := nullLoop_clears (i := 0) hloop
  rw [length_mallocData] at hlen
  constructor
  · constructor
    · exact hnew.2
    · exact hlen
    · intro _
      change (d[0]?).join = none
      rw [hslots 0]
      split
      · rfl
      · next hnone =>
        rw [List.getElem?_eq_none]
        · rfl
        · rw [length_mallocData, slotsOf_toInt]
          omega
  · rfl

end MclArray

/-! Only erases read the destructor, and only the control calls write it. -/

namespace ArrayModel

def setErase (m : ArrayModel α φ) (f : Option φ) : ArrayModel α φ := { m with eraseFn := f }

variable {m : ArrayModel α φ}

theorem insertAt_setErase (i : ℕ) (data : Option α) (f : Option φ) :
    (m.setErase f).insertAt i data = (m.insertAt i data).map (setErase · f) := by
  unfold insertAt
  by_cases hroom : m.items.length < m.room
  · rw [if_pos hroom]
    exact if_pos hroom
  · rw [if_neg hroom]
    exact if_neg hroom

theorem insertSecond_setErase (f : Option φ) :
    (m.setErase f).insertSecond = m.insertSecond.map (setErase · f) := by
  unfold insertSecond
  by_cases hroom : 1 < m.room
  · rw [if_pos hroom]
    exact if_pos hroom
  · rw [if_neg hroom]
    exact if_neg hroom

theorem deleteAt_setErase (index : BitVec 32) (freeFn : Option φ) (items : List (Option α)) (f : Option φ) :
    (m.setErase f).deleteAt index freeFn items =
      (m.deleteAt index freeFn items).map fun r => (r.1, r.2.setErase f) := by
  unfold deleteAt
  by_cases hi : index.toNat < m.items.length
  · rw [if_pos hi]
    exact if_pos hi
  · rw [if_neg hi]
    refine (if_neg hi).trans ?_
    by_cases hempty : m.items = [] ∧ index = 0
    · rw [if_pos hempty]
      exact if_pos hempty
    · rw [if_neg hempty]
      exact if_neg hempty

theorem insert_setErase (data : Option α) (index : BitVec 32) (f : Option φ) :
    (m.setErase f).insert data index = (m.insert data index).map fun r => (r.1, r.2.setErase f) := by
  unfold insert
  by_cases hi : index.toNat < m.items.length
  · rw [if_pos hi]
    refine (if_pos hi).trans ?_
    rw [insertAt_setErase, Option.map_map, Option.map_map]
    rfl
  · rw [if_neg hi]
    refine (if_neg hi).trans ?_
    by_cases hempty : m.items = [] ∧ index = 0
    · rw [if_pos hempty]
      refine (if_pos hempty).trans ?_
      rw [insertSecond_setErase, Option.map_map, Option.map_map]
      rfl
    · rw [if_neg hempty]
      exact if_neg hempty

theorem preinsert_setErase (data : Option α) (index : BitVec 32) (f : Option φ) :
    (m.setErase f).preinsert data index = (m.preinsert data index).map fun r => (r.1, r.2.setErase f) := by
  unfold preinsert
  by_cases hi : index.toNat < m.items.length ∨ m.items = [] ∧ index = 0
  · rw [if_pos hi]
    refine (if_pos hi).trans ?_
    rw [insertAt_setErase, Option.map_map, Option.map_map]
    rfl
  · rw [if_neg hi]
    exact if_neg hi

theorem deleteRange_setErase (bindex eindex : BitVec 32) (freeFn : Option φ) (f : Option φ) :
    (m.setErase f).deleteRange bindex eindex freeFn =
      (m.deleteRange bindex eindex freeFn).map fun r => (r.1, r.2.setErase f) := by
  unfold deleteRange
  by_cases hin : bindex.toNat < m.items.length ∧ eindex.toNat < m.items.length
  · rw [if_pos hin]
    refine (if_pos hin).trans ?_
    split
    · rfl
    · split
      · rw [deleteAt_setErase, Option.map_map, Option.map_map]
        rfl
      · rfl
  · rw [if_neg hin]
    refine (if_neg hin).trans ?_
    by_cases hempty : m.items = [] ∧ bindex = 0 ∧ eindex = 0
    · rw [if_pos hempty]
      exact if_pos hempty
    · rw [if_neg hempty]
      exact if_neg hempty

theorem lookup_setErase (index : BitVec 32) (f : Option φ) :
    (m.setErase f).lookup index = (m.lookup index).map fun r => (r.1, r.2.setErase f) := by
  unfold lookup
  by_cases hempty : m.items = [] ∧ index = 0 ∧ slotsOf m.totalSize = 0
  · rw [if_pos hempty]
    exact if_pos hempty
  · rw [if_neg hempty]
    exact if_neg hempty

end ArrayModel

variable [DecidableEq α] {m m' : ArrayModel α φ}

theorem callModel_setErase {call : ArrayCall α φ} (hctrl : ∀ cmd data, call ≠ .ctrl cmd data)
    (herase : ∀ iter, call ≠ .iterErase iter) (f : Option φ) :
    callModel (m.setErase f) call = (callModel m call).map fun r => (r.1, r.2.setErase f) := by
  cases call with
  | append data =>
    simp only [callModel, ArrayModel.insertAt_setErase, Option.map_map]
    rfl
  | preappend data =>
    simp only [callModel, ArrayModel.insertAt_setErase, Option.map_map]
    rfl
  | insert data index => exact ArrayModel.insert_setErase data index f
  | preinsert data index => exact ArrayModel.preinsert_setErase data index f
  | deleteIndx index freeFn => exact ArrayModel.deleteAt_setErase _ _ _ f
  | delete index freeFn => exact ArrayModel.deleteAt_setErase _ _ _ f
  | deleteObj data freeFn =>
    unfold callModel
    dsimp only
    by_cases hi : (m.items.findIdx fun x => data = x) < m.items.length
    · rw [if_pos hi]
      exact (if_pos hi).trans (ArrayModel.deleteAt_setErase _ _ _ f)
    · rw [if_neg hi]
      exact if_neg hi
  | deleteRange bindex eindex freeFn => exact ArrayModel.deleteRange_setErase bindex eindex freeFn f
  | clean freeFn => rfl
  | tighten => rfl
  | «at» index => exact ArrayModel.lookup_setErase index f
  | size => rfl
  | ctrl cmd data => exact absurd rfl (hctrl cmd data)
  | iterErase iter => exact absurd rfl (herase iter)

theorem callModel_eraseFn {call : ArrayCall α φ} {r : ArrayAnswer α φ} (h : callModel m call = some (r, m'))
    (hctrl : ∀ cmd data, call ≠ .ctrl cmd data) : m'.eraseFn = m.eraseFn := by
  by_cases herase : ∃ iter, call = .iterErase iter
  · obtain ⟨iter, rfl⟩ := herase
    simp only [callModel, ArrayModel.iterErase, Option.bind_eq_bind, Option.bind_eq_some_iff] at h
    obtain ⟨index, -, h⟩ := h
    split at h
    · obtain ⟨-, rfl⟩ := Prod.mk.inj (Option.some.inj h)
      rfl
    · split at h
      · exact absurd h (by simp)
      · obtain ⟨-, rfl⟩ := Prod.mk.inj (Option.some.inj h)
        rfl
  · -- the call does not notice that the field is set to what it is
    have hset := callModel_setErase (m := m) hctrl (fun iter hc => herase ⟨iter, hc⟩) m.eraseFn
    rw [h, Option.map_some, show m.setErase m.eraseFn = m from rfl, h] at hset
    rw [(Prod.mk.inj (Option.some.inj hset)).2]
    rfl

theorem callModel_iterErase (m : ArrayModel α φ) (iter : ArrayIter α) (f : Option φ) :
    callModel (m.setErase f) (.iterErase iter) =
      (callModel m (.iterErase iter)).map fun r =>
        ({ r.1 with freed := callFree f (m.itemUnder iter) }, r.2.setErase f) := by
  change (m.setErase f).iterErase iter = (m.iterErase iter).map _
  unfold ArrayModel.iterErase ArrayModel.itemUnder
  cases hindex : iter.index with
  | none => rfl
  | some index =>
    simp only [Option.bind_eq_bind, Option.bind_some]
    by_cases hi : index.toNat < m.items.length
    · rw [if_pos hi]
      exact if_pos hi
    · rw [if_neg hi]
      refine (if_neg hi).trans ?_
      by_cases hempty : m.items = [] ∧ index = 0
      · rw [if_pos hempty]
        exact if_pos hempty
      · rw [if_neg hempty, List.getElem?_eq_none (Nat.le_of_not_lt hi)]
        exact if_neg hempty

theorem callModel_ctrl (m : ArrayModel α φ) (cmd : DsCtrlCmd) (data : Option φ) (f : Option φ) :
    callModel (m.setErase f) (.ctrl cmd data) =
      (callModel m (.ctrl cmd data)).map fun r =>
        (r.1, r.2.setErase (((m.setErase f).ctrl cmd data).2.eraseFn)) := by
  cases data with
  | none => rfl
  | some fn => cases cmd <;> rfl

end Mcl
