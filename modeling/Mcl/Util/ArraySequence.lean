import Mcl.Util.ArrayGrowth
import Mcl.Util.ArrayObjects

/-! An array is a sequence: over whole runs, with every call of `mcl_array.h`. -/
namespace Mcl
open Mcl.Library

variable {α φ : Type}

/-- What the user of an array means by it. -/
structure Sequence (α φ : Type) where
  items : List (Option α)
  eraseFn : Option φ

namespace Sequence

variable (s : Sequence α φ)

def set (ret : ℤ) (items : List (Option α)) (freed : Freed φ α) : ArrayAnswer α φ × Sequence α φ :=
  (⟨ret, none, none, freed⟩, { s with items := items })

def refuse : ArrayAnswer α φ × Sequence α φ := s.set (-1) s.items []

/-- The element at `index` goes and `items` stay. -/
def delete (index : BitVec 32) (freeFn : Option φ) (items : List (Option α)) : ArrayAnswer α φ × Sequence α φ :=
  if index.toNat < s.items.length then s.set index.toInt items (callFree freeFn (s.items[index.toNat]?).join)
  else s.refuse

def deleteRange (bindex eindex : BitVec 32) (freeFn : Option φ) : ArrayAnswer α φ × Sequence α φ :=
  if bindex.toNat < eindex.toNat ∧ eindex.toNat < s.items.length then
    s.set ((eindex.toNat : ℤ) - bindex.toNat) (s.items.take bindex.toNat ++ s.items.drop eindex.toNat)
      (callFrees freeFn ((s.items.drop bindex.toNat).take (eindex.toNat - bindex.toNat)))
  else if bindex = eindex ∧ bindex.toNat < s.items.length then
    s.set 1 (s.items.eraseIdx bindex.toNat) (callFree freeFn (s.items[bindex.toNat]?).join)
  else s.refuse

/-- An iterator is on the element at its index. -/
def erase (iter : ArrayIter α) (index : BitVec 32) : ArrayAnswer α φ × Sequence α φ :=
  if index.toNat < s.items.length then
    let items := s.items.eraseIdx index.toNat
    let next := (items[index.toNat]?).join
    (⟨1, none, some { iter with u := .index index.toInt, ptr := next, data := next },
      callFree s.eraseFn (s.items[index.toNat]?).join⟩, { s with items := items })
  else (⟨0, none, some iter.unset, []⟩, s)

def ctrl (cmd : DsCtrlCmd) : Option φ → ArrayAnswer α φ × Sequence α φ
  | none => (.ofRet 0, s)
  | some freeFn =>
    match cmd with
    | .registEraseFn => (.ofRet 1, { s with eraseFn := some freeFn })
    | .unregistEraseFn => (.ofRet 1, { s with eraseFn := none })

/-- Every call on a sequence. Capacity is nothing that it knows of. -/
def call [DecidableEq α] : ArrayCall α φ → ArrayAnswer α φ × Sequence α φ
  | .append data => s.set s.items.length (s.items ++ [data]) []
  | .preappend data => s.set 0 (data :: s.items) []
  | .insert data index =>
    if index.toNat < s.items.length then s.set (index.toNat + 1) (s.items.insertIdx (index.toNat + 1) data) []
    else s.refuse
  | .preinsert data index =>
    if index.toNat < s.items.length ∨ s.items = [] ∧ index = 0 then
      s.set index.toInt (s.items.insertIdx index.toNat data) []
    else s.refuse
  | .deleteIndx index freeFn => s.delete index freeFn (s.items.eraseIdx index.toNat)
  | .delete index freeFn => s.delete index freeFn (s.items.set index.toNat s.items.getLast?.join).dropLast
  | .deleteObj data freeFn =>
    if data ∈ s.items then
      s.set (s.items.idxOf data) (s.items.set (s.items.idxOf data) s.items.getLast?.join).dropLast (callFree freeFn data)
    else s.refuse
  | .deleteRange bindex eindex freeFn => s.deleteRange bindex eindex freeFn
  | .clean freeFn => s.set 0 [] (callFrees freeFn s.items)
  | .tighten => s.set 0 s.items []
  | .at index => (⟨0, (s.items[index.toNat]?).join, none, []⟩, s)
  | .size => (.ofRet s.items.length, s)
  | .ctrl cmd data => s.ctrl cmd data
  | .iterErase iter =>
    match iter.index with
    | none => s.refuse
    | some index => s.erase iter index

end Sequence

def sequenceMachine [DecidableEq α] (eraseFn : Option φ) :
    Machine (Sequence α φ) (ArrayCall α φ × (ℕ → Option α)) (ArrayAnswer α φ) :=
  ⟨⟨[], eraseFn⟩, fun s c => some (s.call c.1)⟩

/-- The index that a call passes to the checks of `mcl_array.c`. -/
def ArrayCall.index : ArrayCall α φ → Option (BitVec 32)
  | insert _ index | deleteIndx index _ | delete index _ => some index
  | deleteRange bindex eindex _ => if bindex = eindex then some bindex else none
  | iterErase iter => iter.index
  | _ => none

/-- A call that needs a slot of the block although the array may be empty. -/
def ArrayCall.touches : ArrayCall α φ → Bool
  | append _ | preappend _ => true
  | preinsert _ index | .at index => index = 0
  | _ => false

/-- An iterator that is passed has been on an array. -/
def ArrayCall.indexed : ArrayCall α φ → Bool
  | iterErase iter => iter.index.isSome
  | _ => true

namespace ArrayModel

variable {m m' : ArrayModel α φ} {r : ArrayAnswer α φ} {index : BitVec 32}

def sequence (m : ArrayModel α φ) : Sequence α φ := ⟨m.items, m.eraseFn⟩

/-- The model answers and changes as the sequence does. -/
def Agrees (x : Option (ArrayAnswer α φ × ArrayModel α φ)) (y : ArrayAnswer α φ × Sequence α φ) : Prop :=
  x.map (fun x => (x.1, x.2.sequence)) = some y

theorem insertAt_agrees (i : ℕ) (data : Option α) (ret : ℤ) (hroom : m.items.length < m.room) :
    Agrees ((m.insertAt i data).map fun m => (.ofRet ret, m)) (m.sequence.set ret (m.items.insertIdx i data) []) := by
  rw [insertAt, if_pos hroom]
  rfl

theorem deleteAt_agrees {freeFn : Option φ} {items : List (Option α)} (hindex : m.items = [] → index ≠ 0) :
    Agrees (m.deleteAt index freeFn items) (m.sequence.delete index freeFn items) := by
  unfold deleteAt Sequence.delete
  by_cases hi : index.toNat < m.items.length
  · rw [if_pos hi]
    exact (congrArg some (if_pos hi)).symm
  · rw [if_neg hi, if_neg (fun hc => hindex hc.1 hc.2)]
    exact (congrArg some (if_neg hi)).symm

theorem deleteRange_agrees {bindex eindex : BitVec 32} {freeFn : Option φ}
    (hindex : m.items = [] → bindex = eindex → bindex ≠ 0) :
    Agrees (m.deleteRange bindex eindex freeFn) (m.sequence.deleteRange bindex eindex freeFn) := by
  unfold deleteRange Sequence.deleteRange
  by_cases hin : bindex.toNat < m.items.length ∧ eindex.toNat < m.items.length
  · rw [if_pos hin]
    by_cases hgt : eindex.toNat < bindex.toNat
    · rw [if_pos hgt, if_neg (fun hc => by omega), if_neg (fun hc => by rw [hc.1] at hgt; omega)]
      rfl
    · rw [if_neg hgt]
      by_cases heq : bindex = eindex
      · subst heq
        rw [if_pos rfl, if_neg (fun hc => by omega), if_pos ⟨rfl, hin.1⟩, deleteAt, if_pos hin.1]
        rfl
      · have hne : bindex.toNat ≠ eindex.toNat := fun hc => heq (BitVec.eq_of_toNat_eq hc)
        rw [if_neg heq, if_pos ⟨by omega, hin.2⟩]
        rfl
  · have hempty : ¬ (m.items = [] ∧ bindex = 0 ∧ eindex = 0) := fun hc =>
      hindex hc.1 (hc.2.1.trans hc.2.2.symm) hc.2.1
    rw [if_neg hin, if_neg hempty, if_neg (fun hc => hin ⟨Nat.lt_trans hc.1 hc.2, hc.2⟩)]
    rw [if_neg (fun hc => hin ⟨hc.2, by rw [← hc.1]; exact hc.2⟩)]
    rfl

theorem deleteObj_agrees [DecidableEq α] {data : Option α} {freeFn : Option φ} (hsmall : m.items.length < 2 ^ 31) :
    Agrees (callModel m (.deleteObj data freeFn)) (m.sequence.call (.deleteObj data freeFn)) := by
  unfold callModel Sequence.call
  dsimp only
  rw [show (m.items.findIdx fun x => data = x) = m.items.idxOf data from MclArray.findIdx_eq_idxOf data m.items]
  by_cases hmem : data ∈ m.items
  · have hlt : m.items.idxOf data < m.items.length := List.idxOf_lt_length_of_mem hmem
    have hnat : (BitVec.ofNat 32 (m.items.idxOf data)).toNat = m.items.idxOf data := by
      rw [BitVec.toNat_ofNat]
      exact Nat.mod_eq_of_lt (by omega)
    have hint : (BitVec.ofNat 32 (m.items.idxOf data)).toInt = m.items.idxOf data := by
      rw [toInt_eq_toNat (by omega), hnat]
    rw [if_pos hlt, deleteAt, hnat, if_pos hlt, hint, List.getElem?_eq_getElem hlt, List.getElem_idxOf hlt]
    exact (congrArg some (if_pos hmem)).symm
  · rw [if_neg (fun hc => hmem (List.idxOf_lt_length_iff.mp hc))]
    exact (congrArg some (if_neg hmem)).symm

theorem lookup_agrees (hslots : m.items = [] → index = 0 → slotsOf m.totalSize ≠ 0) :
    Agrees (m.lookup index) (⟨0, (m.items[index.toNat]?).join, none, []⟩, m.sequence) := by
  rw [lookup, if_neg (fun hc => hslots hc.1 hc.2.1 hc.2.2)]
  rfl

theorem ctrl_agrees (cmd : DsCtrlCmd) (data : Option φ) : Agrees (some (m.ctrl cmd data)) (m.sequence.ctrl cmd data) := by
  cases data with
  | none => rfl
  | some freeFn => cases cmd <;> rfl

theorem iterErase_agrees {iter : ArrayIter α} (hi : iter.index = some index) (hindex : m.items = [] → index ≠ 0) :
    Agrees (m.iterErase iter) (m.sequence.erase iter index) := by
  unfold iterErase Sequence.erase
  rw [hi]
  by_cases hlt : index.toNat < m.items.length
  · refine Eq.trans ?_ (congrArg some (if_pos hlt)).symm
    rw [Option.bind_eq_bind, Option.bind_some, if_pos hlt]
    rfl
  · refine Eq.trans ?_ (congrArg some (if_neg hlt)).symm
    rw [Option.bind_eq_bind, Option.bind_some, if_neg hlt, if_neg (fun hc => hindex hc.1 hc.2)]
    rfl

/-- What the calls on an empty array have to keep to. -/
structure Accepts (m : ArrayModel α φ) (call : ArrayCall α φ) : Prop where
  small : m.items.length < 2 ^ 31
  room : m.items ≠ [] ∨ call.touches = true → m.items.length < m.room
  index : m.items = [] → call.index ≠ some 0
  slots : m.items = [] → call.touches = true → slotsOf m.totalSize ≠ 0
  indexed : call.indexed = true

theorem callModel_agrees [DecidableEq α] {call : ArrayCall α φ} (h : m.Accepts call) (hcall : call ≠ .tighten) :
    Agrees (callModel m call) (m.sequence.call call) := by
  have hne : ∀ {index : BitVec 32}, call.index = some index → m.items = [] → index ≠ 0 :=
    fun hc hnil h0 => h.index hnil (hc.trans (congrArg some h0))
  have hinside : ∀ {index : BitVec 32}, index.toNat < m.items.length → m.items ≠ [] :=
    fun hi hnil => absurd hi (by rw [hnil]; exact Nat.not_lt_zero _)
  cases call with
  | append data =>
    have hins := insertAt_agrees m.items.length data m.items.length (h.room (.inr rfl))
    rw [List.insertIdx_length_self] at hins
    exact hins
  | preappend data => exact insertAt_agrees 0 data 0 (h.room (.inr rfl))
  | insert data index =>
    by_cases hi : index.toNat < m.items.length
    · have hins := insertAt_agrees (index.toNat + 1) data (index.toNat + 1)
        (h.room (.inl (hinside hi)))
      rw [callModel, insert, if_pos hi]
      exact hins.trans (congrArg some (if_pos hi)).symm
    · rw [callModel, insert, if_neg hi, if_neg (fun hc => hne rfl hc.1 hc.2)]
      exact (congrArg some (if_neg hi)).symm
  | preinsert data index =>
    by_cases hi : index.toNat < m.items.length ∨ m.items = [] ∧ index = 0
    · have hroom : m.items.length < m.room := by
        rcases hi with hlt | ⟨-, h0⟩
        · exact h.room (.inl (hinside hlt))
        · exact h.room (.inr (decide_eq_true h0))
      rw [callModel, preinsert, if_pos hi]
      exact (insertAt_agrees _ data _ hroom).trans (congrArg some (if_pos hi)).symm
    · rw [callModel, preinsert, if_neg hi]
      exact (congrArg some (if_neg hi)).symm
  | deleteIndx index freeFn => exact deleteAt_agrees (hne rfl)
  | delete index freeFn => exact deleteAt_agrees (hne rfl)
  | deleteObj data freeFn => exact deleteObj_agrees h.small
  | deleteRange bindex eindex freeFn => exact deleteRange_agrees fun hnil heq => hne (if_pos heq) hnil
  | clean freeFn => rfl
  | tighten => exact absurd rfl hcall
  | «at» index => exact lookup_agrees fun hnil h0 => h.slots hnil (decide_eq_true h0)
  | size => rfl
  | ctrl cmd data => exact ctrl_agrees cmd data
  | iterErase iter =>
    obtain ⟨index, hi⟩ := Option.isSome_iff_exists.mp h.indexed
    have hcall : m.sequence.call (.iterErase iter) = m.sequence.erase iter index := by rw [Sequence.call, hi]
    rw [hcall]
    exact iterErase_agrees hi (hne hi)

end ArrayModel

/-- The calls on which an array is one: index 0 of an empty array gets past the checks, and
`mcl_array_tighten` leaves an empty one without any slot. -/
structure Regular (a : MclArray α φ) (call : ArrayCall α φ) : Prop where
  small : a.curSize.toNat < 2 ^ 30
  index : a.curSize = 0 → call.index ≠ some 0
  slots : a.curSize = 0 → call.touches = true → a.allData ≠ []
  indexed : call.indexed = true

instance (a : MclArray α φ) (call : ArrayCall α φ) : Decidable (Regular a call) :=
  decidable_of_iff (a.curSize.toNat < 2 ^ 30 ∧ (a.curSize = 0 → call.index ≠ some 0) ∧
      (a.curSize = 0 → call.touches = true → a.allData ≠ []) ∧ call.indexed = true)
    ⟨fun h => ⟨h.1, h.2.1, h.2.2.1, h.2.2.2⟩, fun h => ⟨h.small, h.index, h.slots, h.indexed⟩⟩

namespace MclArray

variable {a a' a₀ : MclArray α φ}

def sequence (a : MclArray α φ) : Sequence α φ := a.model.sequence

/-- Below `2 ^ 30` elements there is always room, but for what `mcl_array_tighten` leaves of an empty array. -/
theorem Placed.room (h : a.Placed) (hsmall : a.curSize.toNat < 2 ^ 30) (hslots : a.curSize = 0 → a.allData ≠ []) :
    a.curSize.toNat < a.model.room := by
  have hfits := h.fits
  have halloc := h.alloc
  change _ < slotsOf (grownSize a.totalSize (BitVec.ofNat 32 a.elems.length))
  rw [ofNat_length h.toInSlots]
  by_cases hfree : a.curSize.toNat < a.allData.length
  · unfold grownSize
    split
    · next hfull =>
      obtain ⟨hold, hnew⟩ := slotsOf_grown hfull.2
      have hbound := slotsOf_lt a.totalSize
      have hle := hfull.1
      rw [sle_iff_toNat (by omega) (by omega)] at hle
      omega
    · omega
  · have hpos : 0 < a.allData.length := by
      by_contra hzero
      have h0 : a.curSize = 0 := BitVec.eq_of_toNat_eq (show a.curSize.toNat = 0 by omega)
      exact hslots h0 (List.length_eq_zero_iff.mp (by omega))
    have htotal : a.totalSize.toNat = a.curSize.toNat := by
      have hslotsOf := slotsOf_toInt a.totalSize
      rw [BitVec.toInt_eq_toNat_cond] at hslotsOf
      split at hslotsOf <;> omega
    have hdouble := toNat_shiftLeft_one (n := a.totalSize) (by omega)
    have hsle := (sle_iff_toNat (n := a.totalSize) (m := a.curSize) (by omega) (by omega)).mpr (Nat.le_of_eq htotal)
    have hule : (a.totalSize <<< 1).ule a.totalSize = false := by
      rw [BitVec.ule, decide_eq_false_iff_not]
      omega
    rw [grownSize, if_pos ⟨hsle, hule⟩, slotsOf_eq (by omega)]
    omega

theorem Placed.accepts (h : a.Placed) {call : ArrayCall α φ} (hreg : Regular a call) : a.model.Accepts call := by
  have hlen := items_length h.toInSlots
  have hsmall := hreg.small
  have hnil := items_eq_nil_iff h.toInSlots
  refine ⟨by omega, fun huse => ?_, fun h0 => hreg.index (hnil.mp h0), fun h0 htouch => ?_, hreg.indexed⟩
  · rw [hlen]
    refine h.room hsmall fun h0 => ?_
    rcases huse with hne | htouch
    · exact absurd (hnil.mpr h0) hne
    · exact hreg.slots h0 htouch
  · rw [show a.model.totalSize = a.totalSize from rfl, ← h.alloc]
    exact fun hzero => hreg.slots (hnil.mp h0) htouch (List.length_eq_zero_iff.mp hzero)

theorem Placed.tighten_sequence (h : a.Placed) (hsmall : a.curSize.toNat < 2 ^ 30) (junk : ℕ → Option α) :
    (mclArrayTighten a junk).Placed ∧ (mclArrayTighten a junk).sequence = a.sequence := by
  constructor
  · rcases h.tighten junk with hplaced | hlost
    · exact hplaced
    · have hbig := hlost.big
      have hcur : (mclArrayTighten a junk).curSize = a.curSize := by
        unfold mclArrayTighten
        dsimp only
        split <;> rfl
      rw [hcur] at hbig
      omega
  · have hfits := h.fits
    have hdouble := toNat_shiftLeft_one hsmall
    unfold mclArrayTighten
    dsimp only
    split
    · rfl
    · have hitems : (reallocData junk (sizeofSlots (a.curSize <<< 1)) a.allData).take a.curSize.toNat = a.elems := by
        rw [reallocData, ← slotsOf, slotsOf_eq (by omega), hdouble, List.take_append_of_le_length, List.take_take,
          Nat.min_eq_left (by omega)]
        · rfl
        · rw [List.length_take]
          omega
      exact congrArg (Sequence.mk · a.eraseFn) hitems

/-- One call on an array that is one. -/
theorem Placed.call_sequence [DecidableEq α] (h : a.Placed) {call : ArrayCall α φ} (hreg : Regular a call)
    (junk : ℕ → Option α) : ∃ a', Mcl.callArray a junk call = some ((a.sequence.call call).1, a') ∧ a'.Placed ∧
      a'.sequence = (a.sequence.call call).2 := by
  by_cases hcall : call = .tighten
  · subst hcall
    obtain ⟨hplaced, hseq⟩ := h.tighten_sequence hreg.small junk
    exact ⟨_, rfl, hplaced, hseq⟩
  · obtain ⟨hmodel, hkeep⟩ := callArray_refines h hcall junk
    have hagrees := ArrayModel.callModel_agrees (h.accepts hreg) hcall
    rw [← hmodel] at hagrees
    obtain ⟨x, hx, heq⟩ := Option.map_eq_some_iff.mp hagrees
    obtain ⟨⟨r, a'⟩, hr, rfl⟩ := Option.map_eq_some_iff.mp hx
    obtain ⟨hans, hseq⟩ := Prod.mk.inj heq
    refine ⟨a', ?_, hkeep _ hr, hseq⟩
    rw [hr]
    exact congrArg (fun r => some (r, a')) hans

/-- From `mcl_array_new` on, whatever calls are mixed: as long as each is a regular one, the next regular
one runs without an access outside the block, and all have answered as on a sequence. -/
theorem mclArray_isSequence [DecidableEq α] {initSize : BitVec 32} {junk : ℕ → Option α} {eraseJunk : Option φ}
    (hnew : mclArrayNew initSize junk eraseJunk = some (some a₀))
    {hist : List ((ArrayCall α φ × (ℕ → Option α)) × ArrayAnswer α φ)}
    (hr : (callMachine a₀).Reach (fun a c => Regular a c.1) hist a) :
    (sequenceMachine eraseJunk).run (hist.map Prod.fst) = some (hist, a.sequence) ∧
      ∀ call junk, Regular a call → ∃ r a', Mcl.callArray a junk call = some (r, a') := by
  obtain ⟨hplaced, hmodel⟩ := new_placed hnew
  have hinit : a₀.Placed ∧ a₀.sequence = ⟨[], eraseJunk⟩ := ⟨hplaced, by rw [sequence, hmodel]; rfl⟩
  obtain ⟨s, hrun, hplaced', rfl⟩ := hr.simulates (N := sequenceMachine eraseJunk)
    (R := fun a s => a.Placed ∧ a.sequence = s) hinit (by
      rintro a _ c r a' ⟨hplaced, rfl⟩ hreg hs
      obtain ⟨a'', hcall, hplaced', hseq⟩ := hplaced.call_sequence hreg c.2
      obtain ⟨rfl, rfl⟩ := Prod.mk.inj (Option.some.inj (hs.symm.trans hcall))
      exact ⟨_, rfl, hplaced', hseq⟩)
  refine ⟨hrun, fun call junk hreg => ?_⟩
  obtain ⟨a', hcall, -⟩ := hplaced'.call_sequence hreg junk
  exact ⟨_, a', hcall⟩

/-- A run of calls of most kinds, and one more. -/
theorem mclArray_isSequence_mixed : ∃ hist, ∃ a : MclArray ℕ ℕ,
    (sequenceMachine none).run (hist.map Prod.fst) = some (hist, a.sequence) ∧ a.elems = [some 8] ∧
      ∃ r a', Mcl.callArray a (fun _ => none) (.delete 0 (some 0)) = some (r, a') := by
  let a₀ : MclArray ℕ ℕ := ⟨List.replicate 64 none, 0, 64, none⟩
  have hnew : mclArrayNew 0 (fun _ => none) none = some (some a₀) := rfl
  obtain ⟨hist, a, hr, helems, hlast⟩ := (callMachine a₀).exists_of_restrict (fun a c => decide (Regular a c.1))
    ([.append (some 7), .preappend none, .ctrl .registEraseFn (some 3), .insert (some 8) 0, .preinsert (some 9) 1,
      .deleteObj none none, .tighten, .deleteIndx 1 (some 2), .at 0, .size, .deleteRange 0 1 none].map fun call =>
        (call, fun _ => none))
    (fun r => r.2.elems = [some 8] ∧ Regular r.2 (.delete 0 (some 0))) (by decide +kernel)
  have hreg : (callMachine a₀).Reach (fun a c => Regular a c.1) hist a := hr.mono fun _ _ hx => of_decide_eq_true hx
  obtain ⟨hrun, hnext⟩ := mclArray_isSequence hnew hreg
  exact ⟨hist, a, hrun, helems, hnext _ _ hlast⟩

end MclArray
end Mcl
