import Mcl.Util.ArrayKept

/-! What the growth of an array costs over whole runs. -/
namespace Mcl
open Mcl.Library

variable {α φ : Type}

/-- A call that puts an element into the array. -/
def ArrayCall.inserts : ArrayCall α φ → Bool
  | append _ | preappend _ | insert _ _ | preinsert _ _ => true
  | _ => false

/-- An insertion that was not refused. -/
def stored (x : (ArrayCall α φ × (ℕ → Option α)) × ArrayAnswer α φ) : Bool := x.1.1.inserts && decide (0 ≤ x.2.ret)

/-- The slots that a `realloc` to a larger block copies. -/
def grown (a : MclArray α φ) (_ : ArrayCall α φ × (ℕ → Option α)) (a' : MclArray α φ) : List ℕ :=
  if a.allData.length < a'.allData.length then [a.allData.length] else []

namespace ArrayModel

variable {m m' : ArrayModel α φ} {r : ArrayAnswer α φ} {data : Option α} {index : BitVec 32} {i : ℕ}

/-- The block stays and no element is new. -/
structure Shrinks (m m' : ArrayModel α φ) : Prop where
  totalSize : m'.totalSize = m.totalSize
  length : m'.items.length ≤ m.items.length

/-- There is one more element, and a slot for it. -/
structure Gains (m m' : ArrayModel α φ) : Prop where
  room : m.items.length < m.room
  totalSize : m'.totalSize = grownSize m.totalSize (BitVec.ofNat 32 m.items.length)
  length : m'.items.length = m.items.length + 1

theorem Shrinks.refl (m : ArrayModel α φ) : Shrinks m m := ⟨rfl, Nat.le_refl _⟩

theorem refuse_shrinks (hm : m.refuse = some (r, m')) : Shrinks m m' := by
  obtain ⟨-, rfl⟩ := Prod.mk.inj (Option.some.inj hm)
  exact .refl m

theorem deleteAt_shrinks {freeFn : Option φ} {items : List (Option α)} (hlen : items.length ≤ m.items.length)
    (hm : m.deleteAt index freeFn items = some (r, m')) : Shrinks m m' := by
  unfold deleteAt at hm
  split at hm
  · obtain ⟨-, rfl⟩ := Prod.mk.inj (Option.some.inj hm)
    exact ⟨rfl, hlen⟩
  · split at hm
    · exact absurd hm (by simp)
    · exact refuse_shrinks hm

theorem deleteRange_shrinks {bindex eindex : BitVec 32} {freeFn : Option φ}
    (hm : m.deleteRange bindex eindex freeFn = some (r, m')) : Shrinks m m' := by
  unfold deleteRange at hm
  split at hm
  · split at hm
    · exact refuse_shrinks hm
    · split at hm
      · obtain ⟨r', hd, heq⟩ := Option.map_eq_some_iff.mp hm
        obtain ⟨-, rfl⟩ := Prod.mk.inj heq
        exact deleteAt_shrinks (List.length_eraseIdx_le _ _) hd
      · obtain ⟨-, rfl⟩ := Prod.mk.inj (Option.some.inj hm)
        refine ⟨rfl, ?_⟩
        simp only [List.length_append, List.length_take, List.length_drop]
        omega
  · split at hm
    · exact absurd hm (by simp)
    · exact refuse_shrinks hm

theorem lookup_shrinks (hm : m.lookup index = some (r, m')) : Shrinks m m' := by
  unfold lookup at hm
  split at hm
  · exact absurd hm (by simp)
  · obtain ⟨-, rfl⟩ := Prod.mk.inj (Option.some.inj hm)
    exact .refl m

theorem ctrl_shrinks (cmd : DsCtrlCmd) (data : Option φ) : Shrinks m (m.ctrl cmd data).2 := by
  cases data with
  | none => exact .refl m
  | some fn => cases cmd <;> exact ⟨rfl, Nat.le_refl _⟩

theorem iterErase_shrinks {iter : ArrayIter α} (hm : m.iterErase iter = some (r, m')) : Shrinks m m' := by
  simp only [iterErase, Option.bind_eq_bind, Option.bind_eq_some_iff] at hm
  obtain ⟨index, -, hm⟩ := hm
  split at hm
  · obtain ⟨-, rfl⟩ := Prod.mk.inj (Option.some.inj hm)
    exact ⟨rfl, List.length_eraseIdx_le _ _⟩
  · split at hm
    · exact absurd hm (by simp)
    · obtain ⟨-, rfl⟩ := Prod.mk.inj (Option.some.inj hm)
      exact .refl m

theorem insertAt_gains (hi : i ≤ m.items.length) (hm : m.insertAt i data = some m') : Gains m m' := by
  obtain ⟨hroom, heq⟩ := Option.ite_none_right_eq_some.mp hm
  obtain rfl := Option.some.inj heq
  exact ⟨hroom, rfl, List.length_insertIdx_of_le_length hi data⟩

theorem insertSecond_gains (hnil : m.items = []) (hm : m.insertSecond = some m') : Gains m m' := by
  obtain ⟨hroom, heq⟩ := Option.ite_none_right_eq_some.mp hm
  obtain rfl := Option.some.inj heq
  refine ⟨?_, rfl, ?_⟩
  · rw [hnil]
    exact Nat.zero_lt_of_lt hroom
  · rw [hnil]
    rfl

/-- What an insertion does, whatever it returns. -/
def Stores (m : ArrayModel α φ) (r : ArrayAnswer α φ) (m' : ArrayModel α φ) : Prop :=
  (0 ≤ r.ret ∧ Gains m m') ∨ (r.ret < 0 ∧ Shrinks m m')

theorem insert_stores (hm : m.insert data index = some (r, m')) : Stores m r m' := by
  unfold insert at hm
  split at hm
  · next hi =>
    obtain ⟨m'', hins, heq⟩ := Option.map_eq_some_iff.mp hm
    obtain ⟨rfl, rfl⟩ := Prod.mk.inj heq
    exact .inl ⟨Int.add_nonneg (Int.natCast_nonneg _) Int.one_nonneg, insertAt_gains hi hins⟩
  · split at hm
    · next hempty =>
      obtain ⟨m'', hins, heq⟩ := Option.map_eq_some_iff.mp hm
      obtain ⟨rfl, rfl⟩ := Prod.mk.inj heq
      exact .inl ⟨Int.one_nonneg, insertSecond_gains hempty.1 hins⟩
    · have hsame := refuse_shrinks hm
      obtain ⟨rfl, -⟩ := Prod.mk.inj (Option.some.inj hm)
      exact .inr ⟨Int.negSucc_lt_zero 0, hsame⟩

theorem preinsert_stores (hsmall : m.items.length < 2 ^ 31) (hm : m.preinsert data index = some (r, m')) :
    Stores m r m' := by
  unfold preinsert at hm
  split at hm
  · next hi =>
    obtain ⟨m'', hins, heq⟩ := Option.map_eq_some_iff.mp hm
    obtain ⟨rfl, rfl⟩ := Prod.mk.inj heq
    have hindex : index.toNat ≤ m.items.length := by
      rcases hi with hlt | ⟨-, rfl⟩
      · exact Nat.le_of_lt hlt
      · exact Nat.zero_le _
    refine .inl ⟨?_, insertAt_gains hindex hins⟩
    change 0 ≤ index.toInt
    rw [toInt_eq_toNat (by omega)]
    exact Int.natCast_nonneg _
  · have hsame := refuse_shrinks hm
    obtain ⟨rfl, -⟩ := Prod.mk.inj (Option.some.inj hm)
    exact .inr ⟨Int.negSucc_lt_zero 0, hsame⟩

end ArrayModel

open ArrayModel in
/-- An insertion that is not refused gains one element, no other call does. -/
theorem callModel_sizes [DecidableEq α] {m m' : ArrayModel α φ} {r : ArrayAnswer α φ} {call : ArrayCall α φ}
    (junk : ℕ → Option α) (hsmall : m.items.length < 2 ^ 31) (hm : callModel m call = some (r, m')) :
    (stored ((call, junk), r) = true ∧ Gains m m') ∨ (stored ((call, junk), r) = false ∧ Shrinks m m') := by
  have hstores : ∀ (hi : call.inserts = true), Stores m r m' →
      (stored ((call, junk), r) = true ∧ Gains m m') ∨ (stored ((call, junk), r) = false ∧ Shrinks m m') := by
    intro hi hs
    rcases hs with ⟨hret, hgains⟩ | ⟨hret, hsame⟩
    · exact .inl ⟨by simp [stored, hi, hret], hgains⟩
    · exact .inr ⟨by simp [stored, hi, hret], hsame⟩
  cases call with
  | append data =>
    obtain ⟨m'', hins, heq⟩ := Option.map_eq_some_iff.mp hm
    obtain ⟨rfl, rfl⟩ := Prod.mk.inj heq
    exact hstores rfl (.inl ⟨Int.natCast_nonneg _, insertAt_gains (Nat.le_refl _) hins⟩)
  | preappend data =>
    obtain ⟨m'', hins, heq⟩ := Option.map_eq_some_iff.mp hm
    obtain ⟨rfl, rfl⟩ := Prod.mk.inj heq
    exact hstores rfl (.inl ⟨Int.le_refl _, insertAt_gains (Nat.zero_le _) hins⟩)
  | insert data index => exact hstores rfl (insert_stores hm)
  | preinsert data index => exact hstores rfl (preinsert_stores hsmall hm)
  | deleteIndx index freeFn => exact .inr ⟨rfl, deleteAt_shrinks (List.length_eraseIdx_le _ _) hm⟩
  | delete index freeFn =>
    refine .inr ⟨rfl, deleteAt_shrinks ?_ hm⟩
    rw [List.length_dropLast, List.length_set]
    exact Nat.sub_le _ _
  | deleteObj data freeFn =>
    unfold callModel at hm
    dsimp only at hm
    split at hm
    · refine .inr ⟨rfl, deleteAt_shrinks ?_ hm⟩
      rw [List.length_dropLast, List.length_set]
      exact Nat.sub_le _ _
    · exact .inr ⟨rfl, refuse_shrinks hm⟩
  | deleteRange bindex eindex freeFn => exact .inr ⟨rfl, deleteRange_shrinks hm⟩
  | clean freeFn =>
    obtain ⟨-, rfl⟩ := Prod.mk.inj (Option.some.inj hm)
    exact .inr ⟨rfl, rfl, Nat.zero_le _⟩
  | tighten => exact absurd hm (by simp [callModel])
  | «at» index => exact .inr ⟨rfl, lookup_shrinks hm⟩
  | size =>
    obtain ⟨-, rfl⟩ := Prod.mk.inj (Option.some.inj hm)
    exact .inr ⟨rfl, rfl, Nat.le_refl _⟩
  | ctrl cmd data =>
    obtain rfl := congrArg Prod.snd (Option.some.inj hm)
    exact .inr ⟨rfl, ctrl_shrinks cmd data⟩
  | iterErase iter => exact .inr ⟨rfl, iterErase_shrinks hm⟩

namespace MclArray

variable {a a' a₀ : MclArray α φ} {junk : ℕ → Option α}

/-- How many more slots are taken than left, which pays for the next block. -/
def debt (a : MclArray α φ) : ℕ := 2 * a.curSize.toNat - a.totalSize.toNat

theorem debt_of_doubled (hsmall : a.curSize.toNat < 2 ^ 31) (hdouble : a.totalSize = a.curSize <<< 1) : a.debt = 0 := by
  unfold debt
  rw [hdouble, BitVec.toNat_shiftLeft, Nat.shiftLeft_eq]
  omega

theorem grown_of_le {c : ArrayCall α φ × (ℕ → Option α)} (hle : a'.allData.length ≤ a.allData.length) :
    (grown a c a').sum = 0 := by
  rw [grown, if_neg (Nat.not_lt.mpr hle)]
  rfl

/-- A call that stores nothing new. -/
structure Frugal (a a' : MclArray α φ) : Prop where
  slots : a'.allData.length ≤ a.allData.length
  debt : a'.debt ≤ a.debt

theorem Placed.tighten_frugal (h : a.Placed) (junk : ℕ → Option α) : a.Frugal (mclArrayTighten a junk) := by
  have hfits := h.fits
  have hsmall := h.small
  have halloc := h.alloc
  have hlen := length_reallocData junk (a.curSize <<< 1) a.allData
  unfold mclArrayTighten
  dsimp only
  split
  · exact ⟨Nat.le_refl _, Nat.le_refl _⟩
  · next hmore =>
    constructor
    · change (reallocData junk (sizeofSlots (a.curSize <<< 1)) a.allData).length ≤ _
      rw [hlen, halloc, slotsOf_toInt, slotsOf_toInt]
      rw [BitVec.sle, decide_eq_true_eq] at hmore
      omega
    · have hpaid : debt { a with allData := reallocData junk (sizeofSlots (a.curSize <<< 1)) a.allData, totalSize := a.curSize <<< 1 } = 0 :=
        debt_of_doubled (show a.curSize.toNat < 2 ^ 31 by omega) rfl
      rw [hpaid]
      exact Nat.zero_le _

/-- The element has a slot, in the old block or in a new one of twice the size. -/
structure Gained (a a' : MclArray α φ) : Prop where
  curSize : a'.curSize.toNat = a.curSize.toNat + 1
  slot : a'.allData.length = a.allData.length ∧ a'.totalSize = a.totalSize ∨
    a.curSize.toNat = a.allData.length ∧ a.allData.length = a.totalSize.toNat ∧
      a'.allData.length = 2 * a.allData.length ∧ a'.totalSize.toNat = 2 * a.totalSize.toNat

theorem Placed.gained (h : a.Placed) (h' : a'.Placed) (hg : a.model.Gains a'.model) : a.Gained a' := by
  obtain ⟨hroom, htotal, hlen⟩ := hg
  rw [items_length h.toInSlots] at hroom hlen
  rw [items_length h'.toInSlots] at hlen
  change a'.totalSize = grownSize a.totalSize (BitVec.ofNat 32 a.elems.length) at htotal
  change _ < slotsOf (grownSize a.totalSize (BitVec.ofNat 32 a.elems.length)) at hroom
  rw [ofNat_length h.toInSlots] at htotal hroom
  have halloc := h.alloc
  have halloc' := h'.alloc
  have hfits := h.fits
  have hsmall := h.small
  refine ⟨hlen, ?_⟩
  unfold grownSize at htotal hroom
  split at htotal
  · next hfull =>
    rw [if_pos hfull] at hroom
    rw [htotal] at halloc' ⊢
    obtain ⟨hold, hnew⟩ := slotsOf_grown hfull.2
    have hle := hfull.1
    rw [sle_iff_toNat (by omega) (by omega)] at hle
    have hbound := slotsOf_lt (a.totalSize <<< 1)
    have hdouble : (a.totalSize <<< 1).toNat = 2 * a.totalSize.toNat := toNat_shiftLeft_one (by omega)
    exact .inr ⟨by omega, by omega, by omega, hdouble⟩
  · rw [htotal] at halloc' ⊢
    exact .inl ⟨by omega, rfl⟩

theorem Kept.call_cases [DecidableEq α] (h : a.Kept) {c : ArrayCall α φ × (ℕ → Option α)} {r : ArrayAnswer α φ}
    (hr : Mcl.callArray a c.2 c.1 = some (r, a')) : stored (c, r) = true ∧ a.Gained a' ∨ a.Frugal a' := by
  obtain ⟨-, hplaced | hlost⟩ := h
  · by_cases hcall : c.1 = .tighten
    · rw [hcall] at hr
      obtain ⟨-, rfl⟩ := Prod.mk.inj (Option.some.inj hr)
      exact .inr (hplaced.tighten_frugal c.2)
    · obtain ⟨hmodel, hkeep⟩ := callArray_refines hplaced hcall c.2
      rw [hr] at hmodel
      have hplaced' : a'.Placed := hkeep _ hr
      have hsmall : a.model.items.length < 2 ^ 31 := by
        rw [items_length hplaced.toInSlots]
        exact Nat.lt_of_le_of_lt hplaced.fits hplaced.small
      rcases callModel_sizes c.2 hsmall hmodel.symm with ⟨hstored, hgains⟩ | ⟨-, hshrinks⟩
      · exact .inl ⟨hstored, hplaced.gained hplaced' hgains⟩
      · have hcur := hshrinks.length
        rw [items_length hplaced.toInSlots, items_length hplaced'.toInSlots] at hcur
        have htotal : a'.totalSize = a.totalSize := hshrinks.totalSize
        refine .inr ⟨?_, ?_⟩
        · have hslots : a'.allData.length = a.allData.length := by rw [hplaced.alloc, hplaced'.alloc, htotal]
          exact Nat.le_of_eq hslots
        · rw [debt, debt, htotal]
          omega
  · have hlost' := hlost.callArray hr
    refine .inr ⟨?_, ?_⟩
    · rw [hlost'.noSlots]
      exact Nat.zero_le _
    · rw [debt_of_doubled hlost'.small hlost'.doubled]
      exact Nat.zero_le _

/-- The slots that a call copies are paid for by the elements stored since the last copy. -/
theorem Kept.paid [DecidableEq α] (h : a.Kept) {c : ArrayCall α φ × (ℕ → Option α)} {r : ArrayAnswer α φ}
    (hr : Mcl.callArray a c.2 c.1 = some (r, a')) :
    (grown a c a').sum + a'.debt ≤ a.debt + if stored (c, r) then 2 else 0 := by
  rcases h.call_cases hr with ⟨hstored, hcur, hslot⟩ | ⟨hslots, hdebt⟩
  · rw [if_pos hstored]
    rcases hslot with ⟨hslots, htotal⟩ | ⟨hfull, hlen, hlen', htotal⟩
    · rw [grown_of_le (Nat.le_of_eq hslots), debt, debt, hcur, htotal]
      omega
    · have hcopied : (grown a c a').sum ≤ a.allData.length := by
        unfold grown
        split
        · exact Nat.le_of_eq List.sum_singleton
        · exact Nat.zero_le _
      rw [debt, debt, hcur, htotal]
      omega
  · rw [grown_of_le hslots, Nat.zero_add]
    exact Nat.le_trans hdebt (Nat.le_add_right _ _)

theorem Kept.slots_le [DecidableEq α] (h : a.Kept) {c : ArrayCall α φ × (ℕ → Option α)} {r : ArrayAnswer α φ}
    (hr : Mcl.callArray a c.2 c.1 = some (r, a')) : a'.allData.length ≤ max a.allData.length (2 * a.curSize.toNat) := by
  rcases h.call_cases hr with ⟨-, -, ⟨hslots, -⟩ | ⟨hfull, -, hlen', -⟩⟩ | ⟨hslots, -⟩ <;> omega

theorem debt_new {initSize : BitVec 32} {eraseJunk : Option φ} (h : mclArrayNew initSize junk eraseJunk = some (some a)) :
    a.debt = 0 := by
  rw [debt, (new_spec h).1]
  exact Nat.zero_sub _

/-- Over any calls, those that delete or tighten included: growing copies at most two slots for each
element stored, and the block stays within twice the most elements at any time. -/
theorem mclArray_growth [DecidableEq α] {initSize : BitVec 32} {eraseJunk : Option φ}
    (hnew : mclArrayNew initSize junk eraseJunk = some (some a₀)) {peak : ℕ} {copied : List ℕ}
    {hist : List ((ArrayCall α φ × (ℕ → Option α)) × ArrayAnswer α φ)}
    (hr : ((callMachine a₀).logged grown).Reach (fun x _ => x.2.curSize.toNat ≤ peak) hist (copied, a)) :
    copied.sum ≤ 2 * hist.countP stored ∧ a.allData.length ≤ max a₀.allData.length (2 * peak) := by
  constructor
  · have hpaid := (hr.amortised (fun x => if stored x then 2 else 0) debt (Kept.new hnew)
      fun s i r s' hs he => ⟨hs.callArray he, hs.paid he⟩).2
    have hcharges : (hist.map fun x => if stored x then 2 else 0).sum = 2 * hist.countP stored := by
      clear hr hpaid
      induction hist with
      | nil => rfl
      | cons x hist ih =>
        rw [List.map_cons, List.sum_cons, ih, List.countP_cons]
        split <;> omega
    rw [hcharges, show debt (callMachine a₀).init = 0 from debt_new hnew, Nat.zero_add] at hpaid
    exact Nat.le_trans (Nat.le_add_right _ _) hpaid
  · have hinv := hr.invariant (P := fun x => x.2.Kept ∧ x.2.allData.length ≤ max a₀.allData.length (2 * peak))
      ⟨Kept.new hnew, Nat.le_max_left _ _⟩ (by
        intro x i r x' hx hok hs
        obtain ⟨hs', -⟩ := Machine.logged_step.mp hs
        have hslots := hx.1.slots_le hs'
        exact ⟨hx.1.callArray hs', by omega⟩)
    exact hinv.2

/-- A block that was made tight has to grow again. -/
theorem mclArray_growth_tight : ∃ a₀ a : MclArray ℕ ℕ, ∃ hist, mclArrayNew 0 (fun _ => none) none = some (some a₀) ∧
    ((callMachine a₀).logged grown).Reach (fun x _ => x.2.curSize.toNat ≤ 2) hist ([2], a) ∧
      [2].sum ≤ 2 * hist.countP stored ∧ a.allData.length ≤ max a₀.allData.length (2 * 2) := by
  let a₀ : MclArray ℕ ℕ := ⟨List.replicate 64 none, 0, 64, none⟩
  have hnew : mclArrayNew 0 (fun _ => none) none = some (some a₀) := rfl
  obtain ⟨hist, ⟨copied, a⟩, hr, hcopied⟩ := ((callMachine a₀).logged grown).exists_of_restrict
    (fun x _ => decide (x.2.curSize.toNat ≤ 2))
    ([.append (some 7), .tighten, .append (some 8), .append (some 9)].map fun call => (call, fun _ => none))
    (fun r => r.2.1 = [2]) (by decide +kernel)
  obtain rfl : copied = [2] := hcopied
  have hpeak : ((callMachine a₀).logged grown).Reach (fun x _ => x.2.curSize.toNat ≤ 2) hist ([2], a) :=
    hr.mono fun _ _ hx => of_decide_eq_true hx
  exact ⟨a₀, a, hist, hnew, hpeak, mclArray_growth hnew hpeak⟩

end MclArray
end Mcl
