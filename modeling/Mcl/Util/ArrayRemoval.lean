import Mcl.Util.ArrayElems

/-! What the calls that take elements out of an array do to them. -/
namespace Mcl

variable {α φ : Type}

namespace ArrayModel

/-- The answer of a call that refuses its arguments. -/
def refuse (m : ArrayModel α φ) : Option (ArrayAnswer α φ × ArrayModel α φ) := some (⟨-1, none, none, []⟩, m)

/-- A deletion at `index` that leaves `items`. Index 0 of an empty array gets past the checks. -/
def deleteAt (m : ArrayModel α φ) (index : BitVec 32) (freeFn : Option φ) (items : List (Option α)) :
    Option (ArrayAnswer α φ × ArrayModel α φ) :=
  if index.toNat < m.items.length then
    some (⟨index.toInt, none, none, callFree freeFn (m.items[index.toNat]?).join⟩, { m with items := items })
  else if m.items = [] ∧ index = 0 then none
  else m.refuse

/-- `mcl_array_delete_range`: the elements from `bindex` on, `eindex` being the first to stay. Equal
bounds delete one element. -/
def deleteRange (m : ArrayModel α φ) (bindex eindex : BitVec 32) (freeFn : Option φ) :
    Option (ArrayAnswer α φ × ArrayModel α φ) :=
  if bindex.toNat < m.items.length ∧ eindex.toNat < m.items.length then
    if eindex.toNat < bindex.toNat then m.refuse
    else if bindex = eindex then
      (m.deleteAt bindex freeFn (m.items.eraseIdx bindex.toNat)).map fun (r, m) => ({ r with ret := 1 }, m)
    else
      some (⟨(eindex.toNat : ℤ) - bindex.toNat, none, none,
        callFrees freeFn ((m.items.drop bindex.toNat).take (eindex.toNat - bindex.toNat))⟩,
        { m with items := m.items.take bindex.toNat ++ m.items.drop eindex.toNat })
  else if m.items = [] ∧ bindex = 0 ∧ eindex = 0 then none
  else m.refuse

def clean (m : ArrayModel α φ) (freeFn : Option φ) : ArrayAnswer α φ × ArrayModel α φ :=
  (⟨0, none, none, callFrees freeFn m.items⟩, { m with items := [] })

end ArrayModel

namespace MclArray

variable {a a' : MclArray α φ} {index : BitVec 32} {freeFn : Option φ}

theorem items_length (h : a.InSlots) : a.model.items.length = a.curSize.toNat := elems_length h

theorem items_eq_nil_iff (h : a.InSlots) : a.model.items = [] ↔ a.curSize = 0 := by
  rw [← List.length_eq_zero_iff, items_length h]
  exact ⟨fun h0 => BitVec.eq_of_toNat_eq h0, fun h0 => by rw [h0]; rfl⟩

/-- The three ways an index can lie. -/
theorem bounds_cases (h : a.InSlots) (index : BitVec 32) :
    (index.toNat < a.model.items.length ∧ checkOutOfBounds index a = false) ∨
      (a.model.items = [] ∧ index = 0 ∧ checkOutOfBounds index a = false) ∨
      (¬ index.toNat < a.model.items.length ∧ ¬ (a.model.items = [] ∧ index = 0) ∧
        checkOutOfBounds index a = true) := by
  rw [items_length h]
  cases hout : checkOutOfBounds index a with
  | false =>
    rcases of_checkOutOfBounds hout with ⟨h0, rfl⟩ | hi
    · exact .inr (.inl ⟨(items_eq_nil_iff h).mpr h0, rfl, rfl⟩)
    · exact .inl ⟨hi, rfl⟩
  | true =>
    refine .inr (.inr ⟨fun hi => ?_, ?_, rfl⟩)
    · rw [checkOutOfBounds_of_lt h hi] at hout
      exact absurd hout (by simp)
    · rintro ⟨hnil, rfl⟩
      rw [checkOutOfBounds_empty ((items_eq_nil_iff h).mp hnil)] at hout
      exact absurd hout (by simp)

theorem Placed.shrunk (h : a.Placed) {d : List (Option α)} {c : BitVec 32} (hd : d.length = a.allData.length)
    (hc : c.toNat ≤ a.curSize.toNat) (hclear : c = 0 → (d[0]?).join = none) :
    MclArray.Placed { a with allData := d, curSize := c } := by
  constructor
  · exact shrunk_inSlots h.toInSlots hd hc
  · exact hd.trans h.alloc
  · exact hclear

/-- A deletion by index, from what it does inside the array, on an empty one and outside. -/
theorem Placed.deleteAt (h : a.Placed) {r : Option (ℤ × MclArray α φ × Freed φ α)} {items : List (Option α)}
    (hinside : index.toNat < a.curSize.toNat → ∃ d,
      r = some (index.toInt, { a with allData := d, curSize := a.curSize - 1 },
        callFree freeFn (a.elems[index.toNat]?).join) ∧
      d.length = a.allData.length ∧ d.take (a.curSize - 1).toNat = items ∧
      d[(a.curSize - 1).toNat]? = some none)
    (hempty : a.curSize = 0 → index = 0 → r = none)
    (houtside : checkOutOfBounds index a = true → r = some (-1, a, [])) :
    Refines (r.map deleteAnswer) (a.model.deleteAt index freeFn items) := by
  unfold ArrayModel.deleteAt
  rcases bounds_cases h.toInSlots index with ⟨hi, -⟩ | ⟨hnil, hzero, -⟩ | ⟨hi, hne, hout⟩
  · rw [if_pos hi]
    rw [items_length h.toInSlots] at hi
    obtain ⟨d, rfl, hdlen, htake, hlast⟩ := hinside hi
    have hpred := toNat_sub_one (n := a.curSize) (by omega)
    constructor
    · simp only [Option.map_some, deleteAnswer, model, elems, htake]
    · rintro x ⟨⟩
      refine h.shrunk hdlen (by omega) fun hc => ?_
      rw [hc] at hlast
      rw [show (0 : ℕ) = (0 : BitVec 32).toNat from rfl, hlast]
      rfl
  · rw [if_neg (by rw [hnil]; exact Nat.not_lt_zero _), if_pos ⟨hnil, hzero⟩,
      hempty ((items_eq_nil_iff h.toInSlots).mp hnil) hzero]
    exact .none
  · rw [if_neg hi, if_neg hne, houtside hout]
    exact .some h _

theorem mclArrayDeleteIndx_refines (h : a.Placed) (index : BitVec 32) (freeFn : Option φ) :
    Refines ((mclArrayDeleteIndx index a freeFn).map deleteAnswer)
      (a.model.deleteAt index freeFn (a.model.items.eraseIdx index.toNat)) := by
  apply h.deleteAt
  · exact fun hi => mclArrayDeleteIndx_eq h.toInSlots hi freeFn
  · rintro h0 rfl
    exact mclArrayDeleteIndx_empty h.toInSlots h0 freeFn
  · intro hout
    rw [mclArrayDeleteIndx, hout, if_pos rfl]

theorem mclArrayDelete_refines (h : a.Placed) (index : BitVec 32) (freeFn : Option φ) :
    Refines ((mclArrayDelete index a freeFn).map deleteAnswer)
      (a.model.deleteAt index freeFn
        (a.model.items.set index.toNat a.model.items.getLast?.join).dropLast) := by
  apply h.deleteAt
  · exact fun hi => mclArrayDelete_eq h.toInSlots hi freeFn
  · rintro h0 rfl
    exact mclArrayDelete_empty h.toInSlots h0 freeFn
  · intro hout
    rw [mclArrayDelete, hout, if_pos rfl]

theorem findObj_eq [DecidableEq α] (hsmall : a.allData.length < 2 ^ 31) (data : Option α) (n : ℕ) {i : BitVec 32}
    (hn : i.toNat + n ≤ a.allData.length) :
    findObj data n i a =
      some (BitVec.ofNat 32 (i.toNat + ((a.allData.drop i.toNat).take n).findIdx fun x => data = x)) := by
  induction n generalizing i with
  | zero =>
    rw [List.take_zero, List.findIdx_nil, Nat.add_zero, BitVec.ofNat_toNat, BitVec.setWidth_eq]
    rfl
  | succ n ih =>
    have hlt : i.toNat < a.allData.length := by omega
    have hsucc := toNat_add_one (n := i) (by omega)
    have hread := read_eq hsmall hlt
    rw [List.getElem?_eq_getElem hlt] at hread
    rw [List.drop_eq_getElem_cons hlt, List.take_succ_cons, List.findIdx_cons]
    simp only [findObj, hread, Option.bind_eq_bind, Option.bind_some]
    by_cases hhit : data = a.allData[i.toNat]
    · rw [if_pos hhit]
      simp only [hhit, decide_true, cond_true, Nat.add_zero, BitVec.ofNat_toNat, BitVec.setWidth_eq]
    · rw [if_neg hhit, ih (i := i + 1) (by omega), hsucc]
      simp only [hhit, decide_false, cond_false]
      rw [Nat.add_assoc, Nat.add_comm 1]

/-- The loop stops at the first occurrence, or behind the last element. -/
theorem mclArrayDeleteObj_eq [DecidableEq α] (h : a.InSlots) (data : Option α) (freeFn : Option φ) :
    mclArrayDeleteObj data a freeFn =
      if (a.elems.findIdx fun x => data = x) < a.elems.length then
        mclArrayDelete (BitVec.ofNat 32 (a.elems.findIdx fun x => data = x)) a freeFn
      else some (-1, a, []) := by
  have hfits := h.fits
  have hsmall := h.small
  have hlen := elems_length h
  have hle : (a.elems.findIdx fun x => data = x) ≤ a.elems.length := List.findIdx_le_length
  have hfind : findObj data a.curSize.toNat 0 a =
      some (BitVec.ofNat 32 (a.elems.findIdx fun x => data = x)) := by
    have hzero : (0 : BitVec 32).toNat = 0 := rfl
    rw [findObj_eq (a := a) hsmall data a.curSize.toNat (i := 0) (by rw [hzero]; omega), hzero, Nat.zero_add,
      List.drop_zero]
    rfl
  have hule : a.curSize.ule (BitVec.ofNat 32 (a.elems.findIdx fun x => data = x)) =
      !decide ((a.elems.findIdx fun x => data = x) < a.elems.length) := by
    rw [BitVec.ule, BitVec.toNat_ofNat, Nat.mod_eq_of_lt (by omega), ← decide_not, hlen]
    exact decide_eq_decide.mpr Nat.not_lt.symm
  change (findObj data a.curSize.toNat 0 a).bind _ = _
  rw [hfind, Option.bind_some]
  rw [hule]
  by_cases hlt : (a.elems.findIdx fun x => data = x) < a.elems.length
  · rw [if_pos hlt, if_neg (by simp [hlt])]
  · rw [if_neg hlt, if_pos (by simp [hlt])]

theorem mclArrayDeleteObj_refines [DecidableEq α] (h : a.Placed) (data : Option α) (freeFn : Option φ) :
    Refines ((mclArrayDeleteObj data a freeFn).map deleteAnswer)
      (let i := a.model.items.findIdx fun x => data = x
       if i < a.model.items.length then
        a.model.deleteAt (BitVec.ofNat 32 i) freeFn (a.model.items.set i a.model.items.getLast?.join).dropLast
      else a.model.refuse) := by
  have hfits := h.fits
  have hsmall := h.small
  have hlen := items_length h.toInSlots
  rw [mclArrayDeleteObj_eq h.toInSlots]
  change Refines (Option.map deleteAnswer
    (if (a.model.items.findIdx fun x => data = x) < a.model.items.length then _ else _)) _
  dsimp only
  by_cases hlt : (a.model.items.findIdx fun x => data = x) < a.model.items.length
  · have hi : (BitVec.ofNat 32 (a.model.items.findIdx fun x => data = x)).toNat =
        a.model.items.findIdx fun x => data = x := by
      rw [BitVec.toNat_ofNat, Nat.mod_eq_of_lt (by omega)]
    have hdel := mclArrayDelete_refines h (BitVec.ofNat 32 (a.model.items.findIdx fun x => data = x)) freeFn
    rw [hi] at hdel
    rw [if_pos hlt, if_pos hlt]
    exact hdel
  · rw [if_neg hlt, if_neg hlt]
    exact .some h _

/-! A range: the elements are released first, and those behind them move down. -/

theorem freeRange_eq (hsmall : a.allData.length < 2 ^ 31) (freeFn : Option φ) (n : ℕ) {i : BitVec 32}
    (hn : i.toNat + n ≤ a.allData.length) :
    ∃ d, freeRange freeFn n i a =
        some ({ a with allData := d }, callFrees freeFn ((a.allData.drop i.toNat).take n)) ∧
      d.length = a.allData.length ∧
      ∀ j, ¬ (i.toNat ≤ j ∧ j < i.toNat + n) → d[j]? = a.allData[j]? := by
  induction n generalizing a i with
  | zero => exact ⟨a.allData, rfl, rfl, fun _ _ => rfl⟩
  | succ n ih =>
    have hlt : i.toNat < a.allData.length := by omega
    have hsucc := toNat_add_one (n := i) (by omega)
    have hfree := freeSlot_eq hsmall hlt freeFn
    obtain ⟨d, hd, hdlen, hkeep⟩ : ∃ d,
        (if (callFree freeFn (a.allData[i.toNat]?).join).isEmpty then some a else a.write i.toInt none) =
          some { a with allData := d } ∧ d.length = a.allData.length ∧
        ∀ j, j ≠ i.toNat → d[j]? = a.allData[j]? := by
      split
      · exact ⟨a.allData, rfl, rfl, fun _ _ => rfl⟩
      · exact ⟨_, write_eq hsmall hlt none, List.length_set, fun j hj => List.getElem?_set_ne (Ne.symm hj)⟩
    obtain ⟨d', hd', hdlen', hkeep'⟩ := ih (a := { a with allData := d }) (i := i + 1)
      (by rw [hdlen]; exact hsmall) (by rw [hdlen, hsucc]; omega)
    refine ⟨d', ?_, hdlen'.trans hdlen, fun j hj => ?_⟩
    · simp only [freeRange, hfree, hd, hd', Option.bind_eq_bind, Option.bind_some, Option.some.injEq,
        Prod.mk.injEq, true_and]
      have hdrop : (d.drop (i + 1).toNat).take n = (a.allData.drop (i.toNat + 1)).take n := by
        apply List.ext_getElem?
        intro j
        rw [List.getElem?_take, List.getElem?_take, List.getElem?_drop, List.getElem?_drop, hsucc,
          hkeep _ (by omega)]
      rw [hdrop, List.drop_eq_getElem_cons hlt, List.take_succ_cons, List.getElem?_eq_getElem hlt]
      rfl
    · rw [hkeep' j (by rw [hsucc]; omega), hkeep j (by omega)]

theorem moveRange_eq (hsmall : a.allData.length < 2 ^ 31) {cnt : BitVec 32} (hpos : 0 < cnt.toNat) (n : ℕ)
    {i : BitVec 32} (hcnt : cnt.toNat ≤ i.toNat) (hn : i.toNat + n ≤ a.allData.length) :
    ∃ d, moveRange cnt n i a = some { a with allData := d } ∧ d.length = a.allData.length ∧
      ∀ j < i.toNat - cnt.toNat + n,
        d[j]? = if j < i.toNat - cnt.toNat then a.allData[j]? else a.allData[j + cnt.toNat]? := by
  induction n generalizing a i with
  | zero => exact ⟨a.allData, rfl, rfl, fun j hj => by rw [if_pos (by omega)]⟩
  | succ n ih =>
    have hlt : i.toNat < a.allData.length := by omega
    have hsucc := toNat_add_one (n := i) (by omega)
    have hsub : (i - cnt).toNat = i.toNat - cnt.toNat :=
      BitVec.toNat_sub_of_le (by rw [BitVec.le_def]; exact hcnt)
    have hread := read_eq hsmall hlt
    rw [List.getElem?_eq_getElem hlt] at hread
    have hwrite := write_eq hsmall (i := i - cnt) (by omega) a.allData[i.toNat]
    rw [hsub] at hwrite
    have hwrite' := write_eq
      (a := { a with allData := a.allData.set (i.toNat - cnt.toNat) a.allData[i.toNat] }) (i := i)
      (by rw [List.length_set]; exact hsmall) (by rw [List.length_set]; exact hlt) none
    obtain ⟨d, hd, hdlen, hslots⟩ := ih (i := i + 1)
      (a := { a with allData := (a.allData.set (i.toNat - cnt.toNat) a.allData[i.toNat]).set i.toNat none })
      (by rw [List.length_set, List.length_set]; exact hsmall) (by omega)
      (by rw [List.length_set, List.length_set]; omega)
    rw [List.length_set, List.length_set] at hdlen
    refine ⟨d, ?_, hdlen, fun j hj => ?_⟩
    · simp only [moveRange, hread, hwrite, hwrite', Option.bind_eq_bind, Option.bind_some]
      exact hd
    · rw [hslots j (by omega)]
      rcases Nat.lt_trichotomy j (i.toNat - cnt.toNat) with hlo | heq | hhi
      · rw [if_pos (by omega), if_pos hlo, List.getElem?_set_ne (by omega), List.getElem?_set_ne (by omega)]
      · rw [if_pos (by omega), if_neg (by omega), List.getElem?_set_ne (by omega), heq,
          List.getElem?_set_self (by omega), show i.toNat - cnt.toNat + cnt.toNat = i.toNat by omega,
          List.getElem?_eq_getElem hlt]
      · rw [if_neg (by omega), if_neg (by omega), List.getElem?_set_ne (by omega),
          List.getElem?_set_ne (by omega)]

theorem cleanArrayLoop_eq (freeFn : Option φ) (n : ℕ) {i : ℕ} (hn : i + n ≤ a.allData.length) :
    ∃ d, cleanArrayLoop freeFn n i a =
        some ({ a with allData := d }, callFrees freeFn ((a.allData.drop i).take n)) ∧
      d.length = a.allData.length ∧
      ∀ j, d[j]? = if i ≤ j ∧ j < i + n then some none else a.allData[j]? := by
  induction n generalizing a i with
  | zero => exact ⟨a.allData, rfl, rfl, fun j => by rw [if_neg (by omega)]⟩
  | succ n ih =>
    have hlt : i < a.allData.length := by omega
    have hread : a.read i = some a.allData[i] := by
      rw [← List.getElem?_eq_getElem hlt]
      exact if_pos (by omega)
    have hwrite := write_natCast hlt none
    obtain ⟨d, hd, hdlen, hslots⟩ := ih (a := { a with allData := a.allData.set i none }) (i := i + 1)
      (by rw [List.length_set]; omega)
    rw [List.length_set] at hdlen
    refine ⟨d, ?_, hdlen, fun j => ?_⟩
    · rw [show ((i + 1 : ℕ) : ℤ) = (i : ℤ) + 1 from rfl] at hd
      simp only [cleanArrayLoop, hread, hwrite, hd, Option.bind_eq_bind, Option.bind_some, Option.some.injEq,
        Prod.mk.injEq, true_and]
      rw [List.drop_set_of_lt (by omega), List.drop_eq_getElem_cons hlt, List.take_succ_cons, callFrees,
        callFrees, List.flatMap_cons]
    · rw [hslots j]
      by_cases hj : j = i
      · subst hj
        rw [if_neg (by omega), if_pos (by omega), List.getElem?_set_self hlt]
      · by_cases hin : i + 1 ≤ j ∧ j < i + 1 + n
        · rw [if_pos hin, if_pos (by omega)]
        · rw [if_neg hin, if_neg (by omega), List.getElem?_set_ne (by omega)]

theorem mclArrayClean_refines (h : a.Placed) (freeFn : Option φ) :
    Refines ((mclArrayClean a freeFn).map fun (a, freed) => (⟨0, none, none, freed⟩, a))
      (some (a.model.clean freeFn)) := by
  have hfits := h.fits
  obtain ⟨d, hd, hdlen, hslots⟩ := cleanArrayLoop_eq (a := a) freeFn a.curSize.toNat (i := 0) (by omega)
  have hcode : mclArrayClean a freeFn =
      some ({ a with allData := d, curSize := 0 }, callFrees freeFn a.elems) := by
    have hloop : cleanArrayLoop freeFn a.curSize.toInt.toNat 0 a =
        some ({ a with allData := d }, callFrees freeFn a.elems) := by
      rw [h.toInt_curSize, Int.toNat_natCast]
      exact hd
    simp only [mclArrayClean, hloop, Option.bind_eq_bind, Option.bind_some]
  rw [hcode]
  constructor
  · rfl
  · rintro x ⟨⟩
    refine h.shrunk hdlen (Nat.zero_le _) fun _ => ?_
    rw [hslots 0]
    split
    · rfl
    · next hnone =>
      refine h.clear (BitVec.eq_of_toNat_eq ?_)
      change a.curSize.toNat = 0
      omega

section Bounds

variable {bindex eindex : BitVec 32}

theorem mclArrayDeleteRange_refused
    (hout : checkOutOfBounds bindex a = true ∨ checkOutOfBounds eindex a = true ∨ eindex.slt bindex = true)
    (freeFn : Option φ) : mclArrayDeleteRange bindex eindex a freeFn = some (-1, a, []) := by
  rcases hout with hb | he | hlt
  · simp only [mclArrayDeleteRange, hb, Bool.true_or, if_true]
  · simp only [mclArrayDeleteRange, he, Bool.or_true, if_true]
  · simp only [mclArrayDeleteRange, hlt, if_true, ite_self]

/-- Equal bounds are a deletion by index. -/
theorem mclArrayDeleteRange_self (hin : checkOutOfBounds index a = false) (freeFn : Option φ) :
    mclArrayDeleteRange index index a freeFn = (mclArrayDeleteIndx index a freeFn).map fun r => (1, r.2) := by
  have hslt : index.slt index = false := by
    rw [BitVec.slt, decide_eq_false_iff_not]
    exact Int.lt_irrefl _
  simp only [mclArrayDeleteRange, hin, hslt, Bool.or_self, Bool.false_eq_true, if_false, if_true,
    Option.map_eq_bind]
  rfl

theorem mclArrayDeleteRange_empty (h : a.InSlots) (h0 : a.curSize = 0) (freeFn : Option φ) :
    mclArrayDeleteRange 0 0 a freeFn = none := by
  rw [mclArrayDeleteRange_self (checkOutOfBounds_empty h0), mclArrayDeleteIndx_empty h h0, Option.map_none]

end Bounds

theorem mclArrayDeleteRange_inside (h : a.InSlots) {bindex eindex : BitVec 32}
    (hlt : bindex.toNat < eindex.toNat) (he : eindex.toNat < a.curSize.toNat) (freeFn : Option φ) :
    ∃ d, mclArrayDeleteRange bindex eindex a freeFn =
        some ((eindex.toNat : ℤ) - bindex.toNat, { a with allData := d, curSize := a.curSize - (eindex - bindex) },
          callFrees freeFn ((a.elems.drop bindex.toNat).take (eindex.toNat - bindex.toNat))) ∧
      d.length = a.allData.length ∧
      (a.curSize - (eindex - bindex)).toNat = a.curSize.toNat - (eindex.toNat - bindex.toNat) ∧
      d.take (a.curSize - (eindex - bindex)).toNat = a.elems.take bindex.toNat ++ a.elems.drop eindex.toNat := by
  have hfits := h.fits
  have hsmall := h.small
  have hcnt : (eindex - bindex).toNat = eindex.toNat - bindex.toNat :=
    BitVec.toNat_sub_of_le (by rw [BitVec.le_def]; omega)
  have hcntInt : (eindex - bindex).toInt = (eindex.toNat : ℤ) - bindex.toNat := by
    rw [toInt_eq_toNat (by omega), hcnt]
    omega
  have hcur : (a.curSize - (eindex - bindex)).toNat = a.curSize.toNat - (eindex.toNat - bindex.toNat) := by
    rw [BitVec.toNat_sub_of_le (by rw [BitVec.le_def]; omega), hcnt]
  have hb := toInt_eq_toNat (n := bindex) (by omega)
  have he' := toInt_eq_toNat (n := eindex) (by omega)
  have hslt : eindex.slt bindex = false := by
    rw [← Bool.not_eq_true, BitVec.slt_iff_toInt_lt, hb, he']
    omega
  have hne : ¬ bindex = eindex := fun hc => by
    rw [hc] at hlt
    exact absurd hlt (Nat.lt_irrefl _)
  obtain ⟨d, hd, hdlen, hkeep⟩ := freeRange_eq hsmall freeFn (eindex - bindex).toNat (i := bindex) (by omega)
  have hpos : 0 < (eindex - bindex).toNat := by omega
  obtain ⟨d', hd', hdlen', hslots⟩ := moveRange_eq (a := { a with allData := d })
    (by rw [hdlen]; exact hsmall) hpos (a.curSize.toNat - eindex.toNat) (i := eindex) (by omega)
    (by rw [hdlen]; omega)
  refine ⟨d', ?_, hdlen'.trans hdlen, hcur, ?_⟩
  · have hfreed : (a.allData.drop bindex.toNat).take (eindex - bindex).toNat =
        (a.elems.drop bindex.toNat).take (eindex.toNat - bindex.toNat) := by
      apply List.ext_getElem?
      intro j
      rw [List.getElem?_take, List.getElem?_take, List.getElem?_drop, List.getElem?_drop, hcnt]
      by_cases hj : j < eindex.toNat - bindex.toNat
      · rw [if_pos hj, if_pos hj, elems_getElem? (by omega)]
      · rw [if_neg hj, if_neg hj]
    rw [hfreed] at hd
    simp only [mclArrayDeleteRange, checkOutOfBounds_of_lt h (show bindex.toNat < _ by omega),
      checkOutOfBounds_of_lt h he, hslt, hne, hd, hd', hcntInt, Bool.or_false, Bool.false_eq_true,
      if_false, Option.bind_eq_bind, Option.bind_some]
  · have hlen := elems_length h
    apply List.ext_getElem?
    intro j
    rw [hcur, List.getElem?_take, List.getElem?_append, List.length_take, hlen, List.getElem?_take,
      List.getElem?_drop, Nat.min_eq_left (by omega)]
    by_cases hj : j < a.curSize.toNat - (eindex.toNat - bindex.toNat)
    · rw [if_pos hj, hslots j (by omega), hcnt]
      by_cases hlo : j < bindex.toNat
      · rw [if_pos (by omega), if_pos hlo, if_pos hlo, hkeep j (by omega), elems_getElem? (by omega)]
      · rw [if_neg (by omega), if_neg hlo, hkeep _ (by omega), elems_getElem? (by omega)]
        congr 1
        omega
    · rw [if_neg hj, if_neg (by omega), List.getElem?_eq_none (by omega)]

theorem Placed.deleteRange_inside (h : a.Placed) {bindex eindex : BitVec 32}
    (hlt : bindex.toNat < eindex.toNat) (he : eindex.toNat < a.curSize.toNat) (freeFn : Option φ) :
    Refines ((mclArrayDeleteRange bindex eindex a freeFn).map deleteAnswer)
      (some (⟨(eindex.toNat : ℤ) - bindex.toNat, none, none,
          callFrees freeFn ((a.elems.drop bindex.toNat).take (eindex.toNat - bindex.toNat))⟩,
        { a.model with items := a.elems.take bindex.toNat ++ a.elems.drop eindex.toNat })) := by
  obtain ⟨d, hd, hdlen, hcur, htake⟩ := mclArrayDeleteRange_inside h.toInSlots hlt he freeFn
  rw [hd]
  constructor
  · simp only [Option.map_some, deleteAnswer, model, elems, htake]
  · rintro x ⟨⟩
    refine h.shrunk hdlen (by omega) fun hc => ?_
    have hzero : (a.curSize - (eindex - bindex)).toNat = 0 := by
      rw [hc]
      rfl
    omega

theorem mclArrayDeleteRange_refines (h : a.Placed) (bindex eindex : BitVec 32) (freeFn : Option φ) :
    Refines ((mclArrayDeleteRange bindex eindex a freeFn).map deleteAnswer)
      (a.model.deleteRange bindex eindex freeFn) := by
  have hsmall := h.small
  have hfits := h.fits
  unfold ArrayModel.deleteRange
  rcases bounds_cases h.toInSlots bindex with ⟨hb, hbout⟩ | ⟨hnil, rfl, hbout⟩ | ⟨hb, hbne, hbout⟩
  · rcases bounds_cases h.toInSlots eindex with ⟨he, heout⟩ | ⟨hnil, -, -⟩ | ⟨he, hene, heout⟩
    · rw [if_pos ⟨hb, he⟩]
      rw [items_length h.toInSlots] at hb he
      by_cases hlt : eindex.toNat < bindex.toNat
      · have hslt : eindex.slt bindex = true := by
          rw [BitVec.slt, decide_eq_true_eq, toInt_eq_toNat (by omega), toInt_eq_toNat (by omega)]
          omega
        rw [if_pos hlt, mclArrayDeleteRange_refused (.inr (.inr hslt))]
        exact .some h _
      · rw [if_neg hlt]
        by_cases heq : bindex = eindex
        · subst heq
          have hret := (mclArrayDeleteIndx_refines h bindex freeFn).mapRet fun r => { r with ret := 1 }
          rw [if_pos rfl, mclArrayDeleteRange_self hbout, Option.map_map]
          rw [Option.map_map] at hret
          exact hret
        · have hne : bindex.toNat ≠ eindex.toNat := fun hc => heq (BitVec.eq_of_toNat_eq hc)
          rw [if_neg heq]
          exact h.deleteRange_inside (by omega) he freeFn
    · rw [hnil] at hb
      exact absurd hb (Nat.not_lt_zero _)
    · rw [if_neg (fun hc => he hc.2), if_neg (fun hc => hene ⟨hc.1, hc.2.2⟩),
        mclArrayDeleteRange_refused (.inr (.inl heout))]
      exact .some h _
  · have hnot : ∀ i : BitVec 32, ¬ i.toNat < a.model.items.length := fun i => by
      rw [hnil]
      exact Nat.not_lt_zero _
    rw [if_neg (fun hc => hnot _ hc.1)]
    by_cases hzero : eindex = 0
    · subst hzero
      rw [if_pos ⟨hnil, rfl, rfl⟩,
        mclArrayDeleteRange_empty h.toInSlots ((items_eq_nil_iff h.toInSlots).mp hnil)]
      exact .none
    · have heout : checkOutOfBounds eindex a = true := by
        rcases bounds_cases h.toInSlots eindex with ⟨he, -⟩ | ⟨-, hc, -⟩ | ⟨-, -, hout⟩
        · exact absurd he (hnot _)
        · exact absurd hc hzero
        · exact hout
      rw [if_neg (fun hc => hzero hc.2.2), mclArrayDeleteRange_refused (.inr (.inl heout))]
      exact .some h _
  · rw [if_neg (fun hc => hb hc.1), if_neg (fun hc => hbne ⟨hc.1, hc.2.1⟩),
      mclArrayDeleteRange_refused (.inl hbout)]
    exact .some h _

end MclArray
end Mcl
