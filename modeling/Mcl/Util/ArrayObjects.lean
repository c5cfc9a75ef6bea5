import Mathlib.Data.List.Perm.Basic
import Mcl.Util.ArrayRemoval

/-! What deletion of an object does to the elements of an array. -/
namespace Mcl

variable {α φ : Type}

namespace MclArray

/-- `mcl_array_delete_obj` moves the last element to the place of the first occurrence, and releases
what was there; without an occurrence nothing happens. -/
structure DeletesObj [DecidableEq α] (a : MclArray α φ) (data : Option α) (freeFn : Option φ) : Prop where
  found : data ∈ a.elems →
    ∃ a' : MclArray α φ,
      mclArrayDeleteObj data a freeFn = some ((a.elems.idxOf data : ℤ), a', callFree freeFn data) ∧
      a'.curSize.toNat + 1 = a.curSize.toNat ∧ a'.totalSize = a.totalSize ∧
      a'.allData.length = a.allData.length ∧ a'.eraseFn = a.eraseFn ∧
      ∀ j < a'.curSize.toNat, a'.elems[j]? = if j = a.elems.idxOf data then a.elems.getLast? else a.elems[j]?
  absent : data ∉ a.elems → mclArrayDeleteObj data a freeFn = some (-1, a, [])
  remaining : ∃ ret a' freed, mclArrayDeleteObj data a freeFn = some (ret, a', freed) ∧
    a'.elems.Perm (a.elems.erase data)

variable {a : MclArray α φ} {data : Option α}

/-- The last element takes the place of another. -/
theorem set_getLast_perm {β : Type} {xs : List (Option β)} {i : ℕ} (hi : i < xs.length) :
    (xs.set i xs.getLast?.join).dropLast.Perm (xs.eraseIdx i) := by
  rcases List.eq_nil_or_concat xs with rfl | ⟨ys, x, rfl⟩
  · exact absurd hi (by simp)
  · rw [List.concat_eq_append] at hi ⊢
    rw [List.getLast?_concat, Option.join_some]
    rw [List.length_append, List.length_singleton] at hi
    by_cases hlast : i < ys.length
    · rw [List.set_append_left _ _ hlast, List.dropLast_concat, List.eraseIdx_append_of_lt_length hlast]
      exact (List.set_perm_cons_eraseIdx hlast x).trans (List.perm_append_singleton x _).symm
    · -- it is the last one itself
      obtain rfl : i = ys.length := by omega
      rw [List.set_append_right _ _ (Nat.le_refl _), List.eraseIdx_append_of_length_le (Nat.le_refl _)]
      simp

theorem getElem?_set_getLast {β : Type} {xs : List (Option β)} {i j : ℕ} (hj : j + 1 < xs.length) :
    (xs.set i xs.getLast?.join).dropLast[j]? = if j = i then xs.getLast? else xs[j]? := by
  rw [List.getElem?_dropLast, List.length_set, if_pos (by omega), List.getElem?_set]
  by_cases hij : i = j
  · rw [if_pos hij, if_pos (by omega), if_pos hij.symm, List.getLast?_eq_getElem?,
      List.getElem?_eq_getElem (by omega), Option.join_some]
  · rw [if_neg hij, if_neg fun hc => hij hc.symm]

theorem findIdx_eq_idxOf [DecidableEq α] (data : Option α) (xs : List (Option α)) :
    (xs.findIdx fun x => data = x) = xs.idxOf data := by
  unfold List.idxOf
  congr 1
  funext x
  rw [Bool.beq_comm, beq_eq_decide]

theorem InSlots.deleteObj_found [DecidableEq α] (h : a.InSlots) (hmem : data ∈ a.elems) (freeFn : Option φ) :
    ∃ d, mclArrayDeleteObj data a freeFn =
        some ((a.elems.idxOf data : ℤ), { a with allData := d, curSize := a.curSize - 1 }, callFree freeFn data) ∧
      d.length = a.allData.length ∧
      d.take (a.curSize - 1).toNat = (a.elems.set (a.elems.idxOf data) a.elems.getLast?.join).dropLast := by
  have hfits := h.fits
  have hsmall := h.small
  have hlen := elems_length h
  have hlt : a.elems.idxOf data < a.elems.length := List.idxOf_lt_length_of_mem hmem
  have hi : (BitVec.ofNat 32 (a.elems.idxOf data)).toNat = a.elems.idxOf data := by
    rw [BitVec.toNat_ofNat, Nat.mod_eq_of_lt (by omega)]
  have hint : (BitVec.ofNat 32 (a.elems.idxOf data)).toInt = a.elems.idxOf data := by
    rw [toInt_eq_toNat (by omega), hi]
  have hin : (BitVec.ofNat 32 (a.elems.idxOf data)).toNat < a.curSize.toNat := by omega
  have hfound : (a.elems[a.elems.idxOf data]?).join = data := by
    rw [List.getElem?_eq_getElem hlt, List.getElem_idxOf, Option.join_some]
  obtain ⟨d, hdel, hd, htake, -⟩ := mclArrayDelete_eq h hin freeFn
  rw [hi] at htake
  refine ⟨d, ?_, hd, htake⟩
  rw [mclArrayDeleteObj_eq h, findIdx_eq_idxOf, if_pos hlt, hdel, hi, hint, hfound]

theorem InSlots.deletesObj [DecidableEq α] (h : a.InSlots) (data : Option α) (freeFn : Option φ) :
    a.DeletesObj data freeFn := by
  have hlen := elems_length h
  by_cases hmem : data ∈ a.elems
  · have hlt : a.elems.idxOf data < a.elems.length := List.idxOf_lt_length_of_mem hmem
    have hpred := toNat_sub_one (n := a.curSize) (by omega)
    obtain ⟨d, hcode, hd, htake⟩ := h.deleteObj_found hmem freeFn
    refine ⟨fun _ => ⟨_, hcode, ?_, rfl, hd, rfl, fun j hj => ?_⟩, fun hno => absurd hmem hno, _, _, _, hcode, ?_⟩
    · dsimp only
      omega
    · dsimp only at hj
      change (d.take (a.curSize - 1).toNat)[j]? = _
      rw [htake, getElem?_set_getLast (by omega)]
    · change (d.take (a.curSize - 1).toNat).Perm _
      rw [htake, ← List.eraseIdx_idxOf_eq_erase]
      exact set_getLast_perm hlt
  · have hcode := mclArrayDeleteObj_eq h data freeFn
    have hge : ¬ a.elems.idxOf data < a.elems.length := by
      rw [List.idxOf_lt_length_iff]
      exact hmem
    rw [findIdx_eq_idxOf, if_neg hge] at hcode
    refine ⟨fun hin => absurd hin hmem, fun _ => hcode, _, _, _, hcode, ?_⟩
    rw [List.erase_of_not_mem hmem]

/-- Four elements of five slots. -/
def withNulls : MclArray ℕ ℕ := ⟨[some 7, none, some 8, none, some 5], 4, 5, none⟩

/-- NULL is searched for like any pointer, and another NULL takes the place of a pointer that goes. -/
theorem InSlots.deletesObj_nulls :
    withNulls.DeletesObj none (some 0) ∧ withNulls.DeletesObj (some 8) (some 0) ∧
      (mclArrayDeleteObj none withNulls (some 0)).map (fun r => (r.1, r.2.1.elems, r.2.2)) =
        some (1, [some 7, none, some 8], []) ∧
      (mclArrayDeleteObj (some 8) withNulls (some 0)).map (fun r => (r.1, r.2.1.elems, r.2.2)) =
        some (2, [some 7, none, none], [(0, 8)]) :=
  ⟨InSlots.deletesObj ⟨by decide, by decide⟩ none (some 0),
    InSlots.deletesObj ⟨by decide, by decide⟩ (some 8) (some 0), by decide, by decide⟩

end MclArray
end Mcl
