import Mcl.Util.ArrayRemoval

/-! `mcl_array_delete_range` against deletions one by one and against itself in two parts. -/
namespace Mcl

variable {α φ : Type}

/-- `mcl_array_delete_indx` at one index, `n` times. -/
def deleteIndxTimes (index : BitVec 32) (freeFn : Option φ) :
    ℕ → MclArray α φ → Option (MclArray α φ × Freed φ α)
  | 0, a => some (a, [])
  | n + 1, a => do
    let (_, a, freed) ← mclArrayDeleteIndx index a freeFn
    let (a, rest) ← deleteIndxTimes index freeFn n a
    some (a, freed ++ rest)

namespace MclArray

variable {a : MclArray α φ} {freeFn : Option φ}

theorem deleteIndxTimes_eq (h : a.InSlots) (index : BitVec 32) (freeFn : Option φ) (n : ℕ)
    (hn : index.toNat + n ≤ a.curSize.toNat) :
    ∃ a', deleteIndxTimes index freeFn n a =
        some (a', callFrees freeFn ((a.elems.drop index.toNat).take n)) ∧
      a'.curSize.toNat = a.curSize.toNat - n ∧
      a'.elems = a.elems.take index.toNat ++ a.elems.drop (index.toNat + n) := by
  induction n generalizing a with
  | zero =>
    refine ⟨a, rfl, rfl, ?_⟩
    rw [Nat.add_zero, List.take_append_drop]
  | succ n ih =>
    have hi : index.toNat < a.curSize.toNat := by omega
    have hpred := toNat_sub_one (n := a.curSize) (by omega)
    have hlen := elems_length h
    obtain ⟨d, hd, hdlen, htake, -⟩ := mclArrayDeleteIndx_eq h hi freeFn
    have hin := shrunk_inSlots h hdlen (c := a.curSize - 1) (by omega)
    obtain ⟨a', ha', hsize, helems⟩ := ih hin (by dsimp only; omega)
    have hone : elems { a with allData := d, curSize := a.curSize - 1 } =
        a.elems.take index.toNat ++ a.elems.drop (index.toNat + 1) := by
      rw [← List.eraseIdx_eq_take_drop_succ]
      exact htake
    have hpre : (a.elems.take index.toNat).length = index.toNat := by
      rw [List.length_take]
      omega
    have hget : index.toNat < a.elems.length := by omega
    rw [hone, List.drop_append_of_le_length (by omega), List.drop_of_length_le (by omega),
      List.nil_append] at ha'
    refine ⟨a', ?_, ?_, ?_⟩
    · simp only [deleteIndxTimes, hd, ha', Option.bind_eq_bind, Option.bind_some]
      rw [List.drop_eq_getElem_cons hget, List.take_succ_cons, callFrees_cons, List.getElem?_eq_getElem hget]
      rfl
    · rw [hsize]
      dsimp only
      omega
    · rw [helems, hone, List.take_append_of_le_length (by omega), List.take_of_length_le (by omega),
        List.drop_append, hpre, List.drop_of_length_le (by omega), List.nil_append, List.drop_drop]
      congr 2
      omega

/-- A range that is deleted: the elements from `bindex` on go, up to `eindex`, each non-NULL one
released once. -/
structure DeletesRange (a : MclArray α φ) (bindex eindex : BitVec 32) (freeFn : Option φ) : Prop where
  inside : 0 ≤ bindex.toInt → bindex.toInt < eindex.toInt → eindex.toInt < a.curSize.toNat →
    ∃ a' a'' freed,
      mclArrayDeleteRange bindex eindex a freeFn = some (eindex.toInt - bindex.toInt, a', freed) ∧
      a'.elems = a.elems.take bindex.toNat ++ a.elems.drop eindex.toNat ∧
      freed = callFrees freeFn ((a.elems.drop bindex.toNat).take (eindex.toNat - bindex.toNat)) ∧
      deleteIndxTimes bindex freeFn (eindex.toNat - bindex.toNat) a = some (a'', freed) ∧
      a''.elems = a'.elems ∧ a''.curSize = a'.curSize
  outside : a.curSize ≠ 0 →
    ¬ (0 ≤ bindex.toInt ∧ bindex.toInt < a.curSize.toNat) ∨
      ¬ (0 ≤ eindex.toInt ∧ eindex.toInt < a.curSize.toNat) ∨ eindex.toInt < bindex.toInt →
    mclArrayDeleteRange bindex eindex a freeFn = some (-1, a, [])

theorem checkOutOfBounds_nonempty (h : a.InSlots) (h0 : a.curSize ≠ 0) {index : BitVec 32}
    (hout : ¬ (0 ≤ index.toInt ∧ index.toInt < a.curSize.toNat)) : checkOutOfBounds index a = true := by
  rw [← Bool.not_eq_false, checkOutOfBounds_iff h]
  exact fun hc => hc.elim hout fun hc => h0 hc.1

theorem mclArrayDeleteRange_outside (h : a.InSlots) (h0 : a.curSize ≠ 0) {bindex eindex : BitVec 32}
    (hout : ¬ (0 ≤ bindex.toInt ∧ bindex.toInt < a.curSize.toNat) ∨
      ¬ (0 ≤ eindex.toInt ∧ eindex.toInt < a.curSize.toNat) ∨ eindex.toInt < bindex.toInt) (freeFn : Option φ) :
    mclArrayDeleteRange bindex eindex a freeFn = some (-1, a, []) := by
  apply mclArrayDeleteRange_refused
  rcases hout with hb | he | hlt
  · exact .inl (checkOutOfBounds_nonempty h h0 hb)
  · exact .inr (.inl (checkOutOfBounds_nonempty h h0 he))
  · refine .inr (.inr ?_)
    rw [BitVec.slt, decide_eq_true_eq]
    exact hlt

theorem InSlots.deletesRange (h : a.InSlots) (bindex eindex : BitVec 32) (freeFn : Option φ) :
    a.DeletesRange bindex eindex freeFn := by
  constructor
  · intro hb hlt he
    have hbint := toNat_of_nonneg hb
    have heint := toNat_of_nonneg (show 0 ≤ eindex.toInt by omega)
    have hlt' : bindex.toNat < eindex.toNat := by omega
    have he' : eindex.toNat < a.curSize.toNat := by omega
    obtain ⟨d, hd, -, hsize, htake⟩ := mclArrayDeleteRange_inside h hlt' he' freeFn
    obtain ⟨a'', ha'', hsize', helems⟩ := deleteIndxTimes_eq h bindex freeFn (eindex.toNat - bindex.toNat)
      (by omega)
    refine ⟨{ a with allData := d, curSize := a.curSize - (eindex - bindex) }, a'', _, ?_, htake, rfl, ha'',
      ?_, ?_⟩
    · rw [hd, hbint, heint]
    · rw [helems, show bindex.toNat + (eindex.toNat - bindex.toNat) = eindex.toNat by omega]
      exact htake.symm
    · apply BitVec.eq_of_toNat_eq
      rw [hsize']
      exact hsize.symm
  · exact fun h0 hout => mclArrayDeleteRange_outside h h0 hout freeFn

/-- A NULL element in the range, and more elements in it than behind it. -/
theorem InSlots.deletesRange_three :
    ∃ a' a'' freed,
      mclArrayDeleteRange 0 3 (⟨[some 7, none, some 8, some 9, some 1], 4, 5, none⟩ : MclArray ℕ ℕ) (some 0) =
        some (3, a', freed) ∧
      a'.elems = [some 9] ∧ freed = [(0, 7), (0, 8)] ∧
      deleteIndxTimes 0 (some 0) 3
        (⟨[some 7, none, some 8, some 9, some 1], 4, 5, none⟩ : MclArray ℕ ℕ) = some (a'', freed) ∧
      a''.elems = a'.elems ∧ a''.curSize = a'.curSize :=
  (InSlots.deletesRange (a := ⟨[some 7, none, some 8, some 9, some 1], 4, 5, none⟩) ⟨by decide, by decide⟩
    0 3 (some 0)).inside (by decide) (by decide) (by decide)

/-! Two calls for one. Equal bounds are a range of one element, not of none. -/

theorem mclArrayDeleteRange_eq (h : a.InSlots) {bindex eindex : BitVec 32} (hle : bindex.toNat ≤ eindex.toNat)
    (he : eindex.toNat < a.curSize.toNat) (freeFn : Option φ) :
    ∃ ret a', mclArrayDeleteRange bindex eindex a freeFn = some (ret, a',
        callFrees freeFn ((a.elems.drop bindex.toNat).take (max 1 (eindex.toNat - bindex.toNat)))) ∧
      a'.InSlots ∧ a'.curSize.toNat = a.curSize.toNat - max 1 (eindex.toNat - bindex.toNat) ∧
      a'.elems = a.elems.take bindex.toNat ++
        a.elems.drop (bindex.toNat + max 1 (eindex.toNat - bindex.toNat)) := by
  by_cases hlt : bindex.toNat < eindex.toNat
  · obtain ⟨d, hd, hdlen, hsize, htake⟩ := mclArrayDeleteRange_inside h hlt he freeFn
    have hwidth : max 1 (eindex.toNat - bindex.toNat) = eindex.toNat - bindex.toNat := by omega
    rw [hwidth, show bindex.toNat + (eindex.toNat - bindex.toNat) = eindex.toNat by omega]
    exact ⟨_, _, hd, shrunk_inSlots h hdlen (by omega), hsize, htake⟩
  · obtain rfl : bindex = eindex := BitVec.eq_of_toNat_eq (by omega)
    have hget : bindex.toNat < a.elems.length := by
      rw [elems_length h]
      exact he
    have hpred := toNat_sub_one (n := a.curSize) (by omega)
    obtain ⟨d, hd, hdlen, htake, -⟩ := mclArrayDeleteIndx_eq h he freeFn
    have hwidth : max 1 (bindex.toNat - bindex.toNat) = 1 := by omega
    rw [hwidth, ← List.eraseIdx_eq_take_drop_succ]
    refine ⟨1, { a with allData := d, curSize := a.curSize - 1 }, ?_, shrunk_inSlots h hdlen (by omega), hpred,
      htake⟩
    rw [mclArrayDeleteRange_self (checkOutOfBounds_of_lt h he), hd, Option.map_some]
    rw [List.drop_eq_getElem_cons hget, List.take_succ_cons, List.take_zero, callFrees_cons,
      List.getElem?_eq_getElem hget]
    exact congrArg (fun freed => some (1, _, freed)) (List.append_nil _).symm

/-- `[mindex, eindex)` and then `[bindex, mindex)` leave and release what `[bindex, eindex)` does. -/
def Composes (a : MclArray α φ) (bindex mindex eindex : BitVec 32) (freeFn : Option φ) : Prop :=
  ∃ r₁ a₁ freed₁ r₂ a₂ freed₂ r a' freed,
    mclArrayDeleteRange mindex eindex a freeFn = some (r₁, a₁, freed₁) ∧
    mclArrayDeleteRange bindex mindex a₁ freeFn = some (r₂, a₂, freed₂) ∧
    mclArrayDeleteRange bindex eindex a freeFn = some (r, a', freed) ∧
    a₂.elems = a'.elems ∧ (freed₁ ++ freed₂).Perm freed

/-- The three calls are functions of their arguments. -/
theorem composes_of_calls {bindex mindex eindex : BitVec 32} {freeFn : Option φ} {r₁ r₂ r : ℤ}
    {a₁ a₂ a' : MclArray α φ} {freed₁ freed₂ freed : Freed φ α}
    (hd₁ : mclArrayDeleteRange mindex eindex a freeFn = some (r₁, a₁, freed₁))
    (hd₂ : mclArrayDeleteRange bindex mindex a₁ freeFn = some (r₂, a₂, freed₂))
    (hd : mclArrayDeleteRange bindex eindex a freeFn = some (r, a', freed)) :
    a.Composes bindex mindex eindex freeFn ↔ a₂.elems = a'.elems ∧ (freed₁ ++ freed₂).Perm freed := by
  constructor
  · rintro ⟨_, _, _, _, _, _, _, _, _, h₁, h₂, h₃, hsame, hfreed⟩
    rw [hd₁] at h₁
    obtain ⟨-, rfl, rfl⟩ := Option.some.inj h₁
    rw [hd₂] at h₂
    obtain ⟨-, rfl, rfl⟩ := Option.some.inj h₂
    rw [hd] at h₃
    obtain ⟨-, rfl, rfl⟩ := Option.some.inj h₃
    exact ⟨hsame, hfreed⟩
  · rintro ⟨hsame, hfreed⟩
    exact ⟨_, _, _, _, _, _, _, _, _, hd₁, hd₂, hd, hsame, hfreed⟩

/-- Both parts have elements, or the second call is refused and one deletion at the end of the array
does for both. -/
def SplitsWell (a : MclArray α φ) (bindex mindex eindex : BitVec 32) : Prop :=
  (bindex.toNat < mindex.toNat ∧ mindex.toNat < eindex.toNat) ∨
    (mindex = eindex ∧ eindex.toNat + 1 = a.curSize.toNat ∧
      (bindex = eindex ∧ 1 < a.curSize.toNat ∨
        bindex.toNat + 1 = eindex.toNat ∧ a.elems[bindex.toNat]? = a.elems[eindex.toNat]?))

/-- The second call finds its bounds inside the array. -/
theorem composes_inside (h : a.InSlots) {bindex mindex eindex : BitVec 32} (hbm : bindex.toNat ≤ mindex.toNat)
    (hme : mindex.toNat ≤ eindex.toNat) (he : eindex.toNat < a.curSize.toNat)
    (hroom : ¬ (mindex = eindex ∧ eindex.toNat + 1 = a.curSize.toNat)) (freeFn : Option φ) :
    a.Composes bindex mindex eindex freeFn ↔ a.SplitsWell bindex mindex eindex := by
  have hlen := elems_length h
  obtain ⟨r₁, a₁, hd₁, hin₁, hsize₁, helems₁⟩ := mclArrayDeleteRange_eq h hme he freeFn
  have hm : mindex.toNat < a₁.curSize.toNat := by
    have hne : mindex.toNat = eindex.toNat → eindex.toNat + 1 ≠ a.curSize.toNat := fun heq hc =>
      hroom ⟨BitVec.eq_of_toNat_eq heq, hc⟩
    omega
  obtain ⟨r₂, a₂, hd₂, hin₂, hsize₂, helems₂⟩ := mclArrayDeleteRange_eq hin₁ hbm hm freeFn
  obtain ⟨r, a', hd, hin', hsize, helems⟩ := mclArrayDeleteRange_eq h (Nat.le_trans hbm hme) he freeFn
  rw [composes_of_calls hd₁ hd₂ hd]
  constructor
  · rintro ⟨hsame, -⟩
    have hcount := congrArg List.length hsame
    rw [elems_length hin₂, elems_length hin'] at hcount
    exact .inl (by omega)
  · intro hsplit
    obtain ⟨hlt, hlt'⟩ := hsplit.resolve_right fun hc => hroom ⟨hc.1, hc.2.1⟩
    have hw₁ : max 1 (eindex.toNat - mindex.toNat) = eindex.toNat - mindex.toNat := by omega
    have hw₂ : max 1 (mindex.toNat - bindex.toNat) = mindex.toNat - bindex.toNat := by omega
    have hw : max 1 (eindex.toNat - bindex.toNat) =
        mindex.toNat - bindex.toNat + (eindex.toNat - mindex.toNat) := by omega
    have hpre : (a.elems.take mindex.toNat).length = mindex.toNat := by
      rw [List.length_take]
      omega
    constructor
    · rw [helems₂, helems₁, helems, hw₁, hw₂, hw]
      rw [show bindex.toNat + (mindex.toNat - bindex.toNat) = mindex.toNat by omega,
        show mindex.toNat + (eindex.toNat - mindex.toNat) = eindex.toNat by omega,
        show bindex.toNat + (mindex.toNat - bindex.toNat + (eindex.toNat - mindex.toNat)) = eindex.toNat by omega,
        List.take_append_of_le_length (by omega), List.take_take, Nat.min_eq_left hbm,
        List.drop_append_of_le_length (by omega), List.drop_of_length_le (by omega), List.nil_append]
    · rw [helems₁, hw₁, hw₂, hw, List.drop_append_of_le_length (by omega),
        List.take_append_of_le_length (Nat.le_of_eq (by rw [List.length_drop, hpre])), List.drop_take,
        List.take_take, Nat.min_self, List.take_add, callFrees_append, List.drop_drop,
        show bindex.toNat + (mindex.toNat - bindex.toNat) = mindex.toNat by omega]
      exact List.perm_append_comm

theorem take_singleton {β : Type} {xs : List β} {i j : ℕ} (hj : j + 1 = xs.length) (hi : i + 1 = j) :
    xs.take j = xs.take i ++ xs.drop j ↔ xs[i]? = xs[j]? := by
  subst hi
  have hget : i < xs.length := by omega
  have hget' : i + 1 < xs.length := by omega
  have hlast : xs.drop (i + 1) = [xs[i + 1]] := by
    rw [List.drop_eq_getElem_cons hget', hj, List.drop_length]
  rw [hlast, List.take_add_one, List.getElem?_eq_getElem hget, List.getElem?_eq_getElem hget',
    List.append_right_inj, Option.toList_some, List.cons.injEq, Option.some.injEq, and_iff_left rfl]

/-- The only element has gone with the first call, and the second runs off the block. -/
theorem not_composes_single (h : a.InSlots) (hsingle : a.curSize.toNat = 1) (freeFn : Option φ) :
    ¬ a.Composes 0 0 0 freeFn := by
  have hzero : (0 : BitVec 32).toNat = 0 := rfl
  obtain ⟨r₁, a₁, hd₁, hin₁, hsize₁, -⟩ :=
    mclArrayDeleteRange_eq h (Nat.le_refl (0 : BitVec 32).toNat) (by omega) freeFn
  have h0 : a₁.curSize = 0 := BitVec.eq_of_toNat_eq (show a₁.curSize.toNat = 0 by omega)
  have hnone := mclArrayDeleteRange_empty hin₁ h0 freeFn
  rintro ⟨_, _, _, _, _, _, _, _, _, h₁, h₂, -⟩
  rw [hd₁] at h₁
  obtain ⟨-, rfl, rfl⟩ := Option.some.inj h₁
  rw [hnone] at h₂
  exact absurd h₂ (by simp)

/-- With `mindex` and `eindex` on the last element there are two ways to split well. -/
theorem splitsWell_at_end {bindex eindex : BitVec 32} (hend : eindex.toNat + 1 = a.curSize.toNat) :
    a.SplitsWell bindex eindex eindex ↔ bindex = eindex ∧ 1 < a.curSize.toNat ∨
      bindex.toNat + 1 = eindex.toNat ∧ a.elems[bindex.toNat]? = a.elems[eindex.toNat]? := by
  constructor
  · rintro (⟨-, hlt⟩ | ⟨-, -, hlast⟩)
    · exact absurd hlt (Nat.lt_irrefl _)
    · exact hlast
  · exact fun hlast => .inr ⟨rfl, hend, hlast⟩

/-- The last element has gone with the first call, and its index is out of bounds for the second. -/
theorem composes_at_end (h : a.InSlots) {bindex eindex : BitVec 32} (hbe : bindex.toNat ≤ eindex.toNat)
    (hend : eindex.toNat + 1 = a.curSize.toNat) (freeFn : Option φ) :
    a.Composes bindex eindex eindex freeFn ↔ a.SplitsWell bindex eindex eindex := by
  have hlen := elems_length h
  have he : eindex.toNat < a.curSize.toNat := by omega
  have hget : eindex.toNat < a.elems.length := by omega
  obtain ⟨r₁, a₁, hd₁, hin₁, hsize₁, helems₁⟩ := mclArrayDeleteRange_eq h (Nat.le_refl _) he freeFn
  obtain ⟨r, a', hd, hin', hsize, helems⟩ := mclArrayDeleteRange_eq h hbe he freeFn
  have hone : max 1 (eindex.toNat - eindex.toNat) = 1 := by omega
  rw [hone, List.drop_eq_getElem_cons hget, List.take_succ_cons, List.take_zero] at hd₁
  rw [hone] at hsize₁
  rw [hone, hend, ← hlen, List.drop_length, List.append_nil] at helems₁
  by_cases hsingle : a.curSize.toNat = 1
  · have hzero : eindex = 0 := BitVec.eq_of_toNat_eq (show eindex.toNat = 0 by omega)
    obtain rfl : bindex = eindex := BitVec.eq_of_toNat_eq (by omega)
    subst hzero
    rw [splitsWell_at_end hend]
    refine iff_of_false (not_composes_single h hsingle freeFn) ?_
    rintro (⟨-, hlt⟩ | ⟨hsucc, -⟩)
    · omega
    · exact absurd hsucc (by decide)
  have h0 : a₁.curSize ≠ 0 := fun hc => by
    have hzero : a₁.curSize.toNat = 0 := by
      rw [hc]
      rfl
    omega
  have hrefused : mclArrayDeleteRange bindex eindex a₁ freeFn = some (-1, a₁, []) := by
    apply mclArrayDeleteRange_outside hin₁ h0
    refine .inr (.inl fun hc => ?_)
    have hint := toNat_of_nonneg hc.1
    omega
  rw [composes_of_calls hd₁ hrefused hd, splitsWell_at_end hend]
  constructor
  · rintro ⟨hsame, -⟩
    have hcount := congrArg List.length hsame
    rw [elems_length hin₁, elems_length hin'] at hcount
    by_cases heq : bindex = eindex
    · exact .inl ⟨heq, by omega⟩
    · have hne : bindex.toNat ≠ eindex.toNat := fun hc => heq (BitVec.eq_of_toNat_eq hc)
      have hsucc : bindex.toNat + 1 = eindex.toNat := by omega
      rw [helems₁, helems, show bindex.toNat + max 1 (eindex.toNat - bindex.toNat) = eindex.toNat by omega,
        take_singleton (by omega) hsucc] at hsame
      exact .inr ⟨hsucc, hsame⟩
  · intro hlast
    constructor
    · rw [helems₁, helems]
      rcases hlast with ⟨rfl, -⟩ | ⟨hsucc, hsame⟩
      · rw [hone, hend, ← hlen, List.drop_length, List.append_nil]
      · rw [show bindex.toNat + max 1 (eindex.toNat - bindex.toNat) = eindex.toNat by omega,
          take_singleton (by omega) hsucc]
        exact hsame
    · rw [List.append_nil]
      rcases hlast with ⟨rfl, -⟩ | ⟨hsucc, hsame⟩
      · rw [hone, List.drop_eq_getElem_cons hget, List.take_succ_cons, List.take_zero]
      · have hget' : bindex.toNat < a.elems.length := by omega
        have hwidth : max 1 (eindex.toNat - bindex.toNat) = 1 := by omega
        rw [List.getElem?_eq_getElem hget, List.getElem?_eq_getElem hget', Option.some.injEq] at hsame
        rw [hwidth, List.drop_eq_getElem_cons hget', List.take_succ_cons, List.take_zero, hsame]

theorem InSlots.composes_iff (h : a.InSlots) {bindex mindex eindex : BitVec 32} (hb : 0 ≤ bindex.toInt)
    (hbm : bindex.toInt ≤ mindex.toInt) (hme : mindex.toInt ≤ eindex.toInt)
    (he : eindex.toInt < a.curSize.toNat) (freeFn : Option φ) :
    a.Composes bindex mindex eindex freeFn ↔ a.SplitsWell bindex mindex eindex := by
  have hbint := toNat_of_nonneg hb
  have hmint := toNat_of_nonneg (show 0 ≤ mindex.toInt by omega)
  have heint := toNat_of_nonneg (show 0 ≤ eindex.toInt by omega)
  by_cases hroom : mindex = eindex ∧ eindex.toNat + 1 = a.curSize.toNat
  · obtain ⟨rfl, hend⟩ := hroom
    exact composes_at_end h (by omega) hend freeFn
  · exact composes_inside h (by omega) (by omega) (by omega) hroom freeFn

/-- The part in front of index 1 is empty, and costs the element at 1 its place. -/
theorem composes_empty_part :
    ¬ ∀ a : MclArray ℕ ℕ, a.InSlots → ∀ (bindex mindex eindex : BitVec 32) (freeFn : Option ℕ),
      0 ≤ bindex.toInt → bindex.toInt ≤ mindex.toInt → mindex.toInt ≤ eindex.toInt →
        eindex.toInt < a.curSize.toNat → a.Composes bindex mindex eindex freeFn := by
  intro hall
  have hin : MclArray.InSlots (⟨[some 7, some 8, some 9], 3, 3, none⟩ : MclArray ℕ ℕ) := ⟨by decide, by decide⟩
  have hcomp := hall _ hin 1 1 2 none (by decide) (by decide) (by decide) (by decide)
  rcases (composes_inside hin (by decide) (by decide) (by decide) (by decide) none).mp hcomp with
    ⟨hlt, -⟩ | ⟨heq, -⟩
  · exact absurd hlt (by decide)
  · exact absurd heq (by decide)

theorem InSlots.composes_four :
    (⟨[some 7, none, some 8, some 9], 4, 4, none⟩ : MclArray ℕ ℕ).Composes 0 1 3 (some 0) :=
  (InSlots.composes_iff ⟨by decide, by decide⟩ (by decide) (by decide) (by decide) (by decide) (some 0)).mpr
    (.inl ⟨by decide, by decide⟩)

end MclArray
end Mcl
