import Mcl.Util.ArrayInsertion

/-! The capacities of `mcl_array.c` up to the limits of `int`. -/
namespace Mcl

variable {α φ : Type}

/-- `n << 1` is the double of `n`: it stays an `int`. -/
def Doubles (n : BitVec 32) : Prop := (n <<< 1).toInt = 2 * n.toInt

instance (n : BitVec 32) : Decidable (Doubles n) := inferInstanceAs (Decidable (_ = _))

/-- What `f` computes with an allocator hangs on its answer to a request for `bytes` bytes, and on none
of its other answers. -/
def Asks {β γ : Type} (f : (BitVec 64 → β) → γ) (bytes : BitVec 64) : Prop :=
  ∀ alloc alloc', alloc bytes = alloc' bytes → f alloc = f alloc'

section Sizes

variable {n initSize : BitVec 32}

theorem sizeofSlots_toNat (h : n.toNat < 2 ^ 31) : (sizeofSlots n).toNat = 8 * n.toNat := by
  have hext : (n.signExtend 64).toInt = n.toInt := BitVec.toInt_signExtend_of_le (by omega)
  have hint := toInt_eq_toNat h
  have hbytes : (sizeofSlots n).toInt = 8 * n.toNat := by
    rw [sizeofSlots, BitVec.toInt_mul, hext, hint, show (8#64).toInt = 8 from rfl]
    exact Int.bmod_eq_of_le (by omega) (by omega)
  rw [BitVec.toInt_eq_toNat_cond] at hbytes
  split at hbytes <;> omega

theorem doubles_iff (h : 0 ≤ n.toInt) : Doubles n ↔ n.toInt < 2 ^ 30 := by
  have hnat := MclArray.toNat_of_nonneg h
  constructor
  · intro hdouble
    have hlt := (n <<< 1).toInt_lt
    rw [hdouble] at hlt
    omega
  · intro hlt
    have hshift := toNat_shiftLeft_one (n := n) (by omega)
    rw [Doubles, toInt_eq_toNat (by omega), hshift]
    omega

end Sizes

namespace MclArray

variable {a : MclArray α φ} {junk : ℕ → Option α} {initSize : BitVec 32}

/-- Every length that is not negative is accepted. -/
theorem mclArrayNew_eq (h : 0 ≤ initSize.toInt) (junk : ℕ → Option α) (eraseJunk : Option φ) :
    ∃ a, mclArrayNew initSize junk eraseJunk = some (some a) ∧ a.totalSize = newCapacity initSize ∧
      a.allData.length = slotsOf (newCapacity initSize) := by
  have hneg : initSize.slt 0 = false := by
    rw [BitVec.slt, decide_eq_false_iff_not]
    exact Int.not_lt.mpr h
  have hlen := length_mallocData junk (newCapacity initSize)
  obtain ⟨b, hb, hs⟩ := nullLoop_spec
    (a := ⟨mallocData junk (sizeofSlots (newCapacity initSize)), 0, 0, eraseJunk⟩)
    (newCapacity initSize).toInt.toNat (Int.le_refl 0) (by rw [hlen, slotsOf_toInt]; omega)
  refine ⟨{ b with curSize := 0, totalSize := newCapacity initSize }, ?_, rfl, hs.length.trans hlen⟩
  rw [mclArrayNew, mclArrayNewWith, hneg, if_neg Bool.false_ne_true]
  simp only [hb, Option.bind_eq_bind, Option.bind_some]

theorem mclArrayNewWith_asks (initSize : BitVec 32) (eraseJunk : Option φ) :
    Asks (fun malloc : BitVec 64 → List (Option α) => mclArrayNewWith malloc initSize eraseJunk)
      (sizeofSlots (newCapacity initSize)) := by
  intro malloc malloc' hsame
  simp only [mclArrayNewWith, hsame]

theorem tryExtendArrayWith_asks (a : MclArray α φ) :
    Asks (fun realloc => tryExtendArrayWith realloc a) (sizeofSlots (a.totalSize <<< 1)) := by
  intro realloc realloc' hsame
  simp only [tryExtendArrayWith, extendArray, hsame]

/-- The capacity does not overflow and has the slots that were asked for, in the block too; the bytes
that `malloc` is asked for are those of `_total_size` pointers. -/
structure NewSizes (a : MclArray α φ) (initSize : BitVec 32) : Prop where
  doubles : mclArrDefaultSize.slt initSize = true → Doubles initSize
  least : initSize.toInt ≤ a.totalSize.toNat
  block : a.allData.length = a.totalSize.toNat
  bytes : ∃ bytes : BitVec 64, bytes.toNat = 8 * a.totalSize.toNat ∧ ∀ eraseJunk : Option φ,
    Asks (fun malloc : BitVec 64 → List (Option α) => mclArrayNewWith malloc initSize eraseJunk) bytes

theorem newSizes_iff (h : 0 ≤ initSize.toInt) (ha : a.totalSize = newCapacity initSize)
    (hlen : a.allData.length = slotsOf (newCapacity initSize)) : a.NewSizes initSize ↔ initSize.toInt < 2 ^ 30 := by
  have hdef : mclArrDefaultSize.toInt = 64 := rfl
  have hslt : mclArrDefaultSize.slt initSize = true ↔ 64 < initSize.toInt := by
    rw [BitVec.slt, decide_eq_true_eq, hdef]
  constructor
  · intro hsizes
    by_contra hle
    have := (doubles_iff h).mp (hsizes.doubles (hslt.mpr (by omega)))
    omega
  · intro hlt
    have hnat := toNat_of_nonneg h
    have hshift := toNat_shiftLeft_one (n := initSize) (by omega)
    have hcap : initSize.toNat ≤ (newCapacity initSize).toNat ∧ (newCapacity initSize).toNat < 2 ^ 31 := by
      unfold newCapacity
      split
      · omega
      · next hdefault =>
        rw [hslt] at hdefault
        have : mclArrDefaultSize.toNat = 64 := rfl
        omega
    constructor
    · exact fun _ => (doubles_iff h).mpr hlt
    · rw [ha]
      omega
    · rw [ha, hlen, slotsOf_eq hcap.2]
    · rw [ha, ← sizeofSlots_toNat hcap.2]
      exact ⟨_, rfl, mclArrayNewWith_asks initSize⟩

/-- The call gets as far as `try_extend_array`. -/
def Adds (a : MclArray α φ) : ArrayOp α φ → Prop
  | .append _ _ | .preappend _ _ => True
  | .insert _ index _ | .preinsert _ index _ => checkOutOfBounds index a = false
  | .clean _ | .tighten _ => False

/-- The call makes `extend_array` ask for a new block. -/
def Grows (a : MclArray α φ) (op : ArrayOp α φ) : Prop :=
  a.Adds op ∧ a.totalSize.sle a.curSize = true ∧ (a.totalSize <<< 1).ule a.totalSize = false

/-- The capacity does not overflow, the call returns with a slot more at least, in the block too, and
the bytes that `realloc` is asked for are those of the new `_total_size` pointers. -/
structure GrowSizes (a : MclArray α φ) (op : ArrayOp α φ) : Prop where
  doubles : Doubles a.totalSize
  larger : ∃ ans a', execArray a op = some (ans, a') ∧ a.curSize.toNat < a'.totalSize.toNat ∧
    a'.allData.length = a'.totalSize.toNat ∧ ∃ bytes : BitVec 64, bytes.toNat = 8 * a'.totalSize.toNat ∧
      Asks (fun realloc => tryExtendArrayWith realloc a) bytes

/-- An insertion into a block with elements opens a gap behind the growth. -/
theorem Adds.openGap (h : a.InSlots) (hpos : 1 ≤ a.curSize.toNat) {op : ArrayOp α φ} (hadds : a.Adds op) :
    ∃ lo ret data junk, lo ≤ a.curSize.toNat ∧ execArray a op =
      (openGap lo data (tryExtendArray a junk)).map fun a' => ((ret, []), a') := by
  have hin : ∀ index, checkOutOfBounds index a = false → index.toNat < a.curSize.toNat := by
    intro index hout
    rcases of_checkOutOfBounds hout with ⟨h0, -⟩ | hlt
    · rw [h0] at hpos
      exact absurd hpos (by decide)
    · exact hlt
  cases op with
  | append data junk =>
    exact ⟨_, _, data, junk, Nat.le_refl _, by rw [execArray, mclArrayAppend_eq h, Option.map_map]; rfl⟩
  | preappend data junk =>
    exact ⟨_, _, data, junk, Nat.zero_le _, by rw [execArray, mclArrayPreappend_eq h, Option.map_map]; rfl⟩
  | insert data index junk =>
    have hi := hin index hadds
    exact ⟨_, _, data, junk, hi, by rw [execArray, mclArrayInsert_eq h hi, Option.map_map]; rfl⟩
  | preinsert data index junk =>
    have hi := hin index hadds
    exact ⟨_, _, data, junk, Nat.le_of_lt hi, by rw [execArray, mclArrayPreinsert_eq h hi, Option.map_map]; rfl⟩
  | clean freeFn => exact hadds.elim
  | tighten junk => exact hadds.elim

theorem growSizes_iff {op : ArrayOp α φ} (hfull : a.curSize = a.totalSize) (hpos : 1 ≤ a.totalSize.toNat)
    (halloc : a.allData.length = a.totalSize.toNat) (hgrow : a.Grows op) :
    a.GrowSizes op ↔ a.totalSize.toNat < 2 ^ 30 := by
  obtain ⟨hadds, hsle, hule⟩ := hgrow
  have hsmall : a.totalSize.toNat < 2 ^ 31 := by
    rw [BitVec.ule, decide_eq_false_iff_not, BitVec.toNat_shiftLeft, Nat.shiftLeft_eq] at hule
    omega
  have hint := toInt_eq_toNat hsmall
  have hdoubles := doubles_iff (n := a.totalSize) (by omega)
  constructor
  · intro hsizes
    have := hdoubles.mp hsizes.doubles
    omega
  · intro hlt
    have hshift := toNat_shiftLeft_one hlt
    have hcur : a.curSize.toNat = a.totalSize.toNat := by rw [hfull]
    have hin : a.InSlots := ⟨by omega, by omega⟩
    obtain ⟨lo, ret, data, junk, hlo, hexec⟩ := Adds.openGap hin (by omega) hadds
    have hslots : a.allData.length = slotsOf a.totalSize := by rw [halloc, slotsOf_eq hsmall]
    obtain ⟨d, hext, hdlen, -⟩ := tryExtendArray_eq hslots junk
    rw [grownSize, if_pos ⟨hsle, hule⟩] at hext hdlen
    rw [slotsOf_eq (by omega)] at hdlen
    have hroom : a.curSize.toNat < d.length := by omega
    have hsmall' : d.length < 2 ^ 31 := by omega
    obtain ⟨d', hgap, hdlen', -⟩ := openGap_eq
      (a := { a with allData := d, totalSize := a.totalSize <<< 1 }) hlo hroom hsmall' data
    rw [hext, hgap] at hexec
    have hbytes : (sizeofSlots (a.totalSize <<< 1)).toNat = 8 * (a.totalSize <<< 1).toNat :=
      sizeofSlots_toNat (by omega)
    refine ⟨hdoubles.mpr (by omega), _, _, hexec, ?_, hdlen'.trans hdlen, _, hbytes, tryExtendArrayWith_asks a⟩
    change a.curSize.toNat < (a.totalSize <<< 1).toNat
    omega

end MclArray

/-- The capacities of `mcl_array_new` and of the insertions are right for sizes below `2 ^ 30`, and for
no others. -/
theorem mclArray_capacity_iff :
    (∀ (initSize : BitVec 32) (junk : ℕ → Option α) (eraseJunk : Option φ), 0 ≤ initSize.toInt →
      ((∃ a, mclArrayNew initSize junk eraseJunk = some (some a) ∧ a.NewSizes initSize) ↔
        initSize.toInt < 2 ^ 30)) ∧
      ∀ (a : MclArray α φ) (op : ArrayOp α φ), a.curSize = a.totalSize → 1 ≤ a.totalSize.toNat →
        a.allData.length = a.totalSize.toNat → a.Grows op →
        (a.GrowSizes op ↔ a.totalSize.toNat < 2 ^ 30) := by
  constructor
  · intro initSize junk eraseJunk h
    obtain ⟨a, ha, htotal, hlen⟩ := MclArray.mclArrayNew_eq h junk eraseJunk
    constructor
    · rintro ⟨a', ha', hsizes⟩
      obtain rfl : a = a' := Option.some.inj (Option.some.inj (ha.symm.trans ha'))
      exact (MclArray.newSizes_iff h htotal hlen).mp hsizes
    · intro hlt
      exact ⟨a, ha, (MclArray.newSizes_iff h htotal hlen).mpr hlt⟩
  · intro a op hfull hpos halloc hgrow
    exact MclArray.growSizes_iff hfull hpos halloc hgrow

/-- A length of 100, and an append to a full block of two slots. -/
theorem mclArray_capacity_iff_two :
    ((∃ a : MclArray ℕ ℕ, mclArrayNew 100 (fun _ => some 1) none = some (some a) ∧ a.NewSizes 100) ↔
        (100 : BitVec 32).toInt < 2 ^ 30) ∧
      ((⟨[some 7, some 8], 2, 2, none⟩ : MclArray ℕ ℕ).GrowSizes (.append (some 9) fun _ => some 1) ↔
        (2 : BitVec 32).toNat < 2 ^ 30) :=
  ⟨mclArray_capacity_iff.1 100 _ _ (by decide),
    mclArray_capacity_iff.2 _ _ rfl (by decide) rfl ⟨trivial, by decide, by decide⟩⟩

/-- A length of `2 ^ 30` doubles to the least `int`: `malloc` is asked for nearly `2 ^ 64` bytes, and the
array claims `2 ^ 31` slots of a block that has none. -/
theorem mclArray_capacity_half :
    0 ≤ (1073741824 : BitVec 32).toInt ∧ (1073741824 <<< 1 : BitVec 32).toInt = -2 ^ 31 ∧
      Asks (fun malloc : BitVec 64 → List (Option ℕ) => mclArrayNewWith malloc 1073741824 (none : Option ℕ))
        (BitVec.ofNat 64 (2 ^ 64 - 2 ^ 34)) ∧
      ∃ a : MclArray ℕ ℕ, mclArrayNew 1073741824 (fun _ => none) none = some (some a) ∧
        a.totalSize.toNat = 2 ^ 31 ∧ a.allData = [] ∧ ¬a.NewSizes 1073741824 := by
  have hpos : 0 ≤ (1073741824 : BitVec 32).toInt := by decide
  have hbytes : sizeofSlots (newCapacity 1073741824) = BitVec.ofNat 64 (2 ^ 64 - 2 ^ 34) := by decide
  obtain ⟨a, ha, htotal, hlen⟩ := MclArray.mclArrayNew_eq (α := ℕ) (φ := ℕ) hpos (fun _ => none) none
  refine ⟨hpos, by decide, ?_, a, ha, ?_, ?_, fun hsizes => ?_⟩
  · rw [← hbytes]
    exact MclArray.mclArrayNewWith_asks _ none
  · rw [htotal]
    decide
  · apply List.length_eq_zero_iff.mp
    rw [hlen]
    decide
  · exact absurd (hsizes.doubles (by decide)) (by decide)

end Mcl
