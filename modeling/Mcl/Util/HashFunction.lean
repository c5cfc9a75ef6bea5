import Mcl.Library.Keyed
import Mcl.Util.Common
import Mcl.Util.String

/-! The hash functions of `mcl_hash.c` in LP64 machine arithmetic. -/
namespace Mcl
open Mcl.Library

/-- `mcl_hash_key`: the type tag and the data it selects. -/
inductive HashKey where
  | int (key : BitVec 32)
  | str (key : MclString)
  deriving DecidableEq, Repr

def HashKey.type : HashKey → DataType
  | .int _ => .int
  | .str _ => .str

def mclHashMaxSize : ℕ := 1021

/-- `(key * 2654435761) % MCL_HASH_MAX_SIZE` returned as `unsigned int`: the literal has type
`long`, so product and remainder are signed 64-bit. -/
def calHashInt (key : BitVec 32) : BitVec 32 :=
  ((key.signExtend 64 * 2654435761#64).srem 1021#64).setWidth 32

/-- One round of the loop of `cal_hash_str`. -/
def elfStep (hash : BitVec 64) (c : Byte) : BitVec 64 :=
  let hash := (hash <<< 4) + c.signExtend 64
  let x := hash &&& 0xF0000000#64
  let hash := if x ≠ 0 then hash ^^^ x.sshiftRight 24 else hash
  hash &&& ~~~x

def calHashStr (strp : MclString) : BitVec 32 :=
  calHashInt (((strp.ptr.take strp.len.toInt.toNat).foldl elfStep 0).setWidth 32)

/-- `calc_hash`: the `unsigned int` comes back as `int`. -/
def calcHash : HashKey → ℤ
  | .int key => (calHashInt key).toInt
  | .str key => (calHashStr key).toInt

def availableHashValue (hash : ℤ) : Bool := decide (0 ≤ hash ∧ hash < mclHashMaxSize)

/-- `key_cmp`. -/
def keyCmp (key1 key2 : HashKey) : Bool :=
  match key1, key2 with
  | .int k1, .int k2 => k1 == k2
  | .str k1, .str k2 => mclStringCmp k1 k2 == 0
  | _, _ => false

private theorem toInt_setWidth_of_small (x : BitVec 64) (hlo : -1021 < x.toInt) (hhi : x.toInt < 1021) :
    (x.setWidth 32).toInt = x.toInt := by
  have hlt := x.isLt
  rw [BitVec.toInt_setWidth, Int.bmod_def]
  rw [BitVec.toInt_eq_toNat_cond] at hlo hhi ⊢
  by_cases hx : 2 * x.toNat < 2 ^ 64 <;> simp only [hx, if_true, if_false] at hlo hhi ⊢ <;> omega

/-- The sign of the remainder is the sign of the key. -/
theorem calHashInt_toInt (key : BitVec 32) :
    (calHashInt key).toInt = (key.toInt * 2654435761).tmod 1021 := by
  have hlo := BitVec.le_toInt key
  have hhi := BitVec.toInt_lt (x := key)
  have hs : (key.signExtend 64).toInt = key.toInt := BitVec.toInt_signExtend_of_le (by omega)
  have hp : (key.signExtend 64 * 2654435761#64).toInt = key.toInt * 2654435761 := by
    rw [BitVec.toInt_mul, hs, show (2654435761#64).toInt = 2654435761 from rfl]
    exact Int.bmod_eq_of_le (by omega) (by omega)
  have hr : ((key.signExtend 64 * 2654435761#64).srem 1021#64).toInt =
      (key.toInt * 2654435761).tmod 1021 := by
    rw [BitVec.toInt_srem, hp]; rfl
  have hlt := Int.tmod_lt_of_pos (key.toInt * 2654435761) (by decide : (0 : ℤ) < 1021)
  have hgt := Int.lt_tmod_of_pos (key.toInt * 2654435761) (by decide : (0 : ℤ) < 1021)
  rw [← hr] at hlt hgt ⊢
  exact toInt_setWidth_of_small _ hgt hlt

/-- The hash is an available bucket number exactly for the keys that are not negative or are
multiples of the table size. -/
theorem available_calHashInt (key : BitVec 32) :
    availableHashValue (calHashInt key).toInt = true ↔ 0 ≤ key.toInt ∨ 1021 ∣ key.toInt := by
  have hlt := Int.tmod_lt_of_pos (key.toInt * 2654435761) (by decide : (0 : ℤ) < 1021)
  have hdvd : 1021 ∣ key.toInt * 2654435761 ↔ 1021 ∣ key.toInt := by omega
  have hsign : 0 ≤ (key.toInt * 2654435761).tmod 1021 ↔ 0 ≤ key.toInt ∨ 1021 ∣ key.toInt := by
    constructor
    · intro h
      by_contra hc
      rw [not_or] at hc
      have hneg := Int.neg_tmod (-(key.toInt * 2654435761)) 1021
      rw [Int.neg_neg] at hneg
      have hpos := Int.tmod_nonneg 1021 (show 0 ≤ -(key.toInt * 2654435761) by omega)
      have hz : (key.toInt * 2654435761).tmod 1021 = 0 := by omega
      exact hc.2 (hdvd.mp (Int.dvd_iff_tmod_eq_zero.mpr hz))
    · rintro (h | h)
      · exact Int.tmod_nonneg 1021 (by omega)
      · exact Int.le_of_eq (Int.dvd_iff_tmod_eq_zero.mp (hdvd.mpr h)).symm
  rw [calHashInt_toInt, availableHashValue, decide_eq_true_eq, hsign]
  exact and_iff_left hlt

/-- Whatever the accumulator holds above bit 31, a round clears bits 28 to 31. -/
theorem elfStep_high (hash : BitVec 64) (c : Byte) (i : ℕ) (h28 : 28 ≤ i) (h32 : i < 32) :
    (elfStep hash c).getLsbD i = false := by
  have hi : i = 28 ∨ i = 29 ∨ i = 30 ∨ i = 31 := by omega
  simp only [elfStep]
  generalize (hash <<< 4) + c.signExtend 64 = h
  split
  · rcases hi with rfl | rfl | rfl | rfl <;> simp [BitVec.getElem_sshiftRight]
  · rcases hi with rfl | rfl | rfl | rfl <;> simp

theorem foldl_elfStep_high (bytes : List Byte) (i : ℕ) (h28 : 28 ≤ i) (h32 : i < 32) :
    (bytes.foldl elfStep 0).getLsbD i = false := by
  rcases bytes.eq_nil_or_concat with rfl | ⟨bytes, c, rfl⟩
  · simp
  · rw [List.concat_eq_append, List.foldl_append]
    exact elfStep_high _ _ _ h28 h32

private theorem toInt_nonneg_of_high (x : BitVec 64) (h : ∀ i, 28 ≤ i → i < 32 → x.getLsbD i = false) :
    0 ≤ (x.setWidth 32).toInt ∧ (x.setWidth 32).toInt < 2 ^ 28 := by
  have hlt : (x.setWidth 32).toNat < 2 ^ 28 := by
    refine Nat.lt_pow_two_of_testBit _ (fun i hi => ?_)
    rw [BitVec.testBit_toNat, BitVec.getLsbD_setWidth]
    by_cases h32 : i < 32
    · rw [h i hi h32, Bool.and_false]
    · simp [h32]
  have hcond := BitVec.toInt_eq_toNat_cond (x.setWidth 32)
  rw [if_pos (by omega)] at hcond
  omega

/-- What `cal_hash_str` passes on to `cal_hash_int`: the accumulator as an `int`. -/
def elfHash (bytes : List Byte) : BitVec 32 := (bytes.foldl elfStep 0).setWidth 32

theorem elfHash_range (bytes : List Byte) : 0 ≤ (elfHash bytes).toInt ∧ (elfHash bytes).toInt < 2 ^ 28 :=
  toInt_nonneg_of_high _ fun i => foldl_elfStep_high bytes i

theorem calHashStr_eq (strp : MclString) :
    calHashStr strp = calHashInt (elfHash (strp.ptr.take strp.len.toInt.toNat)) := rfl

theorem calHashInt_range {key : BitVec 32} (h : 0 ≤ key.toInt) :
    0 ≤ (calHashInt key).toInt ∧ (calHashInt key).toInt < mclHashMaxSize := by
  have havailable := (available_calHashInt key).mpr (.inl h)
  rwa [availableHashValue, decide_eq_true_eq] at havailable

theorem available_calHashStr (strp : MclString) :
    availableHashValue (calHashStr strp).toInt = true := by
  rw [calHashStr_eq, available_calHashInt]
  exact .inl (elfHash_range _).1

/-- The accumulator may be negative or have bits above 31, but it never has one of the bits 28 to 31. -/
theorem calHashStr_bucket :
    (∀ bytes : List Byte,
      (∀ pre, pre <+: bytes → ∀ i, 28 ≤ i → i < 32 → (pre.foldl elfStep 0).getLsbD i = false) ∧
        (0 ≤ (elfHash bytes).toInt ∧ (elfHash bytes).toInt < 2 ^ 28) ∧
        0 ≤ (calHashInt (elfHash bytes)).toInt ∧ (calHashInt (elfHash bytes)).toInt < mclHashMaxSize) ∧
      ∀ strp : MclString,
        calHashStr strp = calHashInt (elfHash (strp.ptr.take strp.len.toInt.toNat)) ∧
          availableHashValue (calcHash (.str strp)) = true := by
  constructor
  · intro bytes
    have hrange := elfHash_range bytes
    exact ⟨fun pre _ i => foldl_elfStep_high pre i, hrange, calHashInt_range hrange.1⟩
  · exact fun strp => ⟨calHashStr_eq strp, available_calHashStr strp⟩

/-- Strings with the same bytes have the same hash. -/
theorem calHashStr_congr {a b : MclString} (ha : a.Valid) (hb : b.Valid)
    (h : a.contents = b.contents) : calHashStr a = calHashStr b := by
  unfold calHashStr
  rw [← ha.len_toNat, ← hb.len_toNat]
  unfold MclString.contents at h
  rw [h]

namespace HashKey

/-- The keys a caller can pass. -/
def Valid : HashKey → Prop
  | .int _ => True
  | .str s => s.Valid

/-- The key that `make_pair` stores. -/
def copy : HashKey → HashKey
  | .int k => .int k
  | .str s => .str (mclStringCopy s)

/-- All that `key_cmp` compares. -/
def view : HashKey → BitVec 32 ⊕ List Byte
  | .int k => .inl k
  | .str s => .inr s.cstr

variable {key : HashKey}

@[simp] theorem copy_type (key : HashKey) : key.copy.type = key.type := by cases key <;> rfl

theorem copy_view (h : key.Valid) : key.copy.view = key.view := by
  cases key with
  | int k => rfl
  | str s => exact congrArg Sum.inr (MclString.Valid.copy_cstr h)

theorem copy_valid (h : key.Valid) : key.copy.Valid := by
  cases key with
  | int k => trivial
  | str s => exact MclString.Valid.copy_valid h

theorem calcHash_copy (h : key.Valid) : calcHash key.copy = calcHash key := by
  cases key with
  | int k => rfl
  | str s =>
    have hs : calHashStr (mclStringCopy s) = calHashStr s :=
      calHashStr_congr (MclString.Valid.copy_valid h) h (MclString.Valid.copy_contents h)
    exact congrArg BitVec.toInt hs

end HashKey

theorem keyCmp_iff (key1 key2 : HashKey) : keyCmp key1 key2 = true ↔ key1.view = key2.view := by
  cases key1 <;> cases key2 <;> simp [keyCmp, HashKey.view, mclStringCmp_eq_zero]

/-- `key_cmp` is an equivalence. -/
def hashKeySame : KeySame HashKey where
  same := keyCmp
  refl k := (keyCmp_iff k k).mpr rfl
  symm a b := by
    rw [Bool.eq_iff_iff, keyCmp_iff, keyCmp_iff]
    exact eq_comm
  trans a b c hab hbc := by
    rw [keyCmp_iff] at hab hbc ⊢
    exact hab.trans hbc

theorem keyCmp_copy {key : HashKey} (h : key.Valid) : keyCmp key key.copy = true :=
  (keyCmp_iff _ _).mpr (HashKey.copy_view h).symm

/-- The number of the bucket a key belongs to, when its hash is an available one. -/
def bucketOf (key : HashKey) : Option ℕ :=
  if availableHashValue (calcHash key) then some (calcHash key).toNat else none

theorem bucketOf_eq_some {key : HashKey} {i : ℕ} :
    bucketOf key = some i ↔ availableHashValue (calcHash key) = true ∧ calcHash key = i := by
  simp only [bucketOf, availableHashValue, Option.ite_none_right_eq_some, Option.some.injEq,
    decide_eq_true_eq]
  omega

theorem bucketOf_lt {key : HashKey} {i : ℕ} (h : bucketOf key = some i) : i < mclHashMaxSize := by
  obtain ⟨ha, hi⟩ := bucketOf_eq_some.mp h
  simp only [availableHashValue, decide_eq_true_eq] at ha
  omega

theorem bucketOf_copy {key : HashKey} (h : key.Valid) : bucketOf key.copy = bucketOf key := by
  rw [bucketOf, bucketOf, HashKey.calcHash_copy h]

end Mcl
