import Mathlib.Algebra.Group.Int.Defs
import Mathlib.Algebra.Group.Nat.Defs
import Mathlib.Data.Int.Notation
import Mathlib.Data.List.TakeWhile

/-! `mcl_string.c`: strings that carry a length and end in NUL. -/
namespace Mcl

/-- A `char`; arithmetic sign-extends it. -/
abbrev Byte := BitVec 8

/-- `ptr` is the buffer of `_len + 1` bytes behind the header. -/
structure MclString where
  len : BitVec 32
  ref : ℤ
  ptr : List Byte
  deriving DecidableEq, Repr

/-- `mcl_string_alloc`: copies `len` bytes whatever they are and appends NUL. -/
def mclStringAlloc (strp : List Byte) (len : ℤ) : MclString :=
  { len := BitVec.ofInt 32 len, ref := 1, ptr := strp.take len.toNat ++ [0] }

def mclStringCopy (src : MclString) : MclString := mclStringAlloc src.ptr src.len.toInt

def isSpace (c : Byte) : Bool := c == 32 || c == 9

/-- The loops that move `head` up and `tail` down: `chars` is the memory from `i` on in the direction
of `step`. Indices count from `_ptr`; besides where the loop stops, those that it has read. -/
def skipSpaces (step : ℤ) : List Byte → ℤ → Option (ℤ × List ℤ)
  | [], _ => none
  | c :: chars, i =>
    if isSpace c then (skipSpaces step chars (i + step)).map fun (j, touched) => (j, i :: touched)
    else some (i, [i])

def readChar (ptr : List Byte) (i : ℤ) : Option Byte := if 0 ≤ i then ptr[i.toNat]? else none

def writeChar (ptr : List Byte) (i : ℤ) (c : Byte) : Option (List Byte) :=
  if 0 ≤ i ∧ i < ptr.length then some (ptr.set i.toNat c) else none

/-- `*src ++ = *head ++`, `n` times. -/
def moveChars : ℕ → ℤ → ℤ → List Byte → Option (List Byte × List ℤ)
  | 0, _, _, ptr => some (ptr, [])
  | n + 1, src, head, ptr => do
    let c ← readChar ptr head
    let ptr ← writeChar ptr src c
    let (ptr, touched) ← moveChars n (src + 1) (head + 1) ptr
    some (ptr, head :: src :: touched)

/-- `strlen` of the C library. -/
def strlen : List Byte → Option ℕ
  | [] => none
  | c :: chars => if c = 0 then some 0 else (strlen chars).map (· + 1)

/-- `mcl_trim`, with the indices of the bytes that it reads or writes. `below` are the bytes before
the buffer, the nearest one first; `none` is an access to anything else. -/
def mclTrim (s : MclString) (below : List Byte) : Option (MclString × List ℤ) :=
  if s.ptr.length < s.len.toNat then none
  else do
    let (head, up) ← skipSpaces 1 s.ptr 0
    let (tail, down) ← skipSpaces (-1) ((s.ptr.take s.len.toNat).reverse ++ below) (s.len.toNat - 1)
    let n := (tail + 1 - head).toNat
    let (ptr, moved) ← moveChars n 0 head s.ptr
    let ptr ← writeChar ptr n 0
    let len ← strlen ptr
    some ({ s with len := BitVec.ofNat 32 len, ptr := ptr },
      up ++ down ++ moved ++ [↑n] ++ (List.range (len + 1)).map Int.ofNat)

/-- `strcmp` of the C library: the difference at the first place where the strings differ or
both end. -/
def strcmp : List Byte → List Byte → ℤ
  | [], [] => 0
  | [], b :: _ => -(b.toNat : ℤ)
  | a :: _, [] => a.toNat
  | a :: as, b :: bs => if a = 0 ∨ a ≠ b then (a.toNat : ℤ) - b.toNat else strcmp as bs

def mclStringCmp (one another : MclString) : ℤ := strcmp one.ptr another.ptr

namespace MclString

/-- The `_len` bytes the caller stored. -/
def contents (s : MclString) : List Byte := s.ptr.take s.len.toNat

/-- What `strcmp` sees: the bytes before the first NUL. -/
def cstr (s : MclString) : List Byte := s.ptr.takeWhile (· ≠ 0)

/-- The strings `mcl_string_alloc` returns for an `int` length and that many readable bytes. -/
def Built (s : MclString) : Prop :=
  ∃ (p : List Byte) (len : ℤ), 0 ≤ len ∧ len < 2 ^ 31 ∧ len ≤ p.length ∧ s = mclStringAlloc p len

/-- The buffer holds `_len` bytes and a NUL behind them. -/
structure Valid (s : MclString) : Prop where
  nonneg : 0 ≤ s.len.toInt
  term : s.ptr[s.len.toInt.toNat]? = some 0

variable {s : MclString}

theorem Built.valid (h : s.Built) : s.Valid := by
  obtain ⟨p, len, h0, h31, hp, rfl⟩ := h
  have hlen : (mclStringAlloc p len).len.toInt = len := by
    change (BitVec.ofInt 32 len).toInt = len
    rw [BitVec.toInt_ofInt]
    exact Int.bmod_eq_of_le (by omega) (by omega)
  have hp' : (p.take len.toNat).length = len.toNat := by
    rw [List.length_take]
    omega
  refine ⟨by omega, ?_⟩
  rw [hlen]
  change (p.take len.toNat ++ [0])[len.toNat]? = some 0
  rw [List.getElem?_append_right (by omega), hp', Nat.sub_self]
  rfl

theorem Valid.len_toNat (h : s.Valid) : s.len.toNat = s.len.toInt.toNat := by
  have h0 := h.nonneg
  rw [BitVec.toInt_eq_toNat_cond] at h0 ⊢
  split at h0 <;> omega

theorem Valid.length_contents (h : s.Valid) : s.contents.length = s.len.toNat := by
  have hlt := (List.getElem?_eq_some_iff.mp h.term).1
  rw [contents, List.length_take, h.len_toNat]
  omega

theorem Valid.ptr_eq (h : s.Valid) : ∃ rest, s.ptr = s.contents ++ 0 :: rest := by
  obtain ⟨hlt, hget⟩ := List.getElem?_eq_some_iff.mp h.term
  refine ⟨s.ptr.drop (s.len.toInt.toNat + 1), ?_⟩
  rw [contents, h.len_toNat, ← hget, ← List.drop_eq_getElem_cons hlt, List.take_append_drop]

private theorem takeWhile_append_nul (as bs : List Byte) :
    (as ++ 0 :: bs).takeWhile (· ≠ 0) = as.takeWhile (· ≠ 0) := by
  induction as with
  | nil => rfl
  | cons a as ih => by_cases ha : a = 0 <;> simp_all

/-- `strcmp` never looks behind the stored bytes. -/
theorem Valid.cstr_eq (h : s.Valid) : s.cstr = s.contents.takeWhile (· ≠ 0) := by
  obtain ⟨rest, hrest⟩ := h.ptr_eq
  rw [cstr, hrest, takeWhile_append_nul]

theorem Valid.cstr_of_nulFree (h : s.Valid) (hs : 0 ∉ s.contents) : s.cstr = s.contents := by
  rw [h.cstr_eq, List.takeWhile_eq_self_iff]
  intro b hb
  rw [decide_eq_true_eq]
  rintro rfl
  exact hs hb

/-- A copy is a string made by `mcl_string_alloc` with the same bytes. -/
theorem Valid.copy (h : s.Valid) :
    mclStringCopy s = ⟨s.len, 1, s.contents ++ [0]⟩ := by
  unfold mclStringCopy mclStringAlloc contents
  rw [h.len_toNat, BitVec.ofInt_toInt]

theorem Valid.copy_contents (h : s.Valid) : (mclStringCopy s).contents = s.contents := by
  rw [h.copy, contents, List.take_left' h.length_contents]

theorem Valid.copy_valid (h : s.Valid) : (mclStringCopy s).Valid := by
  rw [h.copy]
  refine ⟨h.nonneg, ?_⟩
  change (s.contents ++ [0])[s.len.toInt.toNat]? = some 0
  rw [← h.len_toNat, ← h.length_contents, List.getElem?_concat_length]

theorem Valid.copy_cstr (h : s.Valid) : (mclStringCopy s).cstr = s.cstr := by
  rw [h.copy_valid.cstr_eq, h.copy_contents, h.cstr_eq]

end MclString

theorem strcmp_eq_zero (as bs : List Byte) :
    strcmp as bs = 0 ↔ as.takeWhile (· ≠ 0) = bs.takeWhile (· ≠ 0) := by
  induction as, bs using strcmp.induct with
  | case1 => simp [strcmp]
  | case2 b bs =>
    have hb : b.toNat = 0 ↔ b = 0#8 := by rw [BitVec.toNat_eq]; rfl
    by_cases h : b = 0#8 <;> simp [strcmp, hb, h]
  | case3 a as =>
    have ha : a.toNat = 0 ↔ a = 0#8 := by rw [BitVec.toNat_eq]; rfl
    by_cases h : a = 0#8 <;> simp [strcmp, ha, h]
  | case4 a as b bs h =>
    have hsub : (a.toNat : ℤ) - b.toNat = 0 ↔ a = b :=
      ⟨fun h => BitVec.eq_of_toNat_eq (by omega), fun h => by rw [h]; omega⟩
    rw [strcmp, if_pos h, hsub]
    by_cases ha : a = 0#8 <;> by_cases hb : b = 0#8 <;>
      simp [ha, hb] at h ⊢ <;> grind
  | case5 a as b bs h ih =>
    obtain ⟨ha, rfl⟩ : a ≠ 0#8 ∧ a = b := by simpa [not_or] using h
    rw [strcmp, if_neg h, ih]
    simp [ha]

theorem mclStringCmp_eq_zero (a b : MclString) : mclStringCmp a b = 0 ↔ a.cstr = b.cstr :=
  strcmp_eq_zero a.ptr b.ptr

end Mcl
