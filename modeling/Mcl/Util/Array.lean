import Mcl.Util.Common

/-! `mcl_array.c`: a growing block of pointers. `int` and `unsigned int` are 32 bits, `size_t`
and pointers 64. `none` as a result is an access outside the allocated slots. -/
namespace Mcl

def mclArrDefaultSize : BitVec 32 := 64

/-- `mcl_array`. The block has as many slots as were allocated for it. -/
structure MclArray (α φ : Type) where
  allData : List (Option α)
  curSize : BitVec 32
  totalSize : BitVec 32
  eraseFn : Option φ

variable {α φ : Type}

namespace MclArray

def read (a : MclArray α φ) (i : ℤ) : Option (Option α) :=
  if 0 ≤ i then a.allData[i.toNat]? else none

def write (a : MclArray α φ) (i : ℤ) (data : Option α) : Option (MclArray α φ) :=
  if 0 ≤ i ∧ i < a.allData.length then some { a with allData := a.allData.set i.toNat data }
  else none

end MclArray

/-- `sizeof(void *) * n`, a `size_t`. -/
def sizeofSlots (n : BitVec 32) : BitVec 64 := 8#64 * n.signExtend 64

/-- The slots of a block of so many bytes. None has `2 ^ 63` bytes or more: `malloc` gives NULL. -/
def slotsIn (bytes : BitVec 64) : ℕ := if bytes.slt 0 then 0 else bytes.toNat / 8

def slotsOf (n : BitVec 32) : ℕ := slotsIn (sizeofSlots n)

/-- `malloc`. `junk` is what the new memory happens to hold. -/
def mallocData (junk : ℕ → Option α) (bytes : BitVec 64) : List (Option α) :=
  (List.range (slotsIn bytes)).map junk

/-- `realloc`. -/
def reallocData (junk : ℕ → Option α) (bytes : BitVec 64) (data : List (Option α)) : List (Option α) :=
  data.take (slotsIn bytes) ++ (List.range' data.length (slotsIn bytes - data.length)).map junk

def checkOutOfBounds (index : BitVec 32) (a : MclArray α φ) : Bool :=
  if a.curSize = 0 then index.slt 0 || a.curSize.ult index
  else index.slt 0 || a.curSize.ule index

/-- The loop of `mcl_array_new`. -/
def nullLoop : ℕ → ℤ → MclArray α φ → Option (MclArray α φ)
  | 0, _, a => some a
  | n + 1, i, a => do
    let a ← a.write i none
    nullLoop n (i + 1) a

/-- The `capacity` of `mcl_array_new`. -/
def newCapacity (initSize : BitVec 32) : BitVec 32 :=
  if mclArrDefaultSize.slt initSize then initSize <<< 1 else mclArrDefaultSize

/-- `mcl_array_new` with the block that `malloc` returns for a number of bytes. The inner `none` is
NULL. The constructor leaves `erase_fn` as the memory had it. -/
def mclArrayNewWith (malloc : BitVec 64 → List (Option α)) (initSize : BitVec 32) (eraseJunk : Option φ) :
    Option (Option (MclArray α φ)) :=
  if initSize.slt 0 then some none
  else do
    let capacity := newCapacity initSize
    let a ← nullLoop capacity.toInt.toNat 0 ⟨malloc (sizeofSlots capacity), 0, 0, eraseJunk⟩
    some (some { a with curSize := 0, totalSize := capacity })

def mclArrayNew (initSize : BitVec 32) (junk : ℕ → Option α) (eraseJunk : Option φ) :
    Option (Option (MclArray α φ)) :=
  mclArrayNewWith (mallocData junk) initSize eraseJunk

def cleanArrayLoop (freeFn : Option φ) : ℕ → ℤ → MclArray α φ → Option (MclArray α φ × Freed φ α)
  | 0, _, a => some (a, [])
  | n + 1, i, a => do
    let x ← a.read i
    let a ← a.write i none
    let (a, freed) ← cleanArrayLoop freeFn n (i + 1) a
    some (a, callFree freeFn x ++ freed)

def mclArrayClean (a : MclArray α φ) (freeFn : Option φ) : Option (MclArray α φ × Freed φ α) := do
  let (a, freed) ← cleanArrayLoop freeFn a.curSize.toInt.toNat 0 a
  some ({ a with curSize := 0 }, freed)

def mclArrayTighten (a : MclArray α φ) (junk : ℕ → Option α) : MclArray α φ :=
  let expectSz := a.curSize <<< 1
  if a.totalSize.sle expectSz then a
  else { a with allData := reallocData junk (sizeofSlots expectSz) a.allData, totalSize := expectSz }

/-- `realloc` gets a number of bytes and the old block. The comparison is one of unsigned values. -/
def extendArray (realloc : BitVec 64 → List (Option α) → List (Option α)) (newSize : BitVec 32)
    (a : MclArray α φ) : MclArray α φ :=
  if newSize.ule a.totalSize then a
  else { a with allData := realloc (sizeofSlots newSize) a.allData, totalSize := newSize }

def tryExtendArrayWith (realloc : BitVec 64 → List (Option α) → List (Option α)) (a : MclArray α φ) :
    MclArray α φ :=
  if a.totalSize.sle a.curSize then extendArray realloc (a.totalSize <<< 1) a else a

def tryExtendArray (a : MclArray α φ) (junk : ℕ → Option α) : MclArray α φ :=
  tryExtendArrayWith (reallocData junk) a

/-- `INCREASE_SIZE`. -/
def increaseSize (a : MclArray α φ) : MclArray α φ := { a with curSize := a.curSize + 1 }

def mclArrayAppend (data : Option α) (a : MclArray α φ) (junk : ℕ → Option α) :
    Option (ℤ × MclArray α φ) := do
  let curSize := a.curSize.toInt
  let a := tryExtendArray a junk
  let a ← a.write curSize data
  some (curSize, increaseSize a)

/-- The loops that make room: slot `j` is copied to `j + 1`, for `n` slots down to `lo`. -/
def shiftUp (lo : ℤ) : ℕ → MclArray α φ → Option (MclArray α φ)
  | 0, a => some a
  | n + 1, a => do
    let x ← a.read (lo + n)
    let a ← a.write (lo + n + 1) x
    shiftUp lo n a

def mclArrayPreappend (data : Option α) (a : MclArray α φ) (junk : ℕ → Option α) :
    Option (ℤ × MclArray α φ) := do
  let curSize := a.curSize.toInt
  let a := tryExtendArray a junk
  let a ← shiftUp 0 curSize.toNat a
  -- the counter stops at 0, or stays where it was
  let a ← a.write (if curSize > 0 then 0 else curSize) data
  some (0, increaseSize a)

def mclArrayInsert (data : Option α) (index : BitVec 32) (a : MclArray α φ) (junk : ℕ → Option α) :
    Option (ℤ × MclArray α φ) :=
  if checkOutOfBounds index a then some (-1, a)
  else if index = a.curSize - 1 then mclArrayAppend data a junk
  else do
    let a := tryExtendArray a junk
    let i := (a.curSize - 1).toInt
    let a ← shiftUp (index.toInt + 1) (i - index.toInt).toNat a
    let index := index + 1
    let a ← a.write index.toInt data
    some (index.toInt, increaseSize a)

def mclArrayPreinsert (data : Option α) (index : BitVec 32) (a : MclArray α φ)
    (junk : ℕ → Option α) : Option (ℤ × MclArray α φ) :=
  if checkOutOfBounds index a then some (-1, a)
  else if index = 0 then mclArrayPreappend data a junk
  else do
    let a := tryExtendArray a junk
    let i := (a.curSize - 1).toInt
    let a ← shiftUp index.toInt (i + 1 - index.toInt).toNat a
    let a ← a.write index.toInt data
    some (index.toInt, increaseSize a)

/-- `DECREASE_SIZE`: an unsigned size is never below 0. -/
def decreaseSize (a : MclArray α φ) : MclArray α φ := { a with curSize := a.curSize - 1 }

/-- `if (free_fn != NULL && _all_data[index] != NULL)`. -/
def freeSlot (freeFn : Option φ) (index : BitVec 32) (a : MclArray α φ) : Option (Freed φ α) :=
  match freeFn with
  | none => some []
  | some fn => (a.read index.toInt).map (callFree (some fn))

/-- The loop of `mcl_array_delete_indx`, for `n` slots from `i` on. -/
def shiftDown : ℕ → BitVec 32 → MclArray α φ → Option (MclArray α φ)
  | 0, _, a => some a
  | n + 1, i, a => do
    let x ← a.read (i + 1).toInt
    let a ← a.write i.toInt x
    shiftDown n (i + 1) a

/-- The counter is compared with `_cur_size - 1` as an unsigned number. -/
def mclArrayDeleteIndx (index : BitVec 32) (a : MclArray α φ) (freeFn : Option φ) :
    Option (ℤ × MclArray α φ × Freed φ α) :=
  if checkOutOfBounds index a then some (-1, a, [])
  else do
    let freed ← freeSlot freeFn index a
    let n := (a.curSize - 1).toNat - index.toNat
    let a ← shiftDown n index a
    let a ← a.write (index + BitVec.ofNat 32 n).toInt none
    some (index.toInt, decreaseSize a, freed)

def mclArrayDelete (index : BitVec 32) (a : MclArray α φ) (freeFn : Option φ) :
    Option (ℤ × MclArray α φ × Freed φ α) :=
  if checkOutOfBounds index a then some (-1, a, [])
  else do
    let freed ← freeSlot freeFn index a
    let last := (a.curSize - 1).toNat
    let x ← a.read last
    let a ← a.write index.toInt x
    let a ← a.write last none
    some (index.toInt, decreaseSize a, freed)

/-- The loop of `mcl_array_delete_obj`. -/
def findObj [DecidableEq α] (data : Option α) : ℕ → BitVec 32 → MclArray α φ → Option (BitVec 32)
  | 0, i, _ => some i
  | n + 1, i, a => do
    let x ← a.read i.toInt
    if data = x then some i else findObj data n (i + 1) a

def mclArrayDeleteObj [DecidableEq α] (data : Option α) (a : MclArray α φ) (freeFn : Option φ) :
    Option (ℤ × MclArray α φ × Freed φ α) := do
  let i ← findObj data a.curSize.toNat 0 a
  if a.curSize.ule i then some (-1, a, []) else mclArrayDelete i a freeFn

/-- The first loop of `mcl_array_delete_range`. -/
def freeRange (freeFn : Option φ) : ℕ → BitVec 32 → MclArray α φ → Option (MclArray α φ × Freed φ α)
  | 0, _, a => some (a, [])
  | n + 1, i, a => do
    let freed ← freeSlot freeFn i a
    let a ← (if freed.isEmpty then some a else a.write i.toInt none)
    let (a, rest) ← freeRange freeFn n (i + 1) a
    some (a, freed ++ rest)

/-- The second one. -/
def moveRange (cnt : BitVec 32) : ℕ → BitVec 32 → MclArray α φ → Option (MclArray α φ)
  | 0, _, a => some a
  | n + 1, i, a => do
    let x ← a.read i.toInt
    let a ← a.write (i - cnt).toInt x
    let a ← a.write i.toInt none
    moveRange cnt n (i + 1) a

def mclArrayDeleteRange (bindex eindex : BitVec 32) (a : MclArray α φ) (freeFn : Option φ) :
    Option (ℤ × MclArray α φ × Freed φ α) :=
  let cnt := eindex - bindex
  if checkOutOfBounds bindex a || checkOutOfBounds eindex a then some (-1, a, [])
  else if eindex.slt bindex then some (-1, a, [])
  else if bindex = eindex then do
    let (_, a, freed) ← mclArrayDeleteIndx bindex a freeFn
    some (1, a, freed)
  else do
    let (a, freed) ← freeRange freeFn cnt.toNat bindex a
    let a ← moveRange cnt (a.curSize.toNat - eindex.toNat) eindex a
    some (cnt.toInt, { a with curSize := a.curSize - cnt }, freed)

def mclArrayAt (index : BitVec 32) (a : MclArray α φ) : Option (Option α) :=
  if checkOutOfBounds index a then some none else a.read index.toInt

/-- The size is returned as an `int`. -/
def mclArraySize (a : MclArray α φ) : ℤ := a.curSize.toInt

def mclArrayCtrl (cmd : DsCtrlCmd) (data : Option φ) (a : MclArray α φ) : ℤ × MclArray α φ :=
  match data with
  | none => (0, a)
  | some freeFn =>
    match cmd with
    | .registEraseFn => (1, { a with eraseFn := some freeFn })
    | .unregistEraseFn => (1, { a with eraseFn := none })

/-- An iterator points to the element itself. -/
abbrev ArrayIter (α : Type) := Iter α Unit Unit

def ArrayIter.unset (iter : ArrayIter α) : ArrayIter α :=
  { iter with ptr := none, data := none, u := .index (-1) }

/-- `_u._index`. -/
def ArrayIter.index (iter : ArrayIter α) : Option (BitVec 32) :=
  match iter.u with
  | .index i => some (BitVec.ofInt 32 i)
  | .pair _ _ => none

/-- `def_iter_erase`: the iterator that it returns, or NULL, and the one that it has written. -/
def defIterErase (iter : ArrayIter α) (a : MclArray α φ) :
    Option (Option (ArrayIter α) × ArrayIter α × MclArray α φ × Freed φ α) := do
  let index ← iter.index
  if checkOutOfBounds index a then some (none, iter.unset, a, [])
  else do
    let (index, a, freed) ← mclArrayDeleteIndx index a a.eraseFn
    if index < 0 then some (none, iter.unset, a, freed)
    else do
      let x ← a.read index
      let iter := { iter with u := .index index, ptr := x, data := x }
      some (some iter, iter, a, freed)

/-! Sizes below `2 ^ 31` are the same number for `int`, `unsigned int` and `size_t`. -/

section Sizes

variable {n m : BitVec 32}

theorem toInt_eq_toNat (h : n.toNat < 2 ^ 31) : n.toInt = n.toNat := by
  rw [BitVec.toInt_eq_toNat_cond, if_pos (by omega)]

theorem toNat_shiftLeft_one (h : n.toNat < 2 ^ 30) : (n <<< 1).toNat = 2 * n.toNat := by
  rw [BitVec.toNat_shiftLeft, Nat.shiftLeft_eq, Nat.mod_eq_of_lt (by omega)]
  omega

theorem sle_iff_toNat (hn : n.toNat < 2 ^ 31) (hm : m.toNat < 2 ^ 31) :
    n.sle m = true ↔ n.toNat ≤ m.toNat := by
  rw [BitVec.sle, decide_eq_true_eq, toInt_eq_toNat hn, toInt_eq_toNat hm]
  omega

theorem toNat_sub_one (h : 0 < n.toNat) : (n - 1).toNat = n.toNat - 1 := by
  rw [BitVec.toNat_sub, show (1 : BitVec 32).toNat = 1 from rfl]
  omega

theorem toNat_add_one (h : n.toNat < 2 ^ 31) : (n + 1).toNat = n.toNat + 1 := by
  rw [BitVec.toNat_add, show (1 : BitVec 32).toNat = 1 from rfl]
  omega

theorem slotsOf_toInt (n : BitVec 32) : slotsOf n = n.toInt.toNat := by
  have hext : (n.signExtend 64).toInt = n.toInt := BitVec.toInt_signExtend_of_le (by omega)
  have hlt := n.toInt_lt
  have hle := n.le_toInt
  have hbytes : (8#64 * n.signExtend 64).toInt = 8 * n.toInt := by
    rw [BitVec.toInt_mul, hext, show (8#64).toInt = 8 from rfl]
    exact Int.bmod_eq_of_le (by omega) (by omega)
  have hzero : (0 : BitVec 64).toInt = 0 := rfl
  simp only [slotsOf, slotsIn, sizeofSlots, BitVec.slt, hbytes, hzero, decide_eq_true_eq]
  split
  · omega
  · rw [BitVec.toInt_eq_toNat_cond] at hbytes
    split at hbytes <;> omega

theorem slotsOf_eq (h : n.toNat < 2 ^ 31) : slotsOf n = n.toNat := by
  rw [slotsOf_toInt, toInt_eq_toNat h, Int.toNat_natCast]

theorem slotsOf_lt (n : BitVec 32) : slotsOf n < 2 ^ 31 := by
  have hlt := n.toInt_lt
  rw [slotsOf_toInt]
  omega

theorem length_mallocData (junk : ℕ → Option α) (n : BitVec 32) :
    (mallocData junk (sizeofSlots n)).length = slotsOf n := by
  rw [mallocData, List.length_map, List.length_range, slotsOf]

theorem length_reallocData (junk : ℕ → Option α) (n : BitVec 32) (data : List (Option α)) :
    (reallocData junk (sizeofSlots n) data).length = slotsOf n := by
  simp only [reallocData, List.length_append, List.length_take, List.length_map, List.length_range', slotsOf]
  omega

end Sizes
end Mcl
