import Mcl.Library.Heap
import Mcl.Util.Common
import Mcl.Util.String

/-! The blocks that the library allocates. Every object is a block of one heap, also a local variable whose
address is passed on: it is allocated where it is declared and gone when its function returns. -/
namespace Mcl
open Mcl.Library

/-- What follows the `mcl_list_head` that a list and a node begin with. -/
inductive Headed where
  | list (listSz : ℤ)
  | node (data : Option Addr)
  deriving DecidableEq, Repr

/-- `mcl_hash`. -/
structure HashHead (φ : Type) where
  tables : Addr
  maxHashSize : ℕ
  keyType : DataType
  eraseFn : Option φ

/-- A C object. -/
inductive Cell (ν φ : Type) where
  | headed (rest : Headed) (prev next : Addr)
  | string (len : Addr) (ref : ℤ) (ptr : List Byte)
  | len (len : BitVec 32)
  | int (i : BitVec 32)
  | hashKey (type : DataType) (keyData : Addr)
  | hashPair (key : Addr) (val : Option ν)
  | tables (size : ℕ) (slots : ℕ → Option Addr)
  | hash (head : HashHead φ)

abbrev MclM (ν φ α : Type) := HeapM (Cell ν φ) α

end Mcl
