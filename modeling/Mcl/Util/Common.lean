import Mathlib.Algebra.Group.Int.Defs
import Mathlib.Algebra.Group.Nat.Defs
import Mathlib.Data.Int.Notation
import Mathlib.Data.Nat.Notation

/-! Declarations shared by the containers: `mcl_common.h` and `mcl_iterator.h`. A nullable
`void *` is an `Option`, with `none` for NULL. -/
namespace Mcl

/-- Block addresses in the order `malloc` hands them out; none is handed out twice. -/
abbrev Addr := ℕ

inductive DataType where
  | int | str | arr | map
  deriving DecidableEq, Repr

inductive DsCtrlCmd where
  | registEraseFn | unregistEraseFn
  deriving DecidableEq, Repr

/-- The destructor calls of an operation, in order. -/
abbrev Freed (φ α : Type) := List (φ × α)

/-- `if (data && free_fn) free_fn(data);` -/
def callFree {φ α : Type} (freeFn : Option φ) (data : Option α) : Freed φ α :=
  match data, freeFn with
  | some d, some f => [(f, d)]
  | _, _ => []

/-- The destructor calls for a run of elements. -/
def callFrees {φ α : Type} (freeFn : Option φ) (xs : List (Option α)) : Freed φ α :=
  xs.flatMap (callFree freeFn)

theorem callFrees_cons {φ α : Type} (freeFn : Option φ) (x : Option α) (xs : List (Option α)) :
    callFrees freeFn (x :: xs) = callFree freeFn x ++ callFrees freeFn xs := List.flatMap_cons ..

theorem callFrees_append {φ α : Type} (freeFn : Option φ) (xs ys : List (Option α)) :
    callFrees freeFn (xs ++ ys) = callFrees freeFn xs ++ callFrees freeFn ys := List.flatMap_append ..

def mclListMaxSize : ℤ := 1024 * 1024

/-- The union of `mcl_iter`: the members overlap, so storing one makes the other unreadable. -/
inductive IterUnion (κ ν : Type) where
  | index (i : ℤ)
  | pair (key : Option κ) (val : Option ν)
  deriving DecidableEq, Repr

/-- `mcl_iter`, over the pointee `π` of `_ptr` and `_data`. -/
structure Iter (π κ ν : Type) where
  ptr : Option π
  data : Option π
  sz : ℤ
  u : IterUnion κ ν
  cursor : ℤ
  deriving DecidableEq, Repr

namespace Iter

variable {π κ ν : Type}

def initializer : Iter π κ ν := ⟨none, none, -1, .index 0, -1⟩

def isNull (it : Iter π κ ν) : Bool := it.ptr.isNone

end Iter
end Mcl
