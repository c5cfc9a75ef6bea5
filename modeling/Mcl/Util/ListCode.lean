import Mathlib.Logic.Function.Basic
import Mathlib.Data.Option.Basic
import Mcl.Util.Common

/-! `mcl_list.c` on explicit memory: one list object and the nodes allocated for it.
`none` is a run that C does not define: an access to a freed node, a failed assertion,
or a walk that never comes back to the sentinel. -/
namespace Mcl.ListCode

/-- What a `mcl_list_head *` points to: the list's sentinel `_entries` or a node's `_entry`. -/
inductive Ent where
  | entries
  | node (a : Addr)
  deriving DecidableEq, Repr

/-- `MCL_LIST_ENTRY`: the offset of `_entry` is 0, so a node and its entry share an address.
The sentinel is no node. -/
def Ent.node? : Ent → Option Addr
  | .entries => none
  | .node a => some a

structure ListHead where
  prev : Ent
  next : Ent
  deriving DecidableEq, Repr

structure ListNode (α : Type) where
  entry : ListHead
  data : Option α

/-- A `mcl_list` and the heap of its nodes. -/
structure ListMem (α φ : Type) where
  entries : ListHead
  listSz : ℤ
  eraseFn : Option φ
  nodes : Addr → Option (ListNode α)
  brk : Addr

namespace ListMem

variable {α φ : Type}

def head (m : ListMem α φ) : Ent → Option ListHead
  | .entries => some m.entries
  | .node a => (m.nodes a).map (·.entry)

def setHead (m : ListMem α φ) (e : Ent) (f : ListHead → ListHead) : Option (ListMem α φ) :=
  match e with
  | .entries => some { m with entries := f m.entries }
  | .node a => do
    let n ← m.nodes a
    some { m with nodes := Function.update m.nodes a (some { n with entry := f n.entry }) }

def setPrev (m : ListMem α φ) (e p : Ent) : Option (ListMem α φ) :=
  m.setHead e fun h => { h with prev := p }

def setNext (m : ListMem α φ) (e n : Ent) : Option (ListMem α φ) :=
  m.setHead e fun h => { h with next := n }

/-- `malloc` of a node; the links are written before they are read. -/
def malloc (m : ListMem α φ) (data : Option α) : Addr × ListMem α φ :=
  (m.brk, { m with
    nodes := Function.update m.nodes m.brk (some ⟨⟨.entries, .entries⟩, data⟩)
    brk := m.brk + 1 })

def free (m : ListMem α φ) (a : Addr) : ListMem α φ :=
  { m with nodes := Function.update m.nodes a none }

end ListMem

variable {α φ κ ν : Type}

def mclListNew : ListMem α φ :=
  { entries := ⟨.entries, .entries⟩, listSz := 0, eraseFn := none, nodes := fun _ => none, brk := 0 }

def isListEmpty (m : ListMem α φ) : Bool := m.entries.next == .entries

/-- `_LIST_INSERT`. -/
def listInsertBetween (elem p n : Ent) (m : ListMem α φ) : Option (ListMem α φ) := do
  let m ← m.setPrev elem p
  let m ← m.setNext elem n
  let m ← m.setPrev n elem
  m.setNext p elem

def listInsert (elem head : Ent) (m : ListMem α φ) : Option (ListMem α φ) := do
  let h ← m.head head
  listInsertBetween elem head h.next m

def listInsertTail (elem head : Ent) (m : ListMem α φ) : Option (ListMem α φ) := do
  let h ← m.head head
  listInsertBetween elem h.prev head m

def mclListInsert (data : Option α) (m : ListMem α φ) : Option (ℤ × ListMem α φ) :=
  if m.listSz ≥ mclListMaxSize then some (0, m)
  else do
    let (a, m) := m.malloc data
    let m ← listInsert (.node a) .entries m
    some (1, { m with listSz := m.listSz + 1 })

def mclListInsertTail (data : Option α) (m : ListMem α φ) : Option (ℤ × ListMem α φ) :=
  if m.listSz ≥ mclListMaxSize then some (0, m)
  else do
    let (a, m) := m.malloc data
    let m ← listInsertTail (.node a) .entries m
    some (1, { m with listSz := m.listSz + 1 })

/-- `HANDLE_ELEM`: unlink `ent`, release its data and free the node. -/
def handleElem (a : Addr) (freeFlag : Bool) (freeFn : Option φ) (m : ListMem α φ) :
    Option (ListMem α φ × Freed φ α) := do
  let h ← m.head (.node a)
  let m ← m.setNext h.prev h.next
  let h ← m.head (.node a)
  let m ← m.setPrev h.next h.prev
  let node ← m.nodes a
  let freed := if freeFlag then callFree freeFn node.data else []
  let m := m.free a
  some ({ m with listSz := m.listSz - 1 }, freed)

abbrev ListCmpFunc (α : Type) := Option (Option α → Option α → ℤ)

/-- The test of the loop in `list_del`. -/
def delHit [DecidableEq α] (data : Option α) (cmpFunc : ListCmpFunc α) (x : Option α) : Bool :=
  (match cmpFunc with
    | some cmp => cmp data x != 0
    | none => false) || x == data

def listDelLoop [DecidableEq α] (data : Option α) (freeFlag : Bool) (cmpFunc : ListCmpFunc α)
    (freeFn : Option φ) : ℕ → Ent → ListMem α φ → Option (ℤ × ListMem α φ × Freed φ α)
  | 0, _, _ => none
  | fuel + 1, ent, m =>
    if ent = .entries then some (0, m, [])
    else do
      let a ← ent.node?
      let node ← m.nodes a
      if delHit data cmpFunc node.data then do
        let (m, freed) ← handleElem a freeFlag freeFn m
        some (1, m, freed)
      else listDelLoop data freeFlag cmpFunc freeFn fuel node.entry.next m

/-- `list_del`. A walk longer than the number of nodes ever allocated would never end, so
`m.brk + 1` rounds lose no terminating run. -/
def listDel [DecidableEq α] (data : Option α) (m : ListMem α φ) (freeFlag : Bool)
    (cmpFunc : ListCmpFunc α) (freeFn : Option φ) : Option (ℤ × ListMem α φ × Freed φ α) :=
  if !isListEmpty m then
    listDelLoop data freeFlag cmpFunc freeFn (m.brk + 1) m.entries.next m
  else some (0, m, [])

def mclListDelete [DecidableEq α] (data : Option α) (m : ListMem α φ) (freeFn : Option φ) :
    Option (ℤ × ListMem α φ × Freed φ α) :=
  listDel data m true none freeFn

def mclListDelCmp [DecidableEq α] (data : Option α) (m : ListMem α φ) (cmpFunc : ListCmpFunc α)
    (freeFn : Option φ) : Option (ℤ × ListMem α φ × Freed φ α) :=
  listDel data m true cmpFunc freeFn

abbrev ListIter (κ ν : Type) := Iter Addr κ ν

def commonIterOp (iter : ListIter κ ν) : ListIter κ ν := { iter with u := .index (-1), sz := -1 }

def setPos (iter : ListIter κ ν) (pos : Option Addr) : ListIter κ ν :=
  { iter with ptr := pos, data := pos }

def mclDefListIterHead (iter : ListIter κ ν) (m : ListMem α φ) : Option (ListIter κ ν) :=
  let iter := commonIterOp iter
  if !isListEmpty m then do
    let a ← m.entries.next.node?
    some (setPos iter (some a))
  else some (setPos iter none)

def mclDefListIterTail (iter : ListIter κ ν) (m : ListMem α φ) : Option (ListIter κ ν) :=
  let iter := commonIterOp iter
  if !isListEmpty m then do
    let a ← m.entries.prev.node?
    some (setPos iter (some a))
  else some (setPos iter none)

/-- `mcl_def_list_iter_next` and `_prev`, which differ in the link they follow. -/
def iterStep (link : ListHead → Ent) (iter : ListIter κ ν) (m : ListMem α φ) :
    Option (ListIter κ ν) :=
  let iter := commonIterOp iter
  if !isListEmpty m then
    match iter.data with
    | none => some (setPos iter none)
    | some ent => do
      let h ← m.head (.node ent)
      if link h = .entries then some (setPos iter none)
      else do
        let a ← (link h).node?
        some (setPos iter (some a))
  else some (setPos iter none)

def mclDefListIterNext (iter : ListIter κ ν) (m : ListMem α φ) : Option (ListIter κ ν) :=
  iterStep (·.next) iter m

def mclDefListIterPrev (iter : ListIter κ ν) (m : ListMem α φ) : Option (ListIter κ ν) :=
  iterStep (·.prev) iter m

def mclDefListIterInfo (iter : ListIter κ ν) (m : ListMem α φ) : Option (Option α) :=
  match iter.data, iter.ptr with
  | some ent, some node => do
    guard (node = ent)
    let n ← m.nodes node
    some n.data
  | _, _ => some none

/-- `mcl_def_list_iter_erase`; the result is the returned iterator, or NULL. -/
def mclDefListIterErase [DecidableEq α] (iter : ListIter κ ν) (m : ListMem α φ) :
    Option (Option (ListIter κ ν) × ListMem α φ × Freed φ α) :=
  match iter.data, iter.ptr with
  | some ent, some node => do
    guard (node = ent)
    let n ← m.nodes node
    let iter ← mclDefListIterNext iter m
    let (_, m, freed) ←
      match m.eraseFn with
      | some fn => listDel n.data m true none (some fn)
      | none => listDel n.data m false none none
    some (some iter, m, freed)
  | _, _ => some (none, m, [])

/-- `MCL_FOREACH` and `MCL_FOREACH_REVERSE` over a list, collecting `MCL_ITERATOR_INFO`. -/
def foreachLoop (step : ListIter κ ν → ListMem α φ → Option (ListIter κ ν)) (m : ListMem α φ) :
    ℕ → ListIter κ ν → Option (List (Option α))
  | 0, _ => none
  | fuel + 1, it =>
    if it.isNull then some []
    else do
      let d ← mclDefListIterInfo it m
      let it ← step it m
      let ds ← foreachLoop step m fuel it
      some (d :: ds)

def mclForeach (it : ListIter κ ν) (m : ListMem α φ) : Option (List (Option α)) := do
  let it ← mclDefListIterHead it m
  foreachLoop mclDefListIterNext m (m.brk + 1) it

def mclForeachReverse (it : ListIter κ ν) (m : ListMem α φ) : Option (List (Option α)) := do
  let it ← mclDefListIterTail it m
  foreachLoop mclDefListIterPrev m (m.brk + 1) it

def findHit [DecidableEq α] (data : α) (cmpFunc : ListCmpFunc α) (x : α) : Bool :=
  match cmpFunc with
  | some cmp => cmp (some data) (some x) != 0
  | none => data == x

def findLoop (hit : α → Bool) (m : ListMem α φ) : ℕ → ListIter κ ν → Option (Option α)
  | 0, _ => none
  | fuel + 1, it =>
    if it.isNull then some none
    else do
      let dstData ← mclDefListIterInfo it m
      match dstData with
      | none => some none
      | some x =>
        if hit x then some (some x)
        else do
          let it ← mclDefListIterNext it m
          findLoop hit m fuel it

def mclListFind [DecidableEq α] (data : Option α) (m : ListMem α φ) (cmpFunc : ListCmpFunc α) :
    Option (Option α) :=
  match data with
  | none => some none
  | some d => do
    let it ← mclDefListIterHead (.initializer : ListIter Unit Unit) m
    findLoop (findHit d cmpFunc) m (m.brk + 1) it

def mclListSize (m : ListMem α φ) : ℤ := m.listSz

def mclListCtrl (cmd : DsCtrlCmd) (data : Option φ) (m : ListMem α φ) : ℤ × ListMem α φ :=
  match data with
  | none => (0, m)
  | some fn =>
    match cmd with
    | .registEraseFn => (1, { m with eraseFn := some fn })
    | .unregistEraseFn => (1, { m with eraseFn := none })

/-- The loop of `mcl_list_destroy`: release the data of each node, then the node. -/
def destroyLoop (freeFn : Option φ) : ℕ → Ent → ListMem α φ → Option (Freed φ α)
  | 0, _, _ => none
  | fuel + 1, ent, m =>
    if ent = .entries then some []
    else do
      let a ← ent.node?
      let node ← m.nodes a
      let freed ← destroyLoop freeFn fuel node.entry.next (m.free a)
      some (callFree freeFn node.data ++ freed)

def mclListDestroy (m : ListMem α φ) (freeFn : Option φ) : Option (Freed φ α) :=
  if !isListEmpty m then destroyLoop freeFn (m.brk + 1) m.entries.next m
  else some []

end Mcl.ListCode
