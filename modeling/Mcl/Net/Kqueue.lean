import Mathlib.Logic.Function.Basic
import Mcl.Net.Event
import Mcl.Util.HashTraversal

/-! `mcl_kqueue.c`: the two tables, what the kernel knows, and adding and deleting an event. `none`
as a result is a failed assertion of `mcl_hash.c`. -/
namespace Mcl.Kqueue
open Mcl.Library

/-! The filters of the platform. -/

def evfiltRead : BitVec 32 := -1
def evfiltWrite : BitVec 32 := -2

/-- The tables of a `kq_evdb`: `ht_rdevset` and `ht_wrevset`. -/
inductive Evset where
  | rdevset | wrevset
  deriving DecidableEq, Repr

def Evset.all : List Evset := [.rdevset, .wrevset]

inductive FreeFn where
  | eventHtFree
  deriving DecidableEq, Repr

/-- `kq_evdb`. The queue `kq` holds, for a descriptor and a filter, the `udata` of the last `EV_ADD`
until an `EV_DELETE`. -/
structure Evdb where
  kernel : BitVec 32 × BitVec 32 → Option MclEvent
  evset : Evset → Hash MclEvent FreeFn

def Evdb.setEvset (x : Evset) (ht : Hash MclEvent FreeFn) (db : Evdb) : Evdb :=
  { db with evset := Function.update db.evset x ht }

/-- The events in a table. -/
def Evdb.events (db : Evdb) (x : Evset) : List MclEvent := (db.evset x).pairs.filterMap (·.val)

def Evdb.storedEvents (db : Evdb) : List MclEvent := Evset.all.flatMap db.events

def kqInit : Evdb := { kernel := fun _ => none, evset := fun _ => .new .int }

/-- The filter is chosen by a bit of the type. -/
def filterOf (ev : MclEvent) : BitVec 32 :=
  if ev.evType &&& mclEvRead ≠ 0 then evfiltRead else evfiltWrite

/-- The table is chosen by the whole type. -/
def evsetOf (ev : MclEvent) : Evset := if ev.evType = mclEvRead then .rdevset else .wrevset

/-- `EV_SET(..., EV_ADD, ...)` and `kevent`; `ok` is whether the kernel accepts the descriptor. -/
def keventAdd (ev : MclEvent) (ok : Bool) (db : Evdb) : Option Evdb :=
  if ok then some { db with kernel := Function.update db.kernel (ev.sockfd, filterOf ev) (some ev) } else none

/-- With `EV_DELETE`; the result is not looked at. -/
def keventDelete (ev : MclEvent) (db : Evdb) : Evdb :=
  { db with kernel := Function.update db.kernel (ev.sockfd, filterOf ev) none }

/-- `add_event`: whether the table has taken the event is not looked at. -/
def addEvent (ev : MclEvent) (db : Evdb) : Option Evdb := do
  let (_, ht, _) ← mclIntHashInsertSafe ev.sockfd (some ev) (db.evset (evsetOf ev))
  some (db.setEvset (evsetOf ev) ht)

/-- `del_event`, with the events that it calls `event_ht_free` on before it returns. -/
def delEvent (ev : MclEvent) (db : Evdb) : Option (Evdb × Freed FreeFn MclEvent) := do
  let (_, ht, freed) ← mclIntHashDelete ev.sockfd (db.evset (evsetOf ev)) (some .eventHtFree)
  some (db.setEvset (evsetOf ev) ht, freed)

def kqAdd (ev : MclEvent) (ok : Bool) (db : Evdb) : Option (ℤ × Evdb) :=
  match keventAdd ev ok db with
  | none => some (0, db)
  | some db => do
    let db ← addEvent ev db
    some (1, db)

/-- `kq_cleanup`, which `mcl_evbase_destroy` calls. -/
def kqCleanup (db : Evdb) : Freed FreeFn MclEvent :=
  (mclHashDestroy (db.evset .rdevset) (some .eventHtFree)).2 ++
    (mclHashDestroy (db.evset .wrevset) (some .eventHtFree)).2

end Mcl.Kqueue
