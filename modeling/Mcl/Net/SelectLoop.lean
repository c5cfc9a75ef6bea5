import Mathlib.Data.Finset.Filter
import Mcl.Net.Loop
import Mcl.Net.Select

/-! `select_dispatch` and `handle_events` as a machine. It stops wherever code of the user runs:
outside the loop, in the callback of an event, and in a cleanup callback, which may itself have
been called by a delete of the user. There the user adds and deletes events as it likes. -/
namespace Mcl
open Mcl.Library

/-- Who reads an event, a pair or a list node that has been freed; `hash` is a failed assertion. -/
inductive Fault where
  | handleEvents | eventAddOrDel | eventHtFree | hash
  deriving DecidableEq, Repr

/-- Where the loop is, with the variables of `handle_events`. -/
inductive Place where
  /-- Outside the loop. -/
  | main
  /-- In `select`. -/
  | poll
  /-- At the head of the loop of `handle_events`. -/
  | scan (side : Side) (it : HashIter SltHtNode)
  /-- In the callback of `ev`. -/
  | callback (side : Side) (it : HashIter SltHtNode) (sockfd : BitVec 32) (ev : MclEvent)
  /-- In the cleanup callback that an erase calls; the iterator has moved on. -/
  | cleanup (side : Side) (it : HashIter SltHtNode) (sockfd : BitVec 32) (node : SltHtNode)
  | fault (f : Fault)
  deriving DecidableEq, Repr

/-- The node that the erase is about to free. -/
def Place.nodes : Place → List SltHtNode
  | .cleanup _ _ _ node => [node]
  | _ => []

/-- A delete while a cleanup callback that it called runs: its argument, what `del_event` is
going to return, the node in `event_ht_free`, and whether it is in `del_expevent`. -/
structure DelFrame where
  arg : MclEvent
  ret : ℤ
  node : SltHtNode
  inExp : Bool
  deriving DecidableEq, Repr

/-- `mcl_evbase` and the calls that are under way. `timed` says whether `select` is given
`base->tval` or NULL. The rest is for the record: the events that `event_ht_free` has freed, the
last one first, what `select` left in the sets, and the new events handed over since then. -/
structure SelectState where
  place : Place
  dels : List DelFrame
  db : SltEvdb
  termFlag : Bool
  tval : Timeval
  timed : Bool
  freed : List MclEvent
  reported : Side → FdSet
  added : List MclEvent

namespace SelectState

def ht (s : SelectState) (side : Side) : Hash SltHtNode SltFreeFn := (s.db.evs side).ht

def fds (s : SelectState) (side : Side) : FdSet := (s.db.evs side).fds

def setEvset (side : Side) (evset : EvSet) (s : SelectState) : SelectState :=
  { s with db := s.db.setEvset side evset }

def setHt (side : Side) (ht : Hash SltHtNode SltFreeFn) (s : SelectState) : SelectState :=
  s.setEvset side { s.db.evs side with ht := ht }

def isFreed (s : SelectState) (ev : MclEvent) : Bool := s.freed.any fun e => e.addr == ev.addr

/-- The nodes that a call of `event_ht_free` is about to free. -/
def releasing (s : SelectState) : List SltHtNode :=
  s.dels.map (·.node) ++ s.place.nodes

/-- The events in a table. -/
def events (s : SelectState) (side : Side) : List MclEvent :=
  (s.ht side).pairs.filterMap fun p => p.val.map (·.ev)

def storedEvents (s : SelectState) : List MclEvent := Side.all.flatMap s.events

/-- The events that have left the tables. -/
def gone (s : SelectState) : List MclEvent := s.releasing.map (·.ev) ++ s.freed

/-- An event that the user can pass: one that is not freed and, if it is the base's, is as it was
when it was added. -/
def passable (s : SelectState) (ev : MclEvent) : Bool :=
  !s.isFreed ev &&
    (s.storedEvents ++ s.releasing.map (·.ev)).all fun e => e.addr != ev.addr || e == ev

/-- Code of the user runs. -/
def inUser (s : SelectState) : Bool :=
  match s.place with
  | .main | .callback .. | .cleanup .. => true
  | _ => false

def fault (f : Fault) (s : SelectState) : Shown × SelectState :=
  (.nothing, { s with place := .fault f })

/-- For the record, an event that the base does not have yet. -/
def handOver (ev : MclEvent) (s : SelectState) : SelectState :=
  { s with added := if ev ∈ s.storedEvents then s.added else ev :: s.added }

/-- `mcl_event_add`. -/
def add (ev : MclEvent) (s : SelectState) : Shown × SelectState :=
  match selectAdd ev s.db with
  | none => s.fault .hash
  | some (ret, db) => (.ret ret, { s.handOver ev with db := db })

/-- `free(ev); free(node);` at the end of `event_ht_free`. -/
def free (node : SltHtNode) (s : SelectState) : SelectState := { s with freed := node.ev :: s.freed }

/-- `event_ht_free`: either it calls the cleanup callback, or it frees and the caller goes on. -/
def eventHtFree (node : SltHtNode) (s calling : SelectState)
    (goOn : SelectState → Shown × SelectState) : Shown × SelectState :=
  if s.isFreed node.ev then s.fault .eventHtFree
  else
    match eventHtFreeCall node with
    | some call => (.call call, calling)
    | none => goOn (s.free node)

/-- `del_event`, then `goOn` with what it returns. -/
def delFrom (arg : MclEvent) (side : Side) (inExp : Bool)
    (goOn : ℤ → SelectState → Shown × SelectState) (s : SelectState) : Shown × SelectState :=
  match delEvent arg side s.db with
  | none => s.fault .hash
  | some (ret, db, []) => goOn ret { s with db := db }
  | some (ret, db, (_, node) :: _) =>
    let s := { s with db := db }
    s.eventHtFree node { s with dels := ⟨arg, ret, node, inExp⟩ :: s.dels } (goOn ret)

/-- `event_add_or_del` after `del_event` has returned; `del_expevent` is `del_event` of `exp_evs`. -/
def delRest (arg : MclEvent) (ret : ℤ) (s : SelectState) : Shown × SelectState :=
  if s.isFreed arg then s.fault .eventAddOrDel
  else if arg.evType &&& mclEvExp = 0 then s.delFrom arg .expEvs true fun _ s => (.ret ret, s)
  else (.ret ret, s)

/-- `mcl_event_del`. -/
def del (arg : MclEvent) (s : SelectState) : Shown × SelectState :=
  match getEvset arg with
  | none => (.ret 0, s)
  | some side => s.delFrom arg side false (delRest arg)

/-- A cleanup callback called by a delete has returned. -/
def delResume (frame : DelFrame) (s : SelectState) : Shown × SelectState :=
  let s := s.free frame.node
  if frame.inExp then (.ret frame.ret, s) else s.delRest frame.arg frame.ret

/-! `select_dispatch`. -/

def initAll (s : SelectState) : Option SelectState := do
  let inEvs ← initFds (s.db.evs .inEvs)
  let outEvs ← initFds (s.db.evs .outEvs)
  let expEvs ← initFds (s.db.evs .expEvs)
  some (((s.setEvset .inEvs inEvs).setEvset .outEvs outEvs).setEvset .expEvs expEvs)

/-- The head of `while (23)`, up to the call of `select`. -/
def loopHead (s : SelectState) : Shown × SelectState :=
  if s.termFlag then (.ret 1, { s with place := .main })
  else
    match s.initAll with
    | none => s.fault .handleEvents
    | some s => (.nothing, { s with place := .poll })

def loop (tval : Option Timeval) (s : SelectState) : Shown × SelectState :=
  loopHead { s with tval := tval.getD s.tval, timed := tval.isSome }

/-- `handle_events` is called for a side. -/
def handleEvents (side : Side) (s : SelectState) : Shown × SelectState :=
  match defHashIterHead Iter.initializer (s.ht side) with
  | none => s.fault .handleEvents
  | some it => (.nothing, { s with place := .scan side it })

/-- `handle_events` has returned. -/
def handleReturn (side : Side) (s : SelectState) : Shown × SelectState :=
  match side with
  | .inEvs => s.handleEvents .outEvs
  | .outEvs => s.handleEvents .expEvs
  | .expEvs => s.loopHead

/-- The function that `handle_events` calls for an event. -/
def handler (side : Side) (ev : MclEvent) : Option EventCb :=
  if side ≠ .expEvs then ev.callback else ev.errorCb

def handleType : Side → BitVec 32
  | .inEvs => mclEvRead
  | .outEvs => mclEvWrite
  | .expEvs => mclEvExp

/-- The iterator's node is still in its list. The key and the value that the iterator points into
are freed right after the node. -/
def holds (ht : Hash SltHtNode SltFreeFn) (it : HashIter SltHtNode) : Bool :=
  match ht.tables it.cursor.toNat with
  | none => false
  | some list => list.ents.any fun e => it.ptr == some e.addr

def handleNext (side : Side) (it : HashIter SltHtNode) (s : SelectState) : Shown × SelectState :=
  match defHashIterNext it (s.ht side) with
  | none => s.fault .handleEvents
  | some it => (.nothing, { s with place := .scan side it })

/-- `FD_CLR` after the erase. -/
def handleErased (side : Side) (it : HashIter SltHtNode) (sockfd : BitVec 32) (s : SelectState) :
    Shown × SelectState :=
  (.nothing, { s.setEvset side { s.db.evs side with fds := fdClr sockfd (s.fds side) } with
    place := .scan side it })

def handleErase (side : Side) (it : HashIter SltHtNode) (sockfd : BitVec 32) (s : SelectState) :
    Shown × SelectState :=
  match defHashIterErase it (s.ht side) with
  | none => s.fault .handleEvents
  | some (it, ht, []) => (s.setHt side ht).handleErased side it sockfd
  | some (it, ht, (_, node) :: _) =>
    let s := s.setHt side ht
    s.eventHtFree node { s with place := .cleanup side it sockfd node } (handleErased side it sockfd)

/-- `handle_events` after the callback, if there was one. -/
def handleCalled (side : Side) (it : HashIter SltHtNode) (sockfd : BitVec 32) (ev : MclEvent)
    (err : Bool) (s : SelectState) : Shown × SelectState :=
  if s.isFreed ev then s.fault .handleEvents
  else if ev.evType &&& mclEvPersist = 0 ∨ err then s.handleErase side it sockfd
  else s.handleNext side it

/-- One round of the loop of `handle_events`, up to a callback. -/
def handleOne (side : Side) (it : HashIter SltHtNode) (s : SelectState) : Shown × SelectState :=
  if it.isNull then s.handleReturn side
  else if !holds (s.ht side) it then s.fault .handleEvents
  else
    match mclHashIterKey it, mclHashIterVal it with
    | some (some (.int sockfd)), some (some valptr) =>
      if fdIsset sockfd (s.fds side) then
        let ev := valptr.ev
        if s.isFreed ev then s.fault .handleEvents
        else
          match handler side ev with
          | some cb => (.call ⟨cb, sockfd, handleType side, ev.uargs⟩,
              { s with place := .callback side it sockfd ev })
          | none => s.handleCalled side it sockfd ev false
      else s.handleNext side it
    | _, _ => s.fault .handleEvents

end SelectState

/-- What `select` returns, with the sets where it is positive. -/
inductive PollResult where
  | ready (sets : Side → FdSet)
  | timeout
  | error

/-- `select` reports descriptors of the sets that are below `nfds`, and at least one. -/
def PollResult.possible (db : SltEvdb) : PollResult → Bool
  | .ready sets =>
    (Side.all.all fun side => sets side ⊆ (db.evs side).fds.filter (·.slt (db.nMaxfdn + 1))) &&
      Side.all.any fun side => sets side ≠ ∅
  | _ => true

namespace SelectState

/-- The sets after `select`. -/
def setFds (sets : Side → FdSet) (s : SelectState) : SelectState :=
  { s with
    db := { s.db with evs := fun side => { s.db.evs side with fds := sets side } },
    reported := sets
    added := [] }

/-- `select` returns; `left` is what it leaves in the timeval. -/
def polled (r : PollResult) (left : Timeval) (s : SelectState) : Shown × SelectState :=
  let s := if s.timed then { s with tval := left } else s
  match r with
  | .ready sets => (s.setFds sets).handleEvents .inEvs
  | .timeout => (s.setFds fun _ => ∅).loopHead
  | .error => (.ret 0, { s with place := .main })

end SelectState

/-- A step of the user, of `select`, or of the loop. -/
inductive SelectStep where
  | add (ev : MclEvent)
  | del (arg : MclEvent)
  | loopexit
  | loop (tval : Option Timeval)
  /-- The callback that is running returns. -/
  | ret
  | polled (r : PollResult) (left : Timeval)
  /-- `handle_events` goes on. -/
  | handle

namespace SelectState

/-- The user hands over no event that is being cleaned up, and does not enter the loop twice. -/
def exec (s : SelectState) : SelectStep → Option (Shown × SelectState)
  | .add ev =>
    if s.inUser ∧ s.passable ev ∧ ∀ node ∈ s.releasing, node.ev.addr ≠ ev.addr then some (s.add ev)
    else none
  | .del arg => if s.inUser ∧ s.passable arg then some (s.del arg) else none
  | .loopexit => if s.inUser then some (.nothing, { s with termFlag := true }) else none
  | .loop tval => if s.place = .main ∧ s.dels = [] then some (s.loop tval) else none
  | .ret =>
    match s.dels, s.place with
    | frame :: dels, _ => if s.inUser then some ({ s with dels := dels }.delResume frame) else none
    | [], .callback side it sockfd ev => some (s.handleCalled side it sockfd ev (side = .expEvs))
    | [], .cleanup side it sockfd node => some ((s.free node).handleErased side it sockfd)
    | [], _ => none
  | .polled r left =>
    if s.place = .poll ∧ r.possible s.db then some (s.polled r left) else none
  | .handle =>
    match s.place with
    | .scan side it => some (s.handleOne side it)
    | _ => none

def init : SelectState :=
  { place := .main, dels := [], db := selectInit, termFlag := false, tval := ⟨0, 0⟩,
    timed := false, freed := [], reported := fun _ => ∅, added := [] }

end SelectState

/-- `mcl_evbase_new` and every run of what follows it. -/
def selectMachine : Machine SelectState SelectStep Shown := ⟨.init, SelectState.exec⟩

end Mcl
