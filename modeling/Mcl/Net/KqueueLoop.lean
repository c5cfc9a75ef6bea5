import Mcl.Net.Kqueue
import Mcl.Net.Loop

/-! `kq_dispatch`, `handle_events` and `kq_del` as a machine. It stops wherever code of the user
runs: outside the loop, in the callback of an event, and in a cleanup callback. There the user adds
and deletes events as it likes. -/
namespace Mcl.Kqueue
open Mcl.Library

/-- `struct kevent`, as `kevent` fills it in; `error` is the flag `EV_ERROR`. -/
structure Kevent where
  ident : BitVec 32
  filter : BitVec 32
  error : Bool
  udata : Option MclEvent
  deriving DecidableEq, Repr

/-- What goes wrong: `handle_events` or the `kq_del` it calls (`byLoop`), or a `kq_del` of the user,
reads an event that has been freed; an entry without an event; a double free; a failed assertion. -/
inductive Fault where
  | reads (ev : MclEvent) (byLoop : Bool)
  | noEvent
  | eventHtFree
  | hash
  deriving DecidableEq, Repr

/-- Where the loop is. `rest` is what `handle_events` has not come to, `ev` its variable. -/
inductive Place where
  /-- Outside the loop. -/
  | main
  /-- In `kevent`. -/
  | wait
  /-- At the head of the loop of `handle_events`, or in the `kq_del` at its end. -/
  | scan (rest : List Kevent) (ev : Option MclEvent)
  /-- In the callback of `ev`. -/
  | callback (rest : List Kevent) (ev : MclEvent)
  | fault (f : Fault)
  deriving DecidableEq, Repr

/-- A delete while a cleanup callback runs: the one that `kq_del` calls, or the one that
`event_ht_free` calls for the event that it is about to free. -/
structure DelFrame where
  arg : MclEvent
  inside : Option MclEvent
  byLoop : Bool
  deriving DecidableEq, Repr

/-- `struct timespec`. -/
structure Timespec where
  sec : ℤ
  nsec : ℤ
  deriving DecidableEq, Repr

/-- `mcl_evbase` and the calls that are under way. For the record, the events that `event_ht_free`
has freed, and those among them that a delete of the user has. -/
structure KqState where
  place : Place
  dels : List DelFrame
  db : Evdb
  termFlag : Bool
  tval : Timeval
  tspec : Option Timespec
  freed : List MclEvent
  userFreed : List MclEvent

namespace KqState

def isFreed (s : KqState) (ev : MclEvent) : Bool := s.freed.any fun e => e.addr == ev.addr

/-- The events that a call of `event_ht_free` is about to free. -/
def releasing (s : KqState) : List MclEvent := s.dels.filterMap (·.inside)

/-- The events that have left the tables. -/
def gone (s : KqState) : List MclEvent := s.releasing ++ s.freed

/-- An event that the user can pass: one that is not freed and, if it is the base's, is as it was
when it was added. -/
def passable (s : KqState) (ev : MclEvent) : Bool :=
  !s.isFreed ev && (s.db.storedEvents ++ s.releasing).all fun e => e.addr != ev.addr || e == ev

/-- Code of the user runs. -/
def inUser (s : KqState) : Bool :=
  match s.place with
  | .main | .callback .. => true
  | .scan .. => !s.dels.isEmpty
  | _ => false

def fault (f : Fault) (s : KqState) : Shown × KqState := (.nothing, { s with place := .fault f })

/-- `mcl_event_add`. -/
def add (ev : MclEvent) (ok : Bool) (s : KqState) : Shown × KqState :=
  match kqAdd ev ok s.db with
  | none => s.fault .hash
  | some (ret, db) => (.ret ret, { s with db := db })

/-- `free(ev);` at the end of `event_ht_free`. -/
def free (ev : MclEvent) (byLoop : Bool) (s : KqState) : KqState :=
  { s with
    freed := ev :: s.freed
    userFreed := if byLoop then s.userFreed else ev :: s.userFreed }

/-- `kq_del` returns 1, which `handle_events` does not look at. -/
def delReturn (byLoop : Bool) (s : KqState) : Shown × KqState :=
  if byLoop then (.nothing, s) else (.ret 1, s)

/-- `kq_del` after its call of the cleanup callback. -/
def delRest (arg : MclEvent) (byLoop : Bool) (s : KqState) : Shown × KqState :=
  if s.isFreed arg then s.fault (.reads arg byLoop)
  else
    match delEvent arg s.db with
    | none => s.fault .hash
    | some (db, []) => { s with db := db }.delReturn byLoop
    | some (db, (_, ev) :: _) =>
      let s := { s with db := db }
      if s.isFreed ev then s.fault .eventHtFree
      else
        match ev.cleanupCall with
        | some call => (.call call, { s with dels := ⟨arg, some ev, byLoop⟩ :: s.dels })
        | none => (s.free ev byLoop).delReturn byLoop

/-- `kq_del`. -/
def del (arg : MclEvent) (byLoop : Bool) (s : KqState) : Shown × KqState :=
  let s := { s with db := keventDelete arg s.db }
  match arg.cleanupCall with
  | some call => (.call call, { s with dels := ⟨arg, none, byLoop⟩ :: s.dels })
  | none => s.delRest arg byLoop

/-- A cleanup callback has returned. -/
def delResume (frame : DelFrame) (s : KqState) : Shown × KqState :=
  match frame.inside with
  | some ev => (s.free ev frame.byLoop).delReturn frame.byLoop
  | none => s.delRest frame.arg frame.byLoop

/-! `kq_dispatch`. -/

/-- The head of `while (1)`, up to the call of `kevent`. -/
def loopHead (s : KqState) : Shown × KqState :=
  if s.termFlag then (.ret 1, { s with place := .main }) else (.nothing, { s with place := .wait })

def loop (tval : Option Timeval) (s : KqState) : Shown × KqState :=
  loopHead { s with
    tval := tval.getD s.tval
    tspec := tval.map fun t => ⟨t.sec, t.usec * 1000⟩ }

/-- `handle_events` after the callback, if there was one. -/
def handleCalled (rest : List Kevent) (ev : MclEvent) (s : KqState) : Shown × KqState :=
  if s.isFreed ev then s.fault (.reads ev true)
  else
    let s := { s with place := .scan rest (some ev) }
    if ev.evType &&& mclEvPersist = 0 then s.del ev true else (.nothing, s)

/-- The call for an entry, with the callback that is to be made. -/
def handleCall (k : Kevent) (rest : List Kevent) (ev : MclEvent) (cb : Option EventCb) (evType : BitVec 32)
    (s : KqState) : Shown × KqState :=
  if s.isFreed ev then s.fault (.reads ev true)
  else
    match cb with
    | some cb => (.call ⟨cb, k.ident, evType, ev.uargs⟩, { s with place := .callback rest ev })
    | none => s.handleCalled rest ev

/-- One round of the loop of `handle_events`, up to a callback. -/
def handleOne (rest : List Kevent) (ev : Option MclEvent) (s : KqState) : Shown × KqState :=
  match rest with
  | [] => s.loopHead
  | k :: rest =>
    match k.udata with
    | some ev =>
      if k.error then s.handleCall k rest ev ev.errorCb mclEvExp
      else if k.filter &&& evfiltRead ≠ 0 then s.handleCall k rest ev ev.callback mclEvRead
      else if k.filter &&& evfiltWrite ≠ 0 then s.handleCall k rest ev ev.callback mclEvWrite
      else (.nothing, { s with place := .scan rest (some ev) })
    | none =>
      match ev with
      | some ev => s.handleCalled rest ev
      | none => s.fault .noEvent

/-- What the kernel can report: an event of the tables, or what it has been given, freed or not. -/
def reportable (s : KqState) (k : Kevent) : Bool :=
  match k.udata with
  | some ev => decide (ev ∈ s.db.storedEvents) || s.db.kernel (k.ident, k.filter) == some ev
  | none => false

end KqState

/-- A step of the user, of the kernel, or of the loop. -/
inductive KqStep where
  /-- `ok` is what the kernel makes of the `EV_ADD`. -/
  | add (ev : MclEvent) (ok : Bool)
  | del (arg : MclEvent)
  | loopexit
  | loop (tval : Option Timeval)
  /-- The callback that is running returns. -/
  | ret
  /-- `kevent` returns a batch, or fails. -/
  | polled (batch : Option (List Kevent))
  /-- `handle_events` goes on. -/
  | handle

namespace KqState

/-- The user hands over no event that is being cleaned up, and does not enter the loop twice. -/
def exec (s : KqState) : KqStep → Option (Shown × KqState)
  | .add ev ok =>
    if s.inUser ∧ s.passable ev ∧ ∀ e ∈ s.releasing, e.addr ≠ ev.addr then some (s.add ev ok) else none
  | .del arg => if s.inUser ∧ s.passable arg then some (s.del arg false) else none
  | .loopexit => if s.inUser then some (.nothing, { s with termFlag := true }) else none
  | .loop tval => if s.place = .main ∧ s.dels = [] then some (s.loop tval) else none
  | .ret =>
    match s.dels, s.place with
    | frame :: dels, _ => if s.inUser then some ({ s with dels := dels }.delResume frame) else none
    | [], .callback rest ev => some (s.handleCalled rest ev)
    | [], _ => none
  | .polled batch =>
    if s.place = .wait then
      match batch with
      | none => some (.ret 0, { s with place := .main })
      | some batch =>
        if batch.all s.reportable then some (.nothing, { s with place := .scan batch none }) else none
    else none
  | .handle =>
    match s.dels, s.place with
    | [], .scan rest ev => some (s.handleOne rest ev)
    | _, _ => none

def init : KqState :=
  { place := .main, dels := [], db := kqInit, termFlag := false, tval := ⟨0, 0⟩, tspec := none,
    freed := [], userFreed := [] }

end KqState

/-- `mcl_evbase_new` and every run of what follows it. -/
def kqMachine : Machine KqState KqStep Shown := ⟨.init, KqState.exec⟩

end Mcl.Kqueue
