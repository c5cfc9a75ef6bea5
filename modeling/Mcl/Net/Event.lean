import Mcl.Util.Common

/-! `mcl_event.h`: events and their callbacks. What a callback does is up to its user, so a call
is only a record of the function and its arguments. -/
namespace Mcl

/-! The constants of `MCL_EVENT_TYPE`, which the code uses as flags. -/

def mclEvRead : BitVec 32 := 1
def mclEvWrite : BitVec 32 := 2
def mclEvExp : BitVec 32 := 3
def mclEvPersist : BitVec 32 := 4
def mclEvDel : BitVec 32 := 6

/-- A `mcl_event_cb` that is not NULL. -/
abbrev EventCb := ℕ

/-- `mcl_event`, with its address. Once added it is not written any more, so a pointer to it is
the event itself. -/
structure MclEvent where
  addr : Addr
  sockfd : BitVec 32
  evType : BitVec 32
  callback : Option EventCb
  cleanupCb : Option EventCb
  errorCb : Option EventCb
  uargs : Option Addr
  deriving DecidableEq, Repr

structure EventCall where
  cb : EventCb
  sockfd : BitVec 32
  evType : BitVec 32
  uargs : Option Addr
  deriving DecidableEq, Repr

/-- The call of the cleanup callback of an event, if it has one. -/
def MclEvent.cleanupCall (ev : MclEvent) : Option EventCall :=
  ev.cleanupCb.map fun cb => ⟨cb, ev.sockfd, mclEvDel, ev.uargs⟩

/-- `struct timeval`. -/
structure Timeval where
  sec : ℤ
  usec : ℤ
  deriving DecidableEq, Repr

end Mcl
