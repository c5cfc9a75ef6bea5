import Mathlib.Data.Finset.Image
import Mcl.Net.SelectPass

/-! What an event base is for: in each round of its loop the events that are ready are called, in any order, and
those that were added for once go. -/
namespace Mcl
open Mcl.Library

/-- The events by their sides. `looping` says that the loop waits for its next poll. -/
structure Registry where
  events : Side → Finset MclEvent
  exits : Bool
  looping : Bool

/-- The calls for one event, in their order. -/
abbrev Turn := List EventCall

/-- A round: the turns of the events for reading, those of the events for writing, and what the loop returns. -/
structure Turns where
  reads : Multiset Turn
  writes : Multiset Turn
  ret : Option ℤ

/-- Calls in which the turns follow one another, first those for reading. -/
def Turns.Orders (turns : Turns) (calls : List EventCall) : Prop :=
  ∃ reads writes : List Turn, (reads : Multiset Turn) = turns.reads ∧ (writes : Multiset Turn) = turns.writes ∧
    calls = reads.flatten ++ writes.flatten

/-- The calls that a round has made, and what the loop has returned. -/
def Turns.Allows (turns : Turns) (ans : List EventCall × Option ℤ) : Prop := turns.Orders ans.1 ∧ ans.2 = turns.ret

namespace Registry

variable (leaves : EventCall → Bool)

def turns (reg : Registry) (sets : Side → FdSet) (side : Side) : Multiset Turn :=
  (reg.events side).val.map (passCalls side (sets side))

/-- A poll reports descriptors of events, and at least one. -/
def reportable (reg : Registry) (sets : Side → FdSet) : Bool :=
  (Side.all.all fun side => decide (sets side ⊆ (reg.events side).image (·.sockfd))) &&
    Side.all.any fun side => decide (sets side ≠ ∅)

/-- One of the calls of the round asks the loop to end. -/
def asked (reg : Registry) (sets : Side → FdSet) : Bool :=
  [Side.inEvs, .outEvs].any fun side => decide (∃ ev ∈ reg.events side, (passCalls side (sets side) ev).any leaves = true)

def enter (reg : Registry) : Registry := { reg with looping := !reg.exits }

/-- The loop does not stop in the course of a round. -/
def round (reg : Registry) : PollResult → Option (Turns × Registry)
  | .ready sets =>
    if reg.looping ∧ reg.reportable sets then
      let exits := reg.exits || reg.asked leaves sets
      some (⟨reg.turns sets .inEvs, reg.turns sets .outEvs, if exits then some 1 else none⟩,
        ⟨fun side => (reg.events side).filter fun ev => dropped (sets side) ev = false, exits, !exits⟩)
    else none
  | .timeout => if reg.looping then some (⟨0, 0, none⟩, reg) else none
  | .error => if reg.looping then some (⟨0, 0, some 0⟩, { reg with looping := false }) else none

end Registry

/-- The rounds of a loop from its start. -/
def registryMachine (leaves : EventCall → Bool) (reg : Registry) : Machine Registry PollResult Turns :=
  ⟨reg.enter, Registry.round leaves⟩

namespace SelectState

/-- What a state of the backend stands for. -/
def registry (s : SelectState) : Registry :=
  ⟨fun side => (s.events side).toFinset, s.termFlag, decide (s.place = .poll)⟩

/-- The step of the loop up to the next `select`, or of a callback that only returns. -/
def goes (s : SelectState) : Option SelectStep :=
  match s.place with
  | .scan .. => some .handle
  | .callback .. | .cleanup .. => some .ret
  | _ => none

end SelectState

/-- A round of `select_dispatch`: what follows a poll, with a user whose functions return at once, some of them after
`mcl_event_loopexit`. -/
def dispatchRound (leaves : EventCall → Bool) (fuel : ℕ) (s : SelectState) (poll : PollResult × Timeval) :
    Option ((List EventCall × Option ℤ) × SelectState) :=
  loopRound selectMachine (playing leaves .loopexit SelectState.goes) fuel s (.polled poll.1 poll.2)

/-- `mcl_event_loop` from a state outside the loop, round by round. -/
def dispatchMachine (leaves : EventCall → Bool) (fuel : ℕ) (tval : Option Timeval) (s : SelectState) :
    Machine SelectState (PollResult × Timeval) (List EventCall × Option ℤ) :=
  ⟨(s.loop tval).2, dispatchRound leaves fuel⟩

end Mcl
