import Mcl.Net.SelectRuns

/-! What `select` is handed as its timeout, over the polls of a run of `select_dispatch`. -/
namespace Mcl
open Mcl.Library

def Timeval.usecs (tval : Timeval) : ℤ := tval.sec * 1000000 + tval.usec

/-- The timeout that the loop has been called with, after one more step. -/
def SelectStep.passes (tval : Option Timeval) : SelectStep → Option Timeval
  | .loop tval => tval
  | _ => tval

/-- What the last poll since that call has left in the timeval, after one more step. -/
def SelectStep.leaves (left : Option Timeval) : SelectStep → Option Timeval
  | .loop _ => none
  | .polled _ left => some left
  | _ => left

def passed (hist : List (SelectStep × Shown)) : Option Timeval :=
  hist.foldl (fun tval entry => entry.1.passes tval) none

def lastLeft (hist : List (SelectStep × Shown)) : Option Timeval :=
  hist.foldl (fun left entry => entry.1.leaves left) none

namespace SelectState

/-- The last argument of `select`, with what it points to. -/
def handed (s : SelectState) : Option Timeval := if s.timed then some s.tval else none

/-- On Linux `select` leaves the time not slept. -/
def OnLinux (s : SelectState) : SelectStep → Prop
  | .polled .timeout left => s.timed = true → left = ⟨0, 0⟩
  | .polled _ left => s.timed = true → left.usecs ≤ s.tval.usecs
  | _ => True

instance (s : SelectState) : (l : SelectStep) → Decidable (s.OnLinux l)
  | .polled (.ready _) left => inferInstanceAs (Decidable (s.timed = true → left.usecs ≤ s.tval.usecs))
  | .polled .timeout left => inferInstanceAs (Decidable (s.timed = true → left = ⟨0, 0⟩))
  | .polled .error left => inferInstanceAs (Decidable (s.timed = true → left.usecs ≤ s.tval.usecs))
  | .add _ | .del _ | .loopexit | .loop _ | .ret | .handle => .isTrue trivial

/-- At every call of `select` in the run. -/
def EveryPoll (P : List (SelectStep × Shown) → SelectState → Prop) (hist : List (SelectStep × Shown)) : Prop :=
  ∀ pre s, pre <+: hist → selectMachine.run (pre.map Prod.fst) = some (pre, s) → s.place = .poll → P pre s

/-- `select` is handed the timeout that the loop has been called with. -/
def WaitsAsAsked (hist : List (SelectStep × Shown)) (s : SelectState) : Prop := s.handed = passed hist

/-- The poll before this one, if there was one, has left the timeout as it was. -/
def LeftAsAsked (hist : List (SelectStep × Shown)) : Prop :=
  ∀ tval left, passed hist = some tval → lastLeft hist = some left → left = tval

variable {s s' : SelectState} {side : Side} {it : HashIter SltHtNode} {sockfd : BitVec 32}
  {ev arg : MclEvent} {l : SelectStep} {r : Shown × SelectState}

/-! Nothing but a call of the loop and the return of `select` writes the timeval. -/

theorem handed_delFrom {inExp : Bool} {goOn : ℤ → SelectState → Shown × SelectState}
    (hgo : ∀ ret t, (goOn ret t).2.handed = t.handed) : (s.delFrom arg side inExp goOn).2.handed = s.handed := by
  unfold delFrom
  split
  · rfl
  · exact hgo _ _
  · dsimp only
    unfold eventHtFree
    split
    · rfl
    · split
      · rfl
      · exact hgo _ _

theorem handed_delRest {ret : ℤ} : (s.delRest arg ret).2.handed = s.handed := by
  unfold delRest
  split
  · rfl
  · split
    · exact handed_delFrom fun _ _ => rfl
    · rfl

theorem handed_del : (s.del arg).2.handed = s.handed := by
  unfold del
  split
  · rfl
  · exact handed_delFrom fun _ _ => handed_delRest

theorem handed_delResume {frame : DelFrame} : (s.delResume frame).2.handed = s.handed := by
  unfold delResume
  dsimp only
  split
  · rfl
  · exact handed_delRest

theorem handed_add : (s.add ev).2.handed = s.handed := by
  unfold add
  split
  · rfl
  · rfl

theorem handed_loopHead : s.loopHead.2.handed = s.handed := by
  unfold loopHead
  split
  · rfl
  · split
    · rfl
    · next s₁ hinit =>
      rw [(initAll_ht hinit).2]
      rfl

theorem handed_handleEvents : (s.handleEvents side).2.handed = s.handed := by
  unfold handleEvents
  split
  · rfl
  · rfl

theorem handed_handleReturn : (s.handleReturn side).2.handed = s.handed := by
  cases side with
  | inEvs => exact handed_handleEvents
  | outEvs => exact handed_handleEvents
  | expEvs => exact handed_loopHead

theorem handed_handleNext : (s.handleNext side it).2.handed = s.handed := by
  unfold handleNext
  split
  · rfl
  · rfl

theorem handed_handleErase : (s.handleErase side it sockfd).2.handed = s.handed := by
  unfold handleErase
  split
  · rfl
  · rfl
  · dsimp only
    unfold eventHtFree
    split
    · rfl
    · split
      · rfl
      · rfl

theorem handed_handleCalled {err : Bool} : (s.handleCalled side it sockfd ev err).2.handed = s.handed := by
  unfold handleCalled
  split
  · rfl
  · split
    · exact handed_handleErase
    · exact handed_handleNext

theorem handed_handleOne : (s.handleOne side it).2.handed = s.handed := by
  unfold handleOne
  split
  · exact handed_handleReturn
  split
  · rfl
  split
  · split
    · dsimp only
      split
      · rfl
      · split
        · rfl
        · exact handed_handleCalled
    · exact handed_handleNext
  · rfl

theorem handed_loop (tval : Option Timeval) : (s.loop tval).2.handed = tval := by
  unfold loop
  rw [handed_loopHead]
  cases tval with
  | none => rfl
  | some tval => rfl

theorem handed_polled (r : PollResult) (left : Timeval) : (s.polled r left).2.handed = s.handed.map fun _ => left := by
  have hleft : (if s.timed then { s with tval := left } else s).handed = s.handed.map fun _ => left := by
    cases htimed : s.timed with
    | false => simp [handed, htimed]
    | true => simp [handed, htimed]
  unfold polled
  cases r with
  | ready sets => exact handed_handleEvents.trans hleft
  | timeout => exact handed_loopHead.trans hleft
  | error => exact hleft

/-- The timeout of the loop, or what the last poll has made of it. -/
def Carries (hist : List (SelectStep × Shown)) (s : SelectState) : Prop :=
  s.handed = (passed hist).map fun tval => (lastLeft hist).getD tval

theorem Carries.loopStep {hist : List (SelectStep × Shown)} (hc : s.Carries hist) (hs : LoopStep s l r) :
    r.2.Carries (hist ++ [(l, r.1)]) := by
  unfold Carries passed lastLeft at *
  rw [List.foldl_append, List.foldl_append]
  cases hs with
  | loop tval hplace =>
    rw [handed_loop]
    exact (congrFun Option.map_id tval).symm
  | called hplace hdels =>
    rw [handed_handleCalled]
    exact hc
  | cleaned hplace hdels => exact hc
  | polled r left hplace =>
    rw [handed_polled, hc, Option.map_map]
    rfl
  | handle hplace =>
    rw [handed_handleOne]
    exact hc

theorem Carries.exec {hist : List (SelectStep × Shown)} (hc : s.Carries hist) (he : s.exec l = some r) :
    r.2.Carries (hist ++ [(l, r.1)]) := by
  rcases exec_inv he with hs | hs
  · unfold Carries passed lastLeft at *
    rw [List.foldl_append, List.foldl_append]
    cases hs with
    | add =>
      rw [handed_add]
      exact hc
    | del =>
      rw [handed_del]
      exact hc
    | loopexit => exact hc
    | ret =>
      rw [handed_delResume]
      exact hc
  · exact hc.loopStep hs

theorem carries_of_run {ops : List SelectStep} {hist : List (SelectStep × Shown)}
    (hrun : selectMachine.run ops = some (hist, s)) : s.Carries hist := by
  have hr := Machine.reach_of_run hrun
  clear hrun
  induction hr with
  | init => rfl
  | step _ _ he ih => exact ih.exec he

theorem waits_iff {ops : List SelectStep} {hist : List (SelectStep × Shown)}
    (hrun : selectMachine.run ops = some (hist, s)) : s.WaitsAsAsked hist ↔ LeftAsAsked hist := by
  unfold WaitsAsAsked LeftAsAsked
  rw [carries_of_run hrun]
  cases passed hist with
  | none => simp
  | some tval =>
    cases lastLeft hist with
    | none => simp
    | some left => simp

/-- Whatever `select` leaves in the timeval. -/
theorem select_timeout_iff (hist : List (SelectStep × Shown)) :
    EveryPoll (fun pre s => s.WaitsAsAsked pre) hist ↔ EveryPoll (fun pre _ => LeftAsAsked pre) hist := by
  constructor
  · intro hwaits pre s hpre hrun hplace
    exact (waits_iff hrun).mp (hwaits pre s hpre hrun hplace)
  · intro hleft pre s hpre hrun hplace
    exact (waits_iff hrun).mpr (hleft pre s hpre hrun hplace)

/-- One second is asked for, and after a timeout the loop polls without waiting. -/
theorem select_timeout_spent : ¬ ∀ (hist : List (SelectStep × Shown)) (s : SelectState),
    selectMachine.Reach OnLinux hist s → EveryPoll (fun pre s => s.WaitsAsAsked pre) hist := by
  intro hall
  obtain ⟨hist, s, hr, hplace, hspent⟩ := selectMachine.exists_of_restrict (fun s l => decide (s.OnLinux l))
    [.loop (some ⟨1, 0⟩), .polled .timeout ⟨0, 0⟩]
    (fun r => r.2.place = .poll ∧ r.2.handed ≠ passed r.1) (by decide +kernel)
  have hlinux := hr.mono fun _ _ hok => of_decide_eq_true hok
  exact hspent (hall hist s hlinux hist s (List.prefix_refl hist) hr.run hplace)

end SelectState
end Mcl
