import Mcl.Library.Runs
import Mcl.Net.Event

/-! What the loops of the backends have in common. A backend is a machine whose steps show what a call has returned, or
call a function of the user. -/
namespace Mcl
open Mcl.Library

/-- What a step shows to the user. -/
inductive Shown where
  | nothing
  | ret (r : ℤ)
  | call (c : EventCall)
  deriving DecidableEq, Repr

namespace Shown

def calls : Shown → List EventCall
  | .call c => [c]
  | _ => []

def ret? : Shown → Option ℤ
  | .ret r => some r
  | _ => none

/-- A call of a cleanup callback. -/
def cleanup : Shown → Option EventCall
  | .call c => if c.evType = mclEvDel then some c else none
  | _ => none

end Shown

variable {σ ι : Type} {M : Machine σ ι Shown}

theorem cleanup_of_call {ev : MclEvent} {call : EventCall} (hcall : ev.cleanupCall = some call) :
    (Shown.call call).cleanup = some call := by
  obtain ⟨cb, -, rfl⟩ := Option.map_eq_some_iff.mp hcall
  simp [Shown.cleanup]

/-- The calls of cleanup callbacks in a run. -/
def cleanups (h : List (ι × Shown)) : List EventCall := h.filterMap fun p => p.2.cleanup

theorem cleanups_concat (h : List (ι × Shown)) (i : ι) (shown : Shown) :
    cleanups (h ++ [(i, shown)]) = cleanups h ++ shown.cleanup.toList :=
  Machine.filterMap_concat ..

/-- The accounts after a step in which `left` go and their cleanup callbacks are called. -/
theorem cleanups_perm {h : List (ι × Shown)} {i : ι} {shown : Shown} {gone gone' left : List MclEvent}
    (hcalled : (cleanups h).Perm (gone.filterMap MclEvent.cleanupCall)) (hgone : gone'.Perm (left ++ gone))
    (hshown : shown.cleanup.toList = left.filterMap MclEvent.cleanupCall) :
    (cleanups (h ++ [(i, shown)])).Perm (gone'.filterMap MclEvent.cleanupCall) := by
  rw [cleanups_concat, hshown]
  refine (hcalled.append_right _).trans (List.perm_append_comm.trans ?_)
  rw [← List.filterMap_append]
  exact (hgone.filterMap _).symm

/-- A call of the library to its end: the functions that it calls return at once, by the input `ret`. `none` is a call
that does not get there. -/
def settle (M : Machine σ ι Shown) (ret : ι) : ℕ → Shown × σ → Option ℤ × σ
  | _, (.ret r, s) => (some r, s)
  | n + 1, (.call _, s) => ((M.step s ret).map (settle M ret n)).getD (none, s)
  | _, (_, s) => (none, s)

theorem settle_ret (M : Machine σ ι Shown) (ret : ι) (n : ℕ) (r : ℤ) (s : σ) :
    settle M ret n (.ret r, s) = (some r, s) := by
  cases n <;> rfl

theorem settle_call {ret : ι} {n : ℕ} {c : EventCall} {s : σ} {r : Shown × σ} (he : M.step s ret = some r) :
    settle M ret (n + 1) (.call c, s) = settle M ret n r := by
  rw [settle, he]
  rfl

/-! The loop, with functions of the user that return at once. -/

/-- From `r` the rule leads to a state with `P`, and these are the calls until then. -/
def GoesOn (M : Machine σ ι Shown) (next : σ → Option ι) (P : σ → Prop) (calls : List EventCall) (r : Shown × σ) :
    Prop :=
  ∃ shows t, M.Leads next r.2 shows t ∧ (r.1 :: shows).flatMap Shown.calls = calls ∧ P t

namespace GoesOn

variable {next : σ → Option ι} {P Q : σ → Prop} {calls calls' : List EventCall} {r : Shown × σ} {s : σ} {i : ι}

theorem stays (hs : P s) : GoesOn M next P [] (.nothing, s) := ⟨[], s, .refl s, rfl, hs⟩

/-- A function of the user is called. -/
theorem call {c : EventCall} (hi : next s = some i) (he : M.step s i = some r) (h : GoesOn M next P calls r) :
    GoesOn M next P (c :: calls) (.call c, s) := by
  obtain ⟨shows, t, hleads, rfl, ht⟩ := h
  exact ⟨r.1 :: shows, t, .head hi he hleads, rfl, ht⟩

theorem mono (h : GoesOn M next P calls r) (hPQ : ∀ t, P t → Q t) : GoesOn M next Q calls r := by
  obtain ⟨shows, t, hleads, hcalls, ht⟩ := h
  exact ⟨shows, t, hleads, hcalls, hPQ t ht⟩

/-- The step that the rule chooses, and then what it leads to. -/
theorem leads (hi : next s = some i) (he : M.step s i = some r) (h : GoesOn M next P calls r) :
    ∃ shows t, M.Leads next s shows t ∧ shows.flatMap Shown.calls = calls ∧ P t := by
  obtain ⟨shows, t, hleads, hcalls, ht⟩ := h
  exact ⟨r.1 :: shows, t, .head hi he hleads, hcalls, ht⟩

end GoesOn

/-! `mcl_event_loopexit`. -/

/-- The last step has called a function that asks for the end of the loop. -/
def asks (leaves : EventCall → Bool) (last : Option Shown) : Bool := last.any fun shown => shown.calls.any leaves

/-- The rule `next`, with functions that return at once, some of them after `mcl_event_loopexit`. -/
def playing (leaves : EventCall → Bool) (loopexit : ι) (next : σ → Option ι) (x : Option Shown × σ) : Option ι :=
  if asks leaves x.1 then some loopexit else next x.2

theorem asks_of_calls {leaves : EventCall → Bool} {shown : Shown} (hcalls : shown.calls = []) :
    asks leaves (some shown) = false := by
  rw [asks, Option.any_some, hcalls]
  rfl

theorem playing_of_quiet {leaves : EventCall → Bool} {loopexit : ι} {next : σ → Option ι} {x : Option Shown × σ}
    (hquiet : asks leaves x.1 = false) : playing leaves loopexit next x = next x.2 :=
  if_neg (by rw [hquiet]; exact Bool.false_ne_true)

/-- A part of a loop does the same with the flag set to `b`, and what it calls is code of the user. -/
structure Plays (flagged : Bool → σ → σ) (user : σ → Prop) (b : Bool) (r' r : Shown × σ) : Prop where
  flag : r' = (r.1, flagged b r.2)
  user : r.1.calls ≠ [] → user r.2

theorem Plays.silent {flagged : Bool → σ → σ} {user : σ → Prop} {b : Bool} {r' r : Shown × σ}
    (hflag : r' = (r.1, flagged b r.2)) (hcalls : r.1.calls = []) : Plays flagged user b r' r :=
  ⟨hflag, fun hc => absurd hcalls hc⟩

/-- A flag that the input `loopexit` sets while a function of the user runs. The steps that `next` chooses do not look
at it. -/
structure ExitFlag (M : Machine σ ι Shown) (loopexit : ι) (next : σ → Option ι) where
  flag : σ → Bool
  flagged : Bool → σ → σ
  flag_flagged : ∀ b s, flag (flagged b s) = b
  flagged_flag : ∀ s, flagged (flag s) s = s
  user : σ → Prop
  exits : ∀ {u} (b : Bool), user u → next u ≠ none ∧ M.step (flagged b u) loopexit = some (.nothing, flagged true u)
  inv : σ → Prop
  inv_step : ∀ {s i r}, inv s → next s = some i → M.step s i = some r → inv r.2
  plays : ∀ {s i r} (b : Bool), inv s → next s = some i → M.step s i = some r →
    ∃ r', M.step (flagged b s) i = some r' ∧ Plays flagged user b r' r

namespace ExitFlag

variable {loopexit : ι} {next next' : σ → Option ι} {leaves : EventCall → Bool}

/-- `x` is at `s` but for the flag, which the calls in `log` have set where they were to; the last one may still be under
way. -/
structure Follows (F : ExitFlag M loopexit next) (leaves : EventCall → Bool) (b : Bool) (log : List EventCall) (s : σ)
    (x : Option Shown × σ) : Prop where
  inv : F.inv s
  eq : x.2 = F.flagged (F.flag x.2) s
  flag : (F.flag x.2 || asks leaves x.1) = (b || log.any leaves)
  exits : asks leaves x.1 = true → next s ≠ none ∧ M.step x.2 loopexit = some (.nothing, F.flagged true s)

variable {F : ExitFlag M loopexit next} {b c : Bool} {log : List EventCall} {s t : σ} {i : ι} {r : Shown × σ}
  {x : Option Shown × σ}

/-- A step of the rule, from the same state but for the flag. -/
theorem Follows.after (hinv : F.inv s) (hi : next s = some i) (he : M.step s i = some r)
    (hflag : c = (b || log.any leaves)) :
    F.Follows leaves b (log ++ r.1.calls) r.2 (some r.1, F.flagged c r.2) := by
  refine ⟨F.inv_step hinv hi he, ?_, ?_, fun hasks => ?_⟩
  · exact congrArg (F.flagged · r.2) (F.flag_flagged c r.2).symm
  · change (F.flag (F.flagged c r.2) || r.1.calls.any leaves) = _
    rw [F.flag_flagged, hflag, List.any_append, Bool.or_assoc]
  · obtain ⟨r', -, hplays⟩ := F.plays c hinv hi he
    refine F.exits c (hplays.user fun hnone => ?_)
    rw [asks_of_calls hnone] at hasks
    exact absurd hasks Bool.false_ne_true

theorem Follows.step (hnext : ∀ {s i} b, next s = some i → next' (F.flagged b s) = some i)
    (h : F.Follows leaves b log s x) (hi : next s = some i) (he : M.step s i = some r) :
    ∃ us x', M.answered.Leads (playing leaves loopexit next') x us x' ∧ us.flatMap Shown.calls = r.1.calls ∧
      F.Follows leaves b (log ++ r.1.calls) r.2 x' := by
  have hgo : ∀ (last : Option Shown) c, asks leaves last = false →
      playing leaves loopexit next' (last, F.flagged c s) = some i ∧
        M.answered.step (last, F.flagged c s) i = some (r.1, (some r.1, F.flagged c r.2)) := by
    intro last c hasks
    obtain ⟨r', he', hplays⟩ := F.plays c h.inv hi he
    rw [hplays.flag] at he'
    exact ⟨(playing_of_quiet hasks).trans (hnext c hi), Machine.answered_step.mpr ⟨he', rfl⟩⟩
  have hflag := h.flag
  cases hasks : asks leaves x.1 with
  | true =>
    rw [hasks, Bool.or_true] at hflag
    have hexit : playing leaves loopexit next' x = some loopexit := if_pos hasks
    obtain ⟨hgo', he'⟩ := hgo (some .nothing) true rfl
    exact ⟨[.nothing, r.1], _, .head hexit (Machine.answered_step.mpr ⟨(h.exits hasks).2, rfl⟩) (.step hgo' he'),
      List.append_nil _, .after h.inv hi he hflag⟩
  | false =>
    rw [hasks, Bool.or_false] at hflag
    obtain ⟨hgo', he'⟩ := hgo x.1 (F.flag x.2) hasks
    rw [← h.eq] at hgo' he'
    exact ⟨[r.1], _, .step hgo' he', List.append_nil _, .after h.inv hi he hflag⟩

/-- What the rule leads to, with functions that only return, it leads to with functions that may set the flag. -/
theorem leads (F : ExitFlag M loopexit next) (next' : σ → Option ι)
    (hnext : ∀ {s i} b, next s = some i → next' (F.flagged b s) = some i) (leaves : EventCall → Bool)
    {shows : List Shown} (hinv : F.inv s) (hleads : M.Leads next s shows t) (hstop : next t = none)
    (last : Option Shown) (hlast : asks leaves last = false) :
    ∃ shows' last', M.answered.Leads (playing leaves loopexit next') (last, s) shows'
        (last', F.flagged (F.flag s || (shows.flatMap Shown.calls).any leaves) t) ∧
      shows'.flatMap Shown.calls = shows.flatMap Shown.calls ∧ asks leaves last' = false := by
  obtain ⟨n, hdrive⟩ := hleads.ends hstop
  have hstart : F.Follows leaves (F.flag s) [] s (last, s) := by
    refine ⟨hinv, (F.flagged_flag s).symm, ?_, fun hasks => ?_⟩
    · rw [hlast]
      rfl
    · exact absurd (hlast.symm.trans hasks) Bool.false_ne_true
  obtain ⟨us, ⟨last', u⟩, hleads', hshows, hend⟩ := Machine.drive_followed (R := F.Follows leaves (F.flag s))
    (fun log s x i r s' hR hi he => hR.step hnext hi he) (hdrive n (Nat.le_refl n)) hstart
  have hquiet : asks leaves last' = false := by
    rw [← Bool.not_eq_true]
    exact fun hasks => (hend.exits hasks).1 hstop
  refine ⟨us, last', ?_, hshows, hquiet⟩
  have hflag := hend.flag
  rw [hquiet, Bool.or_false, List.nil_append] at hflag
  rw [← hflag, ← hend.eq]
  exact hleads'

end ExitFlag

/-! The rounds of a loop. -/

/-- A round: what follows the step `i`, with the calls that it makes and what it returns. -/
def loopRound (M : Machine σ ι Shown) (next : Option Shown × σ → Option ι) (fuel : ℕ) (s : σ) (i : ι) :
    Option ((List EventCall × Option ℤ) × σ) := do
  let (shown, s) ← M.step s i
  let (shows, x) ← M.answered.drive next fuel (some shown, s)
  some (((shown :: shows).flatMap Shown.calls, (shown :: shows).getLast?.bind Shown.ret?), x.2)

variable {next : Option Shown × σ → Option ι} {s t u : σ} {i j : ι} {shown last : Shown} {shows : List Shown}
  {x : Option Shown × σ}

theorem loopRound_eq {fuel : ℕ} (he : M.step s i = some (shown, u))
    (hdrive : M.answered.drive next fuel (some shown, u) = some (shows, x)) :
    loopRound M next fuel s i =
      some (((shown :: shows).flatMap Shown.calls, (shown :: shows).getLast?.bind Shown.ret?), x.2) := by
  simp only [loopRound, he, hdrive, Option.bind_eq_bind, Option.bind_some]

/-- The first step is the whole round. -/
theorem loopRound_of_stop (next : Option Shown × σ → Option ι) (he : M.step s i = some (shown, t))
    (hstop : next (some shown, t) = none) :
    ∃ n, ∀ fuel, n ≤ fuel → loopRound M next fuel s i = some ((shown.calls, shown.ret?), t) := by
  have hhere : M.answered.Leads next (some shown, t) [] (some shown, t) := .refl _
  obtain ⟨n, hdrive⟩ := hhere.ends hstop
  refine ⟨n, fun fuel hle => (loopRound_eq he (hdrive fuel hle)).trans ?_⟩
  rw [List.flatMap_singleton]
  rfl

theorem loopRound_of_leads (he : M.step s i = some (shown, u)) (hleads : M.answered.Leads next (some shown, u) shows x)
    (hj : next x = some j) (hlast : M.step x.2 j = some (last, t)) (hstop : next (some last, t) = none) :
    ∃ n, ∀ fuel, n ≤ fuel →
      loopRound M next fuel s i = some ((shown.calls ++ (shows.flatMap Shown.calls ++ last.calls), last.ret?), t) := by
  obtain ⟨n, hdrive⟩ :=
    (hleads.trans (.step hj (Machine.answered_step (y := (some last, t)).mpr ⟨hlast, rfl⟩))).ends hstop
  refine ⟨n, fun fuel hle => (loopRound_eq he (hdrive fuel hle)).trans ?_⟩
  rw [List.flatMap_cons, List.flatMap_append, List.flatMap_singleton, ← List.cons_append, List.getLast?_concat]
  rfl

/-- A round takes its steps like any run. -/
theorem reach_of_loopRound {ok : σ → ι → Prop} {h : List (ι × Shown)} {fuel : ℕ} {ans : List EventCall × Option ℤ}
    (hr : M.Reach ok h s) (hi : ok s i) (hok : ∀ x j, next x = some j → ok x.2 j)
    (hround : loopRound M next fuel s i = some (ans, t)) : ∃ h', M.Reach ok h' t := by
  simp only [loopRound, Option.bind_eq_bind, Option.bind_eq_some_iff, Option.some.injEq] at hround
  obtain ⟨⟨shown, u⟩, he, ⟨shows, x⟩, hdrive, heq⟩ := hround
  obtain ⟨-, rfl⟩ := Prod.mk.inj heq
  exact (Machine.Reach.step hr hi he).drive hok hdrive

end Mcl
