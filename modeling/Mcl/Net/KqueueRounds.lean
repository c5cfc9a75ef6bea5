import Mathlib.Data.Finset.Image
import Mcl.Net.KqueueBatch

/-! `kq_dispatch`, batch by batch, is a loop over the set of the events that are watched. -/
namespace Mcl.Kqueue
open Mcl.Library

/-- The events that are watched, and what each `kevent` is to wait. `looping` says that the loop is in one. -/
structure Watch where
  events : Finset MclEvent
  exits : Bool
  looping : Bool
  wait : Option Timespec
  deriving DecidableEq

namespace Watch

/-- A batch has distinct entries, all of them for events that are watched. -/
def Reports (w : Watch) (batch : List Kevent) : Prop :=
  (∀ k ∈ batch, k.filter = evfiltRead ∨ k.filter = evfiltWrite) ∧
    (∀ k ∈ batch, ∃ ev ∈ w.events, k.udata = some ev) ∧ (batch.map (·.udata)).Nodup

instance (w : Watch) (batch : List Kevent) : Decidable (w.Reports batch) := inferInstanceAs (Decidable (_ ∧ _ ∧ _))

def enter (tval : Option Timeval) (w : Watch) : Watch :=
  { w with looping := !w.exits, wait := tval.map fun t => ⟨t.sec, t.usec * 1000⟩ }

/-- What a batch makes of the watch, with the calls and what the loop returns. The batch is gone through to its end. -/
def round (leaves : EventCall → Bool) (w : Watch) :
    Option (List Kevent) → Option ((List EventCall × Option ℤ) × Watch)
  | some batch =>
    if w.looping ∧ w.Reports batch then
      let calls := batch.flatMap Kevent.turn
      let exits := w.exits || calls.any leaves
      some ((calls, if exits then some 1 else none),
        { w with events := w.events.filter (· ∉ firedOnce batch), exits := exits, looping := !exits })
    else none
  | none => if w.looping then some (([], some 0), { w with looping := false }) else none

end Watch

def watchMachine (leaves : EventCall → Bool) (tval : Option Timeval) (w : Watch) :
    Machine Watch (Option (List Kevent)) (List EventCall × Option ℤ) :=
  ⟨w.enter tval, Watch.round leaves⟩

namespace KqState

/-- What a state of the backend stands for. -/
def watch (s : KqState) : Watch := ⟨s.db.storedEvents.toFinset, s.termFlag, decide (s.place = .wait), s.tspec⟩

/-- The step of the loop up to the next `kevent`, or of a callback that only returns. -/
def goes (s : KqState) : Option KqStep :=
  match s.dels, s.place with
  | [], .scan .. => some .handle
  | _ :: _, _ | [], .callback .. => some .ret
  | [], _ => none

end KqState

/-- A round of `kq_dispatch`: what follows a `kevent`, with a user whose functions return at once, some of them after
`mcl_event_loopexit`. -/
def dispatchRound (leaves : EventCall → Bool) (fuel : ℕ) (s : KqState) (batch : Option (List Kevent)) :
    Option ((List EventCall × Option ℤ) × KqState) :=
  loopRound kqMachine (playing leaves .loopexit KqState.goes) fuel s (.polled batch)

/-- `mcl_event_loop` from a state outside the loop, round by round. -/
def dispatchMachine (leaves : EventCall → Bool) (fuel : ℕ) (tval : Option Timeval) (s : KqState) :
    Machine KqState (Option (List Kevent)) (List EventCall × Option ℤ) :=
  ⟨(s.loop tval).2, dispatchRound leaves fuel⟩

namespace KqState

variable {s t u : KqState} {rest batch : List Kevent} {ev : MclEvent} {v : Option MclEvent} {k : Kevent} {l : KqStep}
  {r : Shown × KqState} {leaves : EventCall → Bool}

/-! `handle_events` does not look at the flag. -/

def flagged (b : Bool) (s : KqState) : KqState := { s with termFlag := b }

/-- A function of the user has been called. -/
def Called (s : KqState) : Prop := s.inUser = true ∧ goOn s ≠ none

/-- Code of the user runs during a delete. -/
def CanCall (s : KqState) : Prop := ∀ (db : Evdb) frame dels, inUser { s with db := db, dels := frame :: dels } = true

theorem plays_delReturn (b byLoop : Bool) (s : KqState) :
    Plays flagged Called b ((s.flagged b).delReturn byLoop) (s.delReturn byLoop) := by
  cases byLoop with
  | true => exact .silent rfl rfl
  | false => exact .silent rfl rfl

theorem goOn_of_frame {frame : DelFrame} {dels : List DelFrame} (hdels : s.dels = frame :: dels) : goOn s ≠ none := by
  simp only [goOn, hdels]
  exact Option.some_ne_none _

theorem CanCall.delRest (h : s.CanCall) (b : Bool) (arg : MclEvent) (byLoop : Bool) :
    Plays flagged Called b ((s.flagged b).delRest arg byLoop) (s.delRest arg byLoop) := by
  unfold KqState.delRest
  rw [show (s.flagged b).isFreed arg = s.isFreed arg from rfl, show (s.flagged b).db = s.db from rfl]
  split
  · exact .silent rfl rfl
  split
  · exact .silent rfl rfl
  · next db hdel => exact plays_delReturn b byLoop { s with db := db }
  · next db fn ev rest hdel =>
    dsimp only
    rw [show isFreed { s.flagged b with db := db } ev = isFreed { s with db := db } ev from rfl]
    split
    · exact .silent rfl rfl
    split
    · exact ⟨rfl, fun _ => ⟨h db _ _, goOn_of_frame rfl⟩⟩
    · exact plays_delReturn b byLoop ({ s with db := db }.free ev byLoop)

theorem CanCall.del (h : s.CanCall) (b : Bool) (arg : MclEvent) (byLoop : Bool) :
    Plays flagged Called b ((s.flagged b).del arg byLoop) (s.del arg byLoop) := by
  unfold KqState.del
  dsimp only
  split
  · exact ⟨rfl, fun _ => ⟨h _ _ _, goOn_of_frame rfl⟩⟩
  · exact CanCall.delRest (s := { s with db := keventDelete arg s.db }) (fun db => h db) b arg byLoop

theorem plays_handleCalled (b : Bool) (rest : List Kevent) (ev : MclEvent) (s : KqState) :
    Plays flagged Called b ((s.flagged b).handleCalled rest ev) (s.handleCalled rest ev) := by
  unfold handleCalled
  rw [show (s.flagged b).isFreed ev = s.isFreed ev from rfl]
  split
  · exact .silent rfl rfl
  dsimp only
  split
  · exact CanCall.del (s := { s with place := .scan rest (some ev) }) (fun db frame dels => rfl) b ev true
  · exact .silent rfl rfl

theorem plays_handleCall (b : Bool) (k : Kevent) (rest : List Kevent) (ev : MclEvent) (cb : Option EventCb)
    (evType : BitVec 32) (s : KqState) :
    Plays flagged Called b ((s.flagged b).handleCall k rest ev cb evType) (s.handleCall k rest ev cb evType) := by
  unfold handleCall
  rw [show (s.flagged b).isFreed ev = s.isFreed ev from rfl]
  split
  · exact .silent rfl rfl
  split
  · refine ⟨rfl, fun _ => ⟨rfl, ?_⟩⟩
    unfold goOn
    cases s.dels <;> exact Option.some_ne_none _
  · exact plays_handleCalled b rest ev s

theorem plays_handleOne (b : Bool) (k : Kevent) (rest : List Kevent) (v : Option MclEvent) (s : KqState) :
    Plays flagged Called b ((s.flagged b).handleOne (k :: rest) v) (s.handleOne (k :: rest) v) := by
  unfold handleOne
  dsimp only
  split
  · split
    · exact plays_handleCall b k rest _ _ _ s
    split
    · exact plays_handleCall b k rest _ _ _ s
    split
    · exact plays_handleCall b k rest _ _ _ s
    · exact .silent rfl rfl
  · split
    · exact plays_handleCalled b rest _ s
    · exact .silent rfl rfl

theorem CanCall.delResume (h : s.CanCall) (b : Bool) (frame : DelFrame) :
    Plays flagged Called b ((s.flagged b).delResume frame) (s.delResume frame) := by
  unfold KqState.delResume
  split
  · next ev hinside => exact plays_delReturn b frame.byLoop (s.free ev frame.byLoop)
  · exact h.delRest b frame.arg frame.byLoop

theorem canCall_of_inUser (huser : s.inUser = true) (dels : List DelFrame) : CanCall { s with dels := dels } := by
  intro db frame' dels'
  unfold inUser at huser ⊢
  dsimp only
  cases hplace : s.place with
  | scan rest v => rfl
  | main => rfl
  | callback rest ev => rfl
  | wait => exact absurd (by rw [hplace] at huser; exact huser) Bool.false_ne_true
  | fault f => exact absurd (by rw [hplace] at huser; exact huser) Bool.false_ne_true

/-- The steps of a pass with callbacks that only return. -/
theorem plays_exec (b : Bool) (hgo : goOn s = some l) (he : s.exec l = some r) :
    ∃ r', (s.flagged b).exec l = some r' ∧ Plays flagged Called b r' r := by
  unfold goOn at hgo
  split at hgo
  · exact absurd hgo (by simp)
  · next rest v hne hdels hplace =>
    obtain rfl := Option.some.inj hgo
    obtain ⟨k, rest, rfl⟩ := List.exists_cons_of_ne_nil hne
    simp only [exec, hdels, hplace, Option.some.injEq] at he
    subst he
    exact ⟨_, by simp only [exec, flagged, hdels, hplace], plays_handleOne b k rest v s⟩
  · next rest ev hdels hplace =>
    obtain rfl := Option.some.inj hgo
    simp only [exec, hdels, hplace, Option.some.injEq] at he
    subst he
    exact ⟨_, by simp only [exec, flagged, hdels, hplace], plays_handleCalled b rest ev s⟩
  · exact absurd hgo (by simp)
  · next frame dels hdels =>
    obtain rfl := Option.some.inj hgo
    simp only [exec, hdels] at he
    obtain ⟨huser, heq⟩ := Option.ite_none_right_eq_some.mp he
    obtain rfl := Option.some.inj heq
    refine ⟨_, ?_, (canCall_of_inUser huser dels).delResume b frame⟩
    have huser' : (s.flagged b).inUser = true := huser
    simp only [exec, show (s.flagged b).dels = frame :: dels from hdels, huser', if_true]
    rfl

/-- The flag that `mcl_event_loopexit` sets. -/
def exitFlag : ExitFlag kqMachine .loopexit goOn where
  flag := termFlag
  flagged := flagged
  flag_flagged _ _ := rfl
  flagged_flag _ := rfl
  user := Called
  exits _ hcalled := ⟨hcalled.2, if_pos hcalled.1⟩
  inv _ := True
  inv_step _ _ _ := trivial
  plays b _ := plays_exec b

theorem goes_flagged (b : Bool) (hgo : goOn s = some l) : goes (s.flagged b) = some l := by
  simp only [goes, flagged]
  unfold goOn at hgo
  split at hgo
  · exact absurd hgo (by simp)
  · next hdels hplace =>
    rw [hdels, hplace]
    exact hgo
  · next hdels hplace =>
    rw [hdels, hplace]
    exact hgo
  · exact absurd hgo (by simp)
  · next hdels =>
    rw [hdels]
    exact hgo

theorem Midway.flagged (h : Midway rest t) (b : Bool) : Midway rest (t.flagged b) :=
  ⟨⟨h.sound.tables, h.sound.owned⟩, h.dels, h.place⟩

/-! A round. -/

/-- The loop waits in `kevent`. -/
structure Waiting (s : KqState) : Prop where
  sound : s.Sound
  dels : s.dels = []
  place : s.place = .wait
  flag : s.termFlag = false

theorem registered_of_reports (h : s.watch.Reports batch) : s.Registered batch := by
  obtain ⟨hfilters, hlive, hdistinct⟩ := h
  refine ⟨hfilters, fun k hk => ?_, hdistinct⟩
  obtain ⟨ev, hev, hudata⟩ := hlive k hk
  exact ⟨ev, List.mem_toFinset.mp hev, hudata⟩

theorem Registered.reportable (h : Registered s batch) : batch.all s.reportable = true := by
  rw [List.all_eq_true]
  intro k hk
  obtain ⟨ev, hev, hudata⟩ := h.live k hk
  simp only [KqState.reportable, hudata, Bool.or_eq_true, decide_eq_true_eq]
  exact .inl hev

theorem Waiting.exec_polled (h : Waiting s) (hreg : Registered s batch) :
    kqMachine.step s (.polled (some batch)) = some (.nothing, { s with place := .scan batch none }) := by
  simp only [kqMachine, exec, h.place, if_true, hreg.reportable]

/-- The head of the loop, after a round or at its start. -/
structure Turned (s t : KqState) (shown : Shown) : Prop where
  watch : t.watch = { s.watch with exits := s.termFlag, looping := !s.termFlag }
  stops : goes t = none
  calls : shown.calls = []
  ret? : shown.ret? = if s.termFlag then some 1 else none
  waiting : t.place = .wait → Waiting t

theorem Sound.turned (h : s.Sound) (hdels : s.dels = []) : Turned s s.loopHead.2 s.loopHead.1 := by
  unfold loopHead
  cases hterm : s.termFlag with
  | true =>
    rw [if_pos rfl]
    exact ⟨by simp [watch, hterm], by simp only [goes, hdels], rfl, by rw [hterm]; rfl,
      fun hwait => absurd hwait (by simp)⟩
  | false =>
    rw [if_neg Bool.false_ne_true]
    exact ⟨by simp [watch, hterm], by simp only [goes, hdels], rfl, by rw [hterm]; rfl,
      fun _ => ⟨⟨h.tables, h.owned⟩, hdels, rfl, rfl⟩⟩

/-- What a round makes of a state, with its calls and what the loop returns. -/
def Rounds (leaves : EventCall → Bool) (s : KqState) (batch : Option (List Kevent))
    (ans : List EventCall × Option ℤ) (w : Watch) : Prop :=
  ∃ t n, (∀ fuel, n ≤ fuel → dispatchRound leaves fuel s batch = some (ans, t)) ∧ t.watch = w ∧
    (t.place = .wait → Waiting t)

theorem Waiting.ready (h : Waiting s) (hreg : s.watch.Reports batch) (leaves : EventCall → Bool) :
    Rounds leaves s (some batch)
      (batch.flatMap Kevent.turn, if (batch.flatMap Kevent.turn).any leaves then some 1 else none)
      { s.watch with
        events := s.watch.events.filter (· ∉ firedOnce batch)
        exits := (batch.flatMap Kevent.turn).any leaves
        looping := !(batch.flatMap Kevent.turn).any leaves } := by
  have hreg' := registered_of_reports hreg
  have hmid : Midway batch { s with place := .scan batch none } :=
    ⟨⟨h.sound.tables, h.sound.owned⟩, h.dels, none, rfl⟩
  obtain ⟨shows, u, hleads, hcalls, hu⟩ := hmid.run ⟨hreg'.filters, hreg'.live, hreg'.distinct⟩
  obtain ⟨v, hplace⟩ := hu.midway.place
  have hstop : goOn u = none := by simp only [goOn, hu.midway.dels, hplace]
  obtain ⟨shows', last, hleads', hcalls', hlast⟩ :=
    exitFlag.leads goes (fun b => goes_flagged b) leaves trivial hleads hstop (some .nothing) rfl
  have hflag : exitFlag.flag { s with place := .scan batch none } = false := h.flag
  rw [hflag, Bool.false_or, hcalls] at hleads'
  generalize hexits : (batch.flatMap Kevent.turn).any leaves = exits at hleads' ⊢
  have hmid' := hu.midway.flagged exits
  have hturned := hmid'.sound.turned hmid'.dels
  have hgo : playing leaves .loopexit goes (last, u.flagged exits) = some .handle := by
    rw [playing_of_quiet hlast]
    simp only [goes, KqState.flagged, hu.midway.dels, hplace]
  have hhead : kqMachine.step (u.flagged exits) .handle = some (u.flagged exits).loopHead := by
    simp only [kqMachine, exec, hmid'.dels, show (u.flagged exits).place = .scan [] v from hplace, handleOne]
  generalize (u.flagged exits).loopHead = r at hturned hhead
  obtain ⟨n, hround⟩ := loopRound_of_leads (h.exec_polled hreg') hleads' hgo hhead
    ((playing_of_quiet (asks_of_calls hturned.calls)).trans hturned.stops)
  rw [hcalls', hcalls, hturned.calls, hturned.ret?, List.append_nil] at hround
  refine ⟨r.2, n, hround, ?_, hturned.waiting⟩
  have hevents : u.db.storedEvents.toFinset = s.db.storedEvents.toFinset.filter (· ∉ firedOnce batch) := by
    ext e
    rw [List.mem_toFinset, hu.stored, Finset.mem_filter, List.mem_toFinset]
  rw [hturned.watch]
  simp only [watch, KqState.flagged, hevents, hu.tspec]

theorem Waiting.failed (h : Waiting s) (leaves : EventCall → Bool) :
    Rounds leaves s none ([], some 0) { s.watch with looping := false } := by
  have he : kqMachine.step s (.polled none) = some (.ret 0, { s with place := .main }) := by
    simp only [kqMachine, exec, h.place, if_true]
  have hstop : playing leaves .loopexit goes (some (.ret 0), { s with place := .main }) = none := by
    refine (playing_of_quiet rfl).trans ?_
    simp only [goes, h.dels]
  obtain ⟨n, hround⟩ := loopRound_of_stop (playing leaves .loopexit goes) he hstop
  exact ⟨{ s with place := .main }, n, hround, rfl, fun hwait => absurd hwait (by simp)⟩

theorem Waiting.round (h : Waiting s) (leaves : EventCall → Bool) {batch : Option (List Kevent)}
    {ans : List EventCall × Option ℤ} {w : Watch} (hround : s.watch.round leaves batch = some (ans, w)) :
    Rounds leaves s batch ans w := by
  have hexits : s.watch.exits = false := h.flag
  cases batch with
  | some batch =>
    obtain ⟨⟨-, hreg⟩, heq⟩ := Option.ite_none_right_eq_some.mp hround
    obtain ⟨rfl, rfl⟩ := Prod.mk.inj (Option.some.inj heq)
    simp only [hexits, Bool.false_or]
    exact h.ready hreg leaves
  | none =>
    obtain ⟨-, heq⟩ := Option.ite_none_right_eq_some.mp hround
    obtain ⟨rfl, rfl⟩ := Prod.mk.inj (Option.some.inj heq)
    exact h.failed leaves

theorem place_of_looping (h : s.watch.looping = true) : s.place = .wait := of_decide_eq_true h

theorem looping_of_round {w w' : Watch} {batch : Option (List Kevent)} {ans : List EventCall × Option ℤ}
    (hround : w.round leaves batch = some (ans, w')) : w.looping = true := by
  cases batch with
  | some batch => exact (Option.ite_none_right_eq_some.mp hround).1.1
  | none => exact (Option.ite_none_right_eq_some.mp hround).1

/-- Any number of rounds. -/
theorem dispatch_rounds (leaves : EventCall → Bool) (tval : Option Timeval) (s₀ : KqState)
    (h : s.place = .wait → Waiting s) (batches : List (Option (List Kevent)))
    {hist : List (Option (List Kevent) × List EventCall × Option ℤ)} {w : Watch}
    (hrun : (watchMachine leaves tval s₀.watch).runFrom s.watch batches = some (hist, w)) :
    ∃ t n, (∀ fuel, n ≤ fuel → (dispatchMachine leaves fuel tval s₀).runFrom s batches = some (hist, t)) ∧
      t.watch = w := by
  have hinputs := Machine.runFrom_history hrun
  rw [← List.map_id batches] at hrun
  obtain ⟨hist', t, n, hn, hsame, hwatch, -⟩ := Machine.runFrom_fuelled
    (fun fuel => dispatchMachine leaves fuel tval s₀) id id (fun w t => t.watch = w ∧ (t.place = .wait → Waiting t)) Eq
    (fun w t batch ans w' hR hround => by
      obtain ⟨rfl, hwaiting⟩ := hR
      obtain ⟨t', n, hn, hwatch, hwaiting'⟩ :=
        (hwaiting (place_of_looping (looping_of_round hround))).round leaves hround
      exact ⟨ans, t', n, hn, rfl, hwatch, hwaiting'⟩)
    ⟨rfl, h⟩ hrun
  rw [List.map_id] at hn
  rw [List.forall₂_eq_eq_eq] at hsame
  obtain rfl : hist' = hist := by
    rw [List.zip_of_prod hinputs hsame]
    exact List.zip_of_prod (Machine.runFrom_history (hn n (Nat.le_refl n))) rfl
  exact ⟨t, n, hn, hwatch⟩

/-- The loop is entered. -/
theorem entered {ok : KqState → KqStep → Prop} {h : List (KqStep × Shown)} (hr : kqMachine.Reach ok h s)
    (hdels : s.dels = []) (tval : Option Timeval) :
    (s.loop tval).2.watch = s.watch.enter tval ∧ ((s.loop tval).2.place = .wait → Waiting (s.loop tval).2) := by
  have hsound : Sound { s with tval := tval.getD s.tval, tspec := tval.map fun t => ⟨t.sec, t.usec * 1000⟩ } :=
    ⟨(Reach.sound hr).tables, (Reach.sound hr).owned⟩
  have hturned := hsound.turned hdels
  exact ⟨hturned.watch, hturned.waiting⟩

/-- From any state outside the loop that any run has led to: with callbacks that return at once, some of them after
`mcl_event_loopexit`, the loop goes through the batches and makes the calls of the loop over the watched events. -/
theorem kq_dispatches {ok : KqState → KqStep → Prop} {h : List (KqStep × Shown)} (hr : kqMachine.Reach ok h s)
    (hmain : s.place = .main) (hdels : s.dels = []) (leaves : EventCall → Bool) (tval : Option Timeval)
    (batches : List (Option (List Kevent))) {hist : List (Option (List Kevent) × List EventCall × Option ℤ)} {w : Watch}
    (hrun : (watchMachine leaves tval s.watch).run batches = some (hist, w)) :
    s.exec (.loop tval) = some (if s.termFlag then .ret 1 else .nothing, (s.loop tval).2) ∧
      ∃ t n, (∀ fuel, n ≤ fuel → (dispatchMachine leaves fuel tval s).run batches = some (hist, t)) ∧
        t.watch = w := by
  obtain ⟨hwatch, hwaiting⟩ := entered hr hdels tval
  constructor
  · have hexec : s.exec (.loop tval) = some (s.loop tval) := if_pos ⟨hmain, hdels⟩
    rw [hexec, loop, loopHead]
    split <;> rfl
  · apply dispatch_rounds leaves tval s hwaiting batches
    rw [hwatch]
    exact hrun

def onceEvent : MclEvent := { plainEvent 1 3 mclEvWrite with cleanupCb := some 8 }
def lastEvent : MclEvent := { plainEvent 2 4 (mclEvRead ||| mclEvPersist) with callback := some 9 }

/-- Nothing has happened; then an event that is added for once is ready for writing; then a callback asks for the
end. -/
theorem kq_dispatches_exit :
    ∃ (s : KqState) (hist : List (Option (List Kevent) × List EventCall × Option ℤ)) (t : KqState) (n : ℕ),
    (∀ fuel, n ≤ fuel → (dispatchMachine (fun c => c.cb == 9) fuel (some ⟨2, 500⟩) s).run
      [some [], some [⟨3, evfiltWrite, false, some onceEvent⟩], some [⟨4, evfiltRead, false, some lastEvent⟩]] =
        some (hist, t)) ∧
      hist.map (·.2) = [([], none),
        ([⟨0, 3, mclEvRead, none⟩, ⟨8, 3, mclEvDel, none⟩, ⟨8, 3, mclEvDel, none⟩], none),
        ([⟨9, 4, mclEvRead, none⟩], some 1)] ∧
      t.watch = ⟨{lastEvent}, true, false, some ⟨2, 500000⟩⟩ := by
  obtain ⟨h, s, hrun, hmain, hdels, habstract⟩ := kqMachine.exists_of_run [.add onceEvent true, .add lastEvent true]
    (fun r => r.2.place = .main ∧ r.2.dels = [] ∧
      (((watchMachine (fun c => c.cb == 9) (some ⟨2, 500⟩) r.2.watch).run
        [some [], some [⟨3, evfiltWrite, false, some onceEvent⟩], some [⟨4, evfiltRead, false, some lastEvent⟩]]).any
          fun x => decide (x.1.map (·.2) = [([], none),
            ([⟨0, 3, mclEvRead, none⟩, ⟨8, 3, mclEvDel, none⟩, ⟨8, 3, mclEvDel, none⟩], none),
            ([⟨9, 4, mclEvRead, none⟩], some 1)] ∧ x.2 = ⟨{lastEvent}, true, false, some ⟨2, 500000⟩⟩)) = true)
    (by decide +kernel)
  obtain ⟨⟨hist, w⟩, habstract', hshows⟩ := (Option.any_eq_true _ _).mp habstract
  obtain ⟨hanswers, rfl⟩ := of_decide_eq_true hshows
  obtain ⟨-, t, n, hruns, hwatch⟩ := kq_dispatches (Machine.reach_of_run hrun) hmain hdels (fun c => c.cb == 9)
    (some ⟨2, 500⟩) _ habstract'
  exact ⟨s, hist, t, n, hruns, hanswers, hwatch⟩

end KqState
end Mcl.Kqueue
