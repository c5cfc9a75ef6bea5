import Mcl.Net.Registry
import Mcl.Net.SelectPoll

/-! `select_dispatch`, round by round, is the loop of a registry. -/
namespace Mcl
open Mcl.Library Mcl.Hash

namespace SelectState

variable {s t u : SelectState} {side : Side} {it : HashIter SltHtNode} {sockfd fd : BitVec 32} {ev : MclEvent}
  {l : SelectStep} {r : Shown × SelectState} {leaves : EventCall → Bool}

/-! `handle_events` does not look at the flag. -/

def flagged (b : Bool) (s : SelectState) : SelectState := { s with termFlag := b }

/-- A function of the user has been called. -/
def Called (s : SelectState) : Prop := s.inUser = true ∧ goOn s ≠ none

theorem plays_handleNext (b : Bool) (s : SelectState) :
    Plays flagged Called b ((s.flagged b).handleNext side it) (s.handleNext side it) := by
  unfold handleNext
  rw [show (s.flagged b).ht = s.ht from rfl]
  split
  · exact .silent rfl rfl
  · exact .silent rfl rfl

theorem plays_handleErase (b : Bool) (s : SelectState) :
    Plays flagged Called b ((s.flagged b).handleErase side it sockfd) (s.handleErase side it sockfd) := by
  unfold handleErase
  rw [show (s.flagged b).ht = s.ht from rfl]
  split
  · exact .silent rfl rfl
  · exact .silent rfl rfl
  · next it' ht' fn node rest herase =>
    dsimp only
    unfold eventHtFree
    rw [show ((s.flagged b).setHt side ht').isFreed node.ev = (s.setHt side ht').isFreed node.ev from rfl]
    split
    · exact .silent rfl rfl
    split
    · exact ⟨rfl, fun _ => ⟨rfl, Option.some_ne_none _⟩⟩
    · exact .silent rfl rfl

theorem plays_handleCalled (b err : Bool) (s : SelectState) :
    Plays flagged Called b ((s.flagged b).handleCalled side it sockfd ev err)
      (s.handleCalled side it sockfd ev err) := by
  unfold handleCalled
  rw [show (s.flagged b).isFreed ev = s.isFreed ev from rfl]
  split
  · exact .silent rfl rfl
  split
  · exact plays_handleErase b s
  · exact plays_handleNext b s

theorem plays_handleOne (b : Bool) (s : SelectState) (hon : it.isNull = false) :
    Plays flagged Called b ((s.flagged b).handleOne side it) (s.handleOne side it) := by
  unfold handleOne
  rw [hon, if_neg Bool.false_ne_true, if_neg Bool.false_ne_true, show (s.flagged b).ht = s.ht from rfl,
    show (s.flagged b).fds = s.fds from rfl]
  split
  · exact .silent rfl rfl
  split
  · next fd valptr hkey hval =>
    split
    · dsimp only
      rw [show (s.flagged b).isFreed valptr.ev = s.isFreed valptr.ev from rfl]
      split
      · exact .silent rfl rfl
      split
      · exact ⟨rfl, fun _ => ⟨rfl, Option.some_ne_none _⟩⟩
      · exact plays_handleCalled b false s
    · exact plays_handleNext b s
  · exact .silent rfl rfl

/-- The steps of a pass with callbacks that only return. -/
theorem plays_exec (b : Bool) (hdels : s.dels = []) (hgo : goOn s = some l) (he : s.exec l = some r) :
    ∃ r', (s.flagged b).exec l = some r' ∧ Plays flagged Called b r' r := by
  unfold goOn at hgo
  split at hgo
  · next side it hplace =>
    obtain ⟨hon, hl⟩ := Option.ite_none_left_eq_some.mp hgo
    obtain rfl := Option.some.inj hl
    simp only [SelectState.exec, hplace, Option.some.injEq] at he
    subst he
    exact ⟨_, by simp only [SelectState.exec, flagged, hplace], plays_handleOne b s (Bool.eq_false_iff.mpr hon)⟩
  · next side it sockfd ev hplace =>
    obtain rfl := Option.some.inj hgo
    rw [exec_called hdels hplace] at he
    obtain rfl := Option.some.inj he
    exact ⟨_, exec_called (s := s.flagged b) hdels hplace, plays_handleCalled b _ s⟩
  · next side it sockfd node hplace =>
    obtain rfl := Option.some.inj hgo
    rw [exec_cleaned hdels hplace] at he
    obtain rfl := Option.some.inj he
    exact ⟨_, exec_cleaned (s := s.flagged b) hdels hplace, .silent rfl rfl⟩
  · exact absurd hgo (by simp)

/-- Without a delete under way, the steps of the pass are those of the loop. -/
theorem dels_of_goOn (hdels : s.dels = []) (hgo : goOn s = some l) (he : s.exec l = some r) : r.2.dels = [] := by
  rcases exec_inv he with hs | hs
  · cases hs with
    | ret _ hframe => exact absurd (hdels.symm.trans hframe) (by simp)
    | _ =>
      unfold goOn at hgo
      split at hgo <;> simp at hgo
  · exact (loopStep_dels hs).trans hdels

/-- The flag that `mcl_event_loopexit` sets. -/
def exitFlag : ExitFlag selectMachine .loopexit goOn where
  flag := termFlag
  flagged := flagged
  flag_flagged _ _ := rfl
  flagged_flag _ := rfl
  user := Called
  exits _ hcalled := ⟨hcalled.2, if_pos hcalled.1⟩
  inv s := s.dels = []
  inv_step := dels_of_goOn
  plays := plays_exec

theorem goes_flagged (b : Bool) (hgo : goOn s = some l) : goes (s.flagged b) = some l := by
  change goes s = some l
  cases hplace : s.place with
  | scan side it =>
    simp only [goOn, hplace] at hgo
    simp only [goes, hplace]
    exact (Option.ite_none_left_eq_some.mp hgo).2
  | callback side it sockfd ev =>
    simp only [goOn, hplace] at hgo
    simpa only [goes, hplace] using hgo
  | cleanup side it sockfd node =>
    simp only [goOn, hplace] at hgo
    simpa only [goes, hplace] using hgo
  | _ => simp [goOn, hplace] at hgo

/-! A pass, and a round. -/

/-- A pass over a side, with a user that may ask for the end of the loop. -/
structure PassedBy (leaves : EventCall → Bool) (side : Side) (s t : SelectState) (calls : List EventCall) : Prop where
  sound : t.Sound
  dels : t.dels = []
  place : ∃ it, t.place = .scan side it ∧ it.isNull = true
  made : calls = (s.events side).flatMap (passCalls side (s.fds side))
  flag : t.termFlag = (s.termFlag || calls.any leaves)
  events : t.events side = (s.events side).filter fun ev => !dropped (s.fds side) ev
  others : ∀ x, x ≠ side → t.ht x = s.ht x ∧ t.fds x = s.fds x

theorem Sound.passedBy (h : s.Sound) (hdels : s.dels = []) (hside : side ≠ .expEvs) (leaves : EventCall → Bool)
    (last : Option Shown) (hlast : asks leaves last = false) :
    ∃ shows last' t, selectMachine.answered.Leads (playing leaves .loopexit goes) (last, (s.handleEvents side).2) shows
      (last', t) ∧ asks leaves last' = false ∧ PassedBy leaves side s t (shows.flatMap Shown.calls) := by
  obtain ⟨it, hplace, hmid⟩ := h.midway_head hdels side
  obtain ⟨shows, t, it', hleads, hcalls, hplace', hmid'⟩ := hmid.run hside hplace
  have hnull : it'.isNull = true := by
    cases hmid'.between.ahead with
    | done hnull => rw [Iter.isNull, hnull]; rfl
  have hstop : goOn t = none := by
    rw [goOn, hplace']
    exact if_pos hnull
  obtain ⟨us, last', hleads', hshows, hquiet⟩ :=
    exitFlag.leads goes (fun b => goes_flagged b) leaves hmid.dels hleads hstop last hlast
  have hterm : exitFlag.flag (s.handleEvents side).2 = s.termFlag := by
    change (s.handleEvents side).2.termFlag = s.termFlag
    unfold SelectState.handleEvents
    split <;> rfl
  rw [hterm] at hleads'
  refine ⟨us, last', _, hleads', hquiet, ?_⟩
  rw [hshows]
  have hpassed := hmid'.passed h hside hcalls
  exact ⟨hmid'.sound.of_eq rfl rfl (.refl _), hmid'.dels, ⟨it', hplace', hnull⟩, hcalls, rfl, hpassed.events,
    hmid'.others⟩

/-- The head of the loop, after a round or at its start. -/
structure Turned (s t : SelectState) (shown : Shown) : Prop where
  events : t.events = s.events
  flag : t.termFlag = s.termFlag
  dels : t.dels = s.dels
  place : t.place = if s.termFlag then .main else .poll
  shown : shown = if s.termFlag then .ret 1 else .nothing
  filled : t.place = .poll → t.SetsFilled

theorem Sound.turned (h : s.Sound) : Turned s s.loopHead.2 s.loopHead.1 := by
  have hfilled := h.filled_loopHead
  obtain ⟨s₁, hinit, -⟩ := h.initAll_spec
  obtain ⟨hht, heq⟩ := initAll_ht hinit
  unfold SelectState.loopHead at hfilled ⊢
  cases hterm : s.termFlag with
  | true =>
    rw [if_pos rfl]
    exact ⟨rfl, hterm.symm, rfl, by rw [hterm]; rfl, by rw [hterm]; rfl, fun hpoll => absurd hpoll (by simp)⟩
  | false =>
    rw [hterm, if_neg Bool.false_ne_true, hinit] at hfilled
    rw [if_neg Bool.false_ne_true, hinit]
    refine ⟨?_, ?_, ?_, by rw [hterm]; rfl, by rw [hterm]; rfl, hfilled⟩
    · funext x
      exact events_of_ht (congrFun hht x)
    · change s₁.termFlag = s.termFlag
      rw [heq]
    · change s₁.dels = s.dels
      rw [heq]

/-- The loop waits in `select`, after any run. -/
structure Polling (setsize : BitVec 32) (s : SelectState) : Prop where
  reach : ∃ hist, selectMachine.Reach (InSetsize setsize) hist s
  dels : s.dels = []
  place : s.place = .poll
  flag : s.termFlag = false
  filled : s.SetsFilled

variable {setsize : BitVec 32}

theorem Polling.sound (h : Polling setsize s) : s.Sound := by
  obtain ⟨hist, hr⟩ := h.reach
  exact sound_of_reach hr

theorem Sound.mem_keys_iff (h : s.Sound) : .int fd ∈ s.keys side ↔ ∃ ev ∈ s.events side, ev.sockfd = fd := by
  constructor
  · intro hfd
    obtain ⟨p, hp, hkey⟩ := List.mem_map.mp hfd
    obtain ⟨ev, hkey', hval, -, -⟩ := (h.tables side).of_mem_pairs hp
    refine ⟨ev, List.mem_filterMap.mpr ⟨p, hp, by rw [hval]; rfl⟩, HashKey.int.inj (hkey'.symm.trans hkey)⟩
  · rintro ⟨ev, hev, rfl⟩
    obtain ⟨i, p, hp, -, hkey, -⟩ := h.exists_pair hev
    exact List.mem_map.mpr ⟨p, (h.tables side).wf.mem_pairs.mpr ⟨i, hp⟩, hkey⟩

/-- What `select` may report of a side. -/
theorem Polling.fds_eq (h : Polling setsize s) (side : Side) :
    (s.db.evs side).fds.filter (·.slt (s.db.nMaxfdn + 1)) = (s.events side).toFinset.image (·.sockfd) := by
  obtain ⟨hist, hr⟩ := h.reach
  have hbounded := bounded_of_reach hr
  ext fd
  have hmem : fd ∈ (s.db.evs side).fds ↔ ∃ ev ∈ s.events side, ev.sockfd = fd :=
    (h.filled side fd).trans h.sound.mem_keys_iff
  rw [Finset.mem_filter, hmem, Finset.mem_image]
  simp only [List.mem_toFinset]
  refine and_iff_left_of_imp ?_
  rintro ⟨ev, hev, rfl⟩
  have hstored : ev ∈ s.storedEvents := by
    refine List.mem_flatMap.mpr ⟨side, ?_, hev⟩
    cases side <;> simp [Side.all]
  have hle := hbounded.stored ev hstored
  have hnonneg := hbounded.nonneg
  have hsmall := hbounded.small
  have hone : (1 : BitVec 32).toInt = 1 := by decide
  rw [BitVec.slt_iff_toInt_lt, BitVec.toInt_add, hone, Int.bmod_eq_of_le (by omega) (by omega)]
  omega

theorem Polling.possible_eq (h : Polling setsize s) (sets : Side → FdSet) :
    (PollResult.ready sets).possible s.db = s.registry.reportable sets := by
  unfold PollResult.possible Registry.reportable
  simp only [h.fds_eq]
  rfl

/-- The end of a pass leads to what follows it. -/
theorem PassedBy.returns {calls : List EventCall} (h : PassedBy leaves side s t calls) :
    goes t = some .handle ∧ selectMachine.step t .handle = some (t.handleReturn side) := by
  obtain ⟨it, hplace, hnull⟩ := h.place
  constructor
  · rw [goes, hplace]
  · simp only [selectMachine, SelectState.exec, hplace, handleOne, hnull, if_true]

/-- `exp_evs` is empty. -/
theorem Sound.passes_exp (h : s.Sound) : ∃ it, it.isNull = true ∧
    s.handleEvents .expEvs = (.nothing, { s with place := .scan .expEvs it }) := by
  obtain ⟨it, hhead, ha⟩ := (h.tables .expEvs).wf.iterHead_ahead Iter.initializer
  have hpairs : (s.ht .expEvs).pairs = [] := List.map_eq_nil_iff.mp h.keys_exp
  rw [hpairs] at ha
  refine ⟨it, ?_, ?_⟩
  · cases ha with
    | done hnull => rw [Iter.isNull, hnull]; rfl
  · unfold SelectState.handleEvents
    rw [hhead]

theorem handleEvents_nothing (h : s.Sound) (side : Side) :
    s.handleEvents side = (.nothing, (s.handleEvents side).2) := by
  obtain ⟨it, hhead, -⟩ := (h.tables side).wf.iterHead_ahead Iter.initializer
  unfold SelectState.handleEvents
  rw [hhead]

/-- A round that ends in `t`. -/
structure Rounds (setsize : BitVec 32) (leaves : EventCall → Bool) (s : SelectState) (poll : PollResult × Timeval)
    (ans : List EventCall × Option ℤ) (t : SelectState) : Prop where
  ends : ∃ n, ∀ fuel, n ≤ fuel → dispatchRound leaves fuel s poll = some (ans, t)
  reach : ∃ hist, selectMachine.Reach (InSetsize setsize) hist t

theorem playing_inSetsize {x : Option Shown × SelectState} (hl : playing leaves .loopexit goes x = some l) :
    x.2.InSetsize setsize l := by
  unfold playing at hl
  split at hl
  · obtain rfl := Option.some.inj hl
    trivial
  unfold goes at hl
  split at hl
  · obtain rfl := Option.some.inj hl
    trivial
  · obtain rfl := Option.some.inj hl
    trivial
  · obtain rfl := Option.some.inj hl
    trivial
  · exact absurd hl (by simp)

theorem Polling.rounds (h : Polling setsize s) (poll : PollResult × Timeval) {ans : List EventCall × Option ℤ}
    (hends : ∃ n, ∀ fuel, n ≤ fuel → dispatchRound leaves fuel s poll = some (ans, t)) :
    Rounds setsize leaves s poll ans t := by
  refine ⟨hends, ?_⟩
  obtain ⟨n, hround⟩ := hends
  obtain ⟨hist, hr⟩ := h.reach
  exact reach_of_loopRound hr (show InSetsize setsize s (.polled poll.1 poll.2) from trivial)
    (fun _ _ => playing_inSetsize) (hround n (Nat.le_refl n))

theorem goes_of_place (hplace : t.place = .main ∨ t.place = .poll) : goes t = none := by
  unfold goes
  rcases hplace with hplace | hplace <;> rw [hplace]

theorem Turned.stops {shown : Shown} (h : Turned s t shown) : goes t = none := by
  apply goes_of_place
  rw [h.place]
  split
  · exact .inl rfl
  · exact .inr rfl

theorem Turned.ret? {shown : Shown} (h : Turned s t shown) : shown.ret? = if s.termFlag then some 1 else none := by
  rw [h.shown]
  split <;> rfl

theorem Turned.calls {shown : Shown} (h : Turned s t shown) : shown.calls = [] := by
  rw [h.shown]
  split <;> rfl

/-- The round is over. -/
theorem Turned.playing_stops {shown : Shown} (h : Turned s t shown) (leaves : EventCall → Bool) :
    playing leaves .loopexit goes (some shown, t) = none :=
  (playing_of_quiet (asks_of_calls h.calls)).trans h.stops

theorem Turned.registry {shown : Shown} (h : Turned s t shown) :
    t.registry = ⟨fun side => (s.events side).toFinset, s.termFlag, !s.termFlag⟩ := by
  unfold SelectState.registry
  rw [h.events, h.flag, h.place]
  cases s.termFlag <;> rfl

theorem Turned.polling {shown : Shown} (h : Turned s t shown) (hdels : s.dels = [])
    (hreach : ∃ hist, selectMachine.Reach (InSetsize setsize) hist t) (hloops : t.registry.looping = true) :
    Polling setsize t := by
  have hplace : t.place = .poll := of_decide_eq_true hloops
  refine ⟨hreach, h.dels.trans hdels, hplace, ?_, h.filled hplace⟩
  have hpoll := h.place
  rw [hplace] at hpoll
  rw [h.flag]
  cases hterm : s.termFlag with
  | false => rfl
  | true =>
    rw [hterm] at hpoll
    exact absurd hpoll (by simp)

/-- The state in which `select` has returned. -/
def polledWith (sets : Side → FdSet) (left : Timeval) (s : SelectState) : SelectState :=
  setFds sets (if s.timed then { s with tval := left } else s)

theorem Sound.polledWith (h : s.Sound) (sets : Side → FdSet) (left : Timeval) : (s.polledWith sets left).Sound := by
  unfold SelectState.polledWith
  split
  · exact h.of_eq rfl rfl (.refl _)
  · exact h.of_eq rfl rfl (.refl _)

theorem polledWith_spec (sets : Side → FdSet) (left : Timeval) (s : SelectState) :
    (s.polledWith sets left).ht = s.ht ∧ (s.polledWith sets left).fds = sets ∧
      (s.polledWith sets left).dels = s.dels ∧ (s.polledWith sets left).termFlag = s.termFlag := by
  unfold SelectState.polledWith
  split <;> exact ⟨rfl, rfl, rfl, rfl⟩

theorem Polling.exec_polled (h : Polling setsize s) {r : PollResult} (hposs : r.possible s.db = true) (left : Timeval) :
    selectMachine.step s (.polled r left) = some (s.polled r left) :=
  if_pos ⟨h.place, hposs⟩

/-- What a round leaves, and what it has shown. -/
structure Answers (setsize : BitVec 32) (ans : List EventCall × Option ℤ) (t : SelectState) (turns : Turns)
    (reg : Registry) : Prop where
  allowed : turns.Allows ans
  registry : t.registry = reg
  polling : reg.looping = true → Polling setsize t

theorem asked_eq (sets : Side → FdSet) : s.registry.asked leaves sets =
    (((s.events .inEvs).flatMap (passCalls .inEvs (sets .inEvs))).any leaves ||
      ((s.events .outEvs).flatMap (passCalls .outEvs (sets .outEvs))).any leaves) := by
  have hside : ∀ side, decide (∃ ev ∈ s.registry.events side, (passCalls side (sets side) ev).any leaves = true) =
      ((s.events side).flatMap (passCalls side (sets side))).any leaves := by
    intro side
    rw [List.any_flatMap, Bool.eq_iff_iff, decide_eq_true_iff, List.any_eq_true]
    simp only [registry, List.mem_toFinset]
  simp only [Registry.asked, List.any_cons, List.any_nil, Bool.or_false, hside]

theorem Polling.timeout (h : Polling setsize s) (leaves : EventCall → Bool) (left : Timeval) :
    ∃ ans t, Rounds setsize leaves s (.timeout, left) ans t ∧ Answers setsize ans t ⟨0, 0, none⟩ s.registry := by
  obtain ⟨hht, -, hdels, hflag⟩ := polledWith_spec (fun _ => ∅) left s
  have hterm : (s.polledWith (fun _ => ∅) left).termFlag = false := hflag.trans h.flag
  have hturned := (h.sound.polledWith (fun _ => ∅) left).turned
  have he : selectMachine.step s (.polled .timeout left) = some (s.polledWith (fun _ => ∅) left).loopHead :=
    h.exec_polled rfl left
  generalize (s.polledWith (fun _ => ∅) left).loopHead = r at hturned he
  have hrounds := h.rounds (.timeout, left) (loopRound_of_stop _ he (hturned.playing_stops leaves))
  have hregistry : r.2.registry = s.registry := by
    rw [hturned.registry, hterm, registry, h.place, h.flag]
    congr 1
    funext x
    exact congrArg List.toFinset (events_of_ht (congrFun hht x))
  refine ⟨_, _, hrounds, ⟨⟨[], [], rfl, rfl, hturned.calls⟩, ?_⟩, hregistry, fun hloops => ?_⟩
  · rw [hturned.ret?, hterm]
    rfl
  · rw [← hregistry] at hloops
    exact hturned.polling (hdels.trans h.dels) hrounds.reach hloops

theorem Polling.error (h : Polling setsize s) (leaves : EventCall → Bool) (left : Timeval) :
    ∃ ans t, Rounds setsize leaves s (.error, left) ans t ∧
      Answers setsize ans t ⟨0, 0, some 0⟩ { s.registry with looping := false } := by
  have he : selectMachine.step s (.polled .error left) = some (s.polled .error left) := h.exec_polled rfl left
  have hstop : playing leaves .loopexit goes (some (.ret 0), (s.polled .error left).2) = none :=
    (playing_of_quiet rfl).trans (goes_of_place (.inl rfl))
  have hregistry : (s.polled .error left).2.registry = { s.registry with looping := false } := by
    unfold SelectState.polled
    split <;> rfl
  exact ⟨_, _, h.rounds (.error, left) (loopRound_of_stop _ he hstop), ⟨⟨[], [], rfl, rfl, rfl⟩, rfl⟩,
    hregistry, fun hloops => absurd hloops Bool.false_ne_true⟩

theorem Sound.events_exp (h : s.Sound) : s.events .expEvs = [] := by
  have hpairs : (s.ht .expEvs).pairs = [] := List.map_eq_nil_iff.mp h.keys_exp
  rw [events, hpairs]
  rfl

/-- The two passes together. -/
theorem PassedBy.both {reads writes : List EventCall} (h : PassedBy leaves .inEvs s t reads)
    (h' : PassedBy leaves .outEvs t u writes) (hsound : s.Sound) :
    writes = (s.events .outEvs).flatMap (passCalls .outEvs (s.fds .outEvs)) ∧
      u.termFlag = (s.termFlag || (reads.any leaves || writes.any leaves)) ∧
      ∀ x, u.events x = (s.events x).filter fun ev => !dropped (s.fds x) ev := by
  obtain ⟨hht, hfds⟩ := h.others .outEvs (by decide)
  have hout : t.events .outEvs = s.events .outEvs := events_of_ht hht
  refine ⟨by rw [h'.made, hout, hfds], by rw [h'.flag, h.flag, Bool.or_assoc], fun x => ?_⟩
  cases x with
  | inEvs => rw [events_of_ht (h'.others .inEvs (by decide)).1, h.events]
  | outEvs => rw [h'.events, hout, hfds]
  | expEvs => rw [h'.sound.events_exp, hsound.events_exp, List.filter_nil]

/-- The pass over `exp_evs`, which is empty, and the head of the loop. -/
theorem PassedBy.last {calls : List EventCall} (h : PassedBy leaves .outEvs s t calls) :
    ∃ u, selectMachine.step t .handle = some (.nothing, u) ∧ goes u = some .handle ∧
      selectMachine.step u .handle = some u.loopHead ∧ Turned t u.loopHead.2 u.loopHead.1 := by
  obtain ⟨-, hret⟩ := h.returns
  obtain ⟨it, hnull, hexp⟩ := h.sound.passes_exp
  have hret' : selectMachine.step { t with place := .scan .expEvs it } .handle =
      some { t with place := .scan .expEvs it }.loopHead := by
    simp only [selectMachine, SelectState.exec, handleOne, hnull, if_true]
    rfl
  have hsound : { t with place := .scan .expEvs it }.Sound := h.sound.atPlace rfl
  have hturned := hsound.turned
  exact ⟨_, hret.trans (congrArg some hexp), rfl, hret', hturned.events, hturned.flag, hturned.dels, hturned.place,
    hturned.shown, hturned.filled⟩

theorem turns_eq (sets : Side → FdSet) (side : Side) (h : s.Sound) :
    (((s.events side).map (passCalls side (sets side)) : List Turn) : Multiset Turn) = s.registry.turns sets side := by
  rw [Registry.turns, registry, List.toFinset_val, (h.nodup_events side).dedup]
  rfl

/-- A round in which something is ready. -/
theorem Polling.ready (h : Polling setsize s) (leaves : EventCall → Bool) {sets : Side → FdSet}
    (hposs : s.registry.reportable sets = true) (left : Timeval) :
    ∃ ans t, Rounds setsize leaves s (.ready sets, left) ans t ∧
      Answers setsize ans t
        ⟨s.registry.turns sets .inEvs, s.registry.turns sets .outEvs,
          if s.registry.asked leaves sets then some 1 else none⟩
        ⟨fun side => (s.registry.events side).filter fun ev => dropped (sets side) ev = false,
          s.registry.asked leaves sets, !s.registry.asked leaves sets⟩ := by
  obtain ⟨hht, hfds, hdels, hflag⟩ := polledWith_spec sets left s
  have hevents : (s.polledWith sets left).events = s.events := funext fun x => events_of_ht (congrFun hht x)
  have he : selectMachine.step s (.polled (.ready sets) left) =
      some ((s.polledWith sets left).handleEvents .inEvs) :=
    h.exec_polled ((h.possible_eq sets).trans hposs) left
  have hsound := h.sound.polledWith sets left
  rw [handleEvents_nothing hsound] at he
  obtain ⟨shows₁, last₁, t₁, hleads₁, hquiet₁, hpass₁⟩ := hsound.passedBy (hdels.trans h.dels)
    (by decide : Side.inEvs ≠ .expEvs) leaves (some .nothing) rfl
  obtain ⟨hgo₁, hret₁⟩ := hpass₁.returns
  have hsecond : selectMachine.step t₁ .handle = some (.nothing, (t₁.handleEvents .outEvs).2) :=
    hret₁.trans (congrArg some (handleEvents_nothing hpass₁.sound .outEvs))
  obtain ⟨shows₂, last₂, t₂, hleads₂, hquiet₂, hpass₂⟩ := hpass₁.sound.passedBy hpass₁.dels
    (by decide : Side.outEvs ≠ .expEvs) leaves (some .nothing) rfl
  obtain ⟨u, hthird, hgo₃, hhead, hturned⟩ := hpass₂.last
  generalize u.loopHead = r at hhead hturned
  obtain ⟨hwrites, hterm, hleft⟩ := hpass₁.both hpass₂ hsound
  have hreads := hpass₁.made
  rw [hevents, hfds] at hreads hwrites
  have hasked : t₂.termFlag = s.registry.asked leaves sets := by
    rw [hterm, hflag, h.flag, Bool.false_or, hreads, hwrites, asked_eq]
  have hstep₁ : selectMachine.answered.step (last₁, t₁) .handle =
      some (.nothing, (some .nothing, (t₁.handleEvents .outEvs).2)) := Machine.answered_step.mpr ⟨hsecond, rfl⟩
  have hstep₂ : selectMachine.answered.step (last₂, t₂) .handle = some (.nothing, (some .nothing, u)) :=
    Machine.answered_step.mpr ⟨hthird, rfl⟩
  have hleads := hleads₁.trans (.head ((playing_of_quiet hquiet₁).trans hgo₁) hstep₁
    (hleads₂.trans (.step ((playing_of_quiet hquiet₂).trans hpass₂.returns.1) hstep₂)))
  have hrounds := h.rounds (.ready sets, left)
    (loopRound_of_leads he hleads ((playing_of_quiet rfl).trans hgo₃) hhead (hturned.playing_stops leaves))
  have hregistry : r.2.registry = ⟨fun side => (s.registry.events side).filter fun ev => dropped (sets side) ev = false,
      s.registry.asked leaves sets, !s.registry.asked leaves sets⟩ := by
    rw [hturned.registry, hasked]
    congr 1
    funext x
    ext ev
    simp [hleft, hevents, hfds, registry]
  refine ⟨_, _, hrounds, ⟨⟨_, _, turns_eq sets .inEvs h.sound, turns_eq sets .outEvs h.sound, ?_⟩, ?_⟩, hregistry,
    fun hloops => ?_⟩
  · rw [← List.flatMap_def, ← List.flatMap_def, ← hreads, ← hwrites]
    have hnothing : Shown.nothing.calls = [] := rfl
    simp only [List.flatMap_cons, List.flatMap_append, List.flatMap_nil, hnothing, hturned.calls, List.nil_append,
      List.append_nil]
  · rw [← hasked]
    exact hturned.ret?
  · refine hturned.polling hpass₂.dels hrounds.reach ?_
    rw [hregistry]
    exact hloops

theorem Polling.round (h : Polling setsize s) (leaves : EventCall → Bool) (poll : PollResult × Timeval) {turns : Turns}
    {reg : Registry} (hround : s.registry.round leaves poll.1 = some (turns, reg)) :
    ∃ ans t, Rounds setsize leaves s poll ans t ∧ Answers setsize ans t turns reg := by
  obtain ⟨r, left⟩ := poll
  have hloops : s.registry.looping = true := decide_eq_true h.place
  have hexits : s.registry.exits = false := h.flag
  cases r with
  | ready sets =>
    obtain ⟨⟨-, hposs⟩, heq⟩ := Option.ite_none_right_eq_some.mp hround
    obtain ⟨rfl, rfl⟩ := Prod.mk.inj (Option.some.inj heq)
    simp only [hexits, Bool.false_or]
    exact h.ready leaves hposs left
  | timeout =>
    obtain ⟨-, heq⟩ := Option.ite_none_right_eq_some.mp hround
    obtain ⟨rfl, rfl⟩ := Prod.mk.inj (Option.some.inj heq)
    exact h.timeout leaves left
  | error =>
    obtain ⟨-, heq⟩ := Option.ite_none_right_eq_some.mp hround
    obtain ⟨rfl, rfl⟩ := Prod.mk.inj (Option.some.inj heq)
    exact h.error leaves left

theorem looping_of_round {reg reg' : Registry} {r : PollResult} {turns : Turns}
    (hround : reg.round leaves r = some (turns, reg')) : reg.looping = true := by
  cases r with
  | ready sets => exact (Option.ite_none_right_eq_some.mp hround).1.1
  | timeout => exact (Option.ite_none_right_eq_some.mp hround).1
  | error => exact (Option.ite_none_right_eq_some.mp hround).1

/-- Any number of rounds. -/
theorem dispatch_rounds (leaves : EventCall → Bool) (tval : Option Timeval) (s₀ : SelectState)
    (h : s.registry.looping = true → Polling setsize s) (polls : List (PollResult × Timeval))
    {rounds : List (PollResult × Turns)} {reg : Registry}
    (hrun : (registryMachine leaves s₀.registry).runFrom s.registry (polls.map Prod.fst) = some (rounds, reg)) :
    ∃ hist t n, (∀ fuel, n ≤ fuel → (dispatchMachine leaves fuel tval s₀).runFrom s polls = some (hist, t)) ∧
      List.Forall₂ Turns.Allows (rounds.map Prod.snd) (hist.map Prod.snd) ∧ t.registry = reg := by
  obtain ⟨hist, t, n, hn, hallowed, hregistry, -⟩ := Machine.runFrom_fuelled
    (fun fuel => dispatchMachine leaves fuel tval s₀) Prod.fst id
    (fun reg t => t.registry = reg ∧ (reg.looping = true → Polling setsize t)) Turns.Allows
    (fun reg t poll turns reg' hR hround => by
      obtain ⟨rfl, hpolling⟩ := hR
      obtain ⟨ans, t', hends, hans⟩ := (hpolling (looping_of_round hround)).round leaves poll hround
      obtain ⟨n, hn⟩ := hends.ends
      exact ⟨ans, t', n, hn, hans.allowed, hans.registry, hans.polling⟩)
    ⟨rfl, h⟩ hrun
  rw [List.map_id] at hn
  exact ⟨hist, t, n, hn, hallowed, hregistry⟩

/-- The loop is entered. -/
theorem entered {hist : List (SelectStep × Shown)} (hr : selectMachine.Reach (InSetsize setsize) hist s)
    (hmain : s.place = .main) (hdels : s.dels = []) (tval : Option Timeval) :
    s.exec (.loop tval) = some (if s.termFlag then .ret 1 else .nothing, (s.loop tval).2) ∧
      (s.loop tval).2.registry = s.registry.enter ∧
      ((s.loop tval).2.registry.looping = true → Polling setsize (s.loop tval).2) := by
  have hsound : { s with tval := tval.getD s.tval, timed := tval.isSome }.Sound :=
    (sound_of_reach hr).of_eq rfl rfl (.refl _)
  have hturned : Turned s (s.loop tval).2 (s.loop tval).1 := by
    have h := hsound.turned
    exact ⟨h.events, h.flag, h.dels, h.place, h.shown, h.filled⟩
  have hexec : s.exec (.loop tval) = some ((s.loop tval).1, (s.loop tval).2) := if_pos ⟨hmain, hdels⟩
  have hreach : ∃ hist, selectMachine.Reach (InSetsize setsize) hist (s.loop tval).2 :=
    ⟨_, .step hr (show InSetsize setsize s (.loop tval) from trivial) hexec⟩
  refine ⟨hturned.shown ▸ hexec, ?_, fun hloops => hturned.polling hdels hreach hloops⟩
  rw [hturned.registry]
  rfl

/-- From any state outside the loop that any run has led to: with callbacks that return at once, some of them after
`mcl_event_loopexit`, the loop goes through the polls and makes the calls of the registry's loop. -/
theorem select_dispatches {hist : List (SelectStep × Shown)} (hr : selectMachine.Reach (InSetsize setsize) hist s)
    (hmain : s.place = .main) (hdels : s.dels = []) (leaves : EventCall → Bool) (tval : Option Timeval)
    (polls : List (PollResult × Timeval)) {rounds : List (PollResult × Turns)} {reg : Registry}
    (hrun : (registryMachine leaves s.registry).run (polls.map Prod.fst) = some (rounds, reg)) :
    s.exec (.loop tval) = some (if s.termFlag then .ret 1 else .nothing, (s.loop tval).2) ∧
      ∃ hist t n, (∀ fuel, n ≤ fuel → (dispatchMachine leaves fuel tval s).run polls = some (hist, t)) ∧
        List.Forall₂ Turns.Allows (rounds.map Prod.snd) (hist.map Prod.snd) ∧ t.registry = reg := by
  obtain ⟨hexec, henter, hpolling⟩ := entered hr hmain hdels tval
  refine ⟨hexec, dispatch_rounds leaves tval s hpolling polls ?_⟩
  rw [henter]
  exact hrun

theorem rets_of_allowed {turns : List Turns} {answers : List (List EventCall × Option ℤ)}
    (h : List.Forall₂ Turns.Allows turns answers) : answers.map (·.2) = turns.map (·.ret) := by
  induction h with
  | nil => rfl
  | cons hallow _ ih => rw [List.map_cons, List.map_cons, hallow.2, ih]

/-- A timeout, a round in which one event goes, and one in which a callback asks for the end. -/
theorem select_dispatches_exit : ∃ (s : SelectState) (hist : List ((PollResult × Timeval) × List EventCall × Option ℤ))
    (t : SelectState) (n : ℕ),
    (∀ fuel, n ≤ fuel → (dispatchMachine (fun c => c.cb == 9) fuel none s).run
      [(.timeout, ⟨0, 0⟩), (readable {3, 4}, ⟨0, 0⟩), (readable {3, 5}, ⟨0, 0⟩)] = some (hist, t)) ∧
      hist.map (·.2.2) = [none, none, some 1] ∧ (t.registry.events .inEvs).image (·.sockfd) = {3, 5} := by
  obtain ⟨hist, s, hr, hmain, hdels, habstract⟩ := selectMachine.exists_of_restrict
    (fun s l => decide (s.InSetsize 1024 l))
    [.add (readEvent 1 3), .add { readEvent 2 4 with evType := mclEvRead, cleanupCb := some 8 },
      .add { readEvent 3 5 with callback := some 9 }]
    (fun r => r.2.place = .main ∧ r.2.dels = [] ∧
      (((registryMachine (fun c => c.cb == 9) r.2.registry).run [.timeout, readable {3, 4}, readable {3, 5}]).any fun x =>
        decide (x.1.map (·.2.ret) = [none, none, some 1] ∧ (x.2.events .inEvs).image (·.sockfd) = {3, 5})) = true)
    (by decide +kernel)
  have hr' : selectMachine.Reach (InSetsize 1024) hist s := hr.mono fun s l hok => of_decide_eq_true hok
  obtain ⟨⟨rounds, reg⟩, hrun, hshows⟩ := (Option.any_eq_true _ _).mp habstract
  obtain ⟨hrets, hfds⟩ := of_decide_eq_true hshows
  obtain ⟨-, hist', t, n, hruns, hallowed, rfl⟩ := select_dispatches hr' hmain hdels (fun c => c.cb == 9) none
    [(.timeout, ⟨0, 0⟩), (readable {3, 4}, ⟨0, 0⟩), (readable {3, 5}, ⟨0, 0⟩)] hrun
  refine ⟨s, hist', t, n, hruns, ?_, hfds⟩
  have hmap := rets_of_allowed hallowed
  rw [List.map_map, List.map_map] at hmap
  exact hmap.trans hrets

end SelectState
end Mcl
