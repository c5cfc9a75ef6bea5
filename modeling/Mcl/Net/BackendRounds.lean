import Mcl.Net.KqueueRounds
import Mcl.Net.SelectDispatch

/-! The loops of the two backends, side by side. -/
namespace Mcl
open Mcl.Library
open Kqueue (KqState Kevent Watch watchMachine evfiltRead firedOnce)

/-- How a wait ends: events are ready for reading, or none is, or there is an error. -/
abbrev Wait := Option (List MclEvent)

/-- The descriptors that `select` reports. -/
def readySets (evs : List MclEvent) (side : Side) : FdSet := if side = .inEvs then (evs.map (·.sockfd)).toFinset else ∅

namespace Wait

/-- What `select` reports. -/
def poll : Wait → PollResult
  | none => .error
  | some [] => .timeout
  | some (ev :: evs) => .ready (readySets (ev :: evs))

def readEntry (ev : MclEvent) : Kevent := ⟨ev.sockfd, evfiltRead, false, some ev⟩

/-- What `kevent` reports. -/
def batch (wait : Wait) : Option (List Kevent) := wait.map (·.map readEntry)

end Wait

/-- An event that is called for once has no cleanup callback, which one backend calls twice. -/
def Bare (ev : MclEvent) : Prop := ev.evType &&& mclEvPersist = 0 → ev.cleanupCb = none

instance : DecidablePred Bare := fun ev =>
  inferInstanceAs (Decidable (ev.evType &&& mclEvPersist = 0 → ev.cleanupCb = none))

/-- The two backends hold the same events, all of them for reading. -/
structure Alike (reg : Registry) (w : Watch) : Prop where
  reads : reg.events .inEvs = w.events
  writes : reg.events .outEvs = ∅
  exits : reg.exits = w.exits
  looping : reg.looping = w.looping
  loops : w.looping = true → w.exits = false
  distinct : ∀ ev ∈ w.events, ∀ e ∈ w.events, ev.sockfd = e.sockfd → ev = e
  bare : ∀ ev ∈ w.events, Bare ev

variable {reg : Registry} {w w' : Watch} {leaves : EventCall → Bool} {ev : MclEvent} {evs : List MclEvent}
  {ans : List EventCall × Option ℤ}

theorem firedOnce_readEntry (evs : List MclEvent) :
    firedOnce (evs.map Wait.readEntry) = evs.filter fun ev => ev.evType &&& mclEvPersist = 0 := by
  rw [firedOnce, List.filterMap_map]
  congr 1
  exact List.filterMap_some

/-- The one call for an event that is ready. -/
theorem turn_readEntry (hbare : Bare ev) : (Wait.readEntry ev).turn = (handlerCall .inEvs ev).toList := by
  have htype : (Wait.readEntry ev).evType = mclEvRead := by
    have hread : evfiltRead &&& evfiltRead ≠ 0 := by decide
    simp only [Kevent.evType, Wait.readEntry, Bool.false_eq_true, if_false]
    exact if_pos hread
  have hcall : (Wait.readEntry ev).callAs Kevent.evType = handlerCall .inEvs ev := by
    simp only [Kevent.callAs, htype]
    rfl
  have hgone : (firedOnce [Wait.readEntry ev]).flatMap
      (fun ev => ev.cleanupCall.toList ++ ev.cleanupCall.toList) = [] := by
    rw [KqState.flatMap_firedOnce_single rfl]
    split
    · next honce =>
      rw [MclEvent.cleanupCall, hbare honce]
      rfl
    · rfl
  rw [Kevent.turn, hcall, hgone, List.append_nil]

theorem passCalls_ready {fds : FdSet} (hbare : Bare ev) (hfd : ev.sockfd ∈ fds) :
    passCalls .inEvs fds ev = (handlerCall .inEvs ev).toList := by
  have hset : fdIsset ev.sockfd fds = true := decide_eq_true hfd
  rw [passCalls, hset, if_pos rfl]
  split
  · next hdropped =>
    rw [dropped, Bool.and_eq_true, decide_eq_true_iff] at hdropped
    rw [eventHtFreeCall, MclEvent.cleanupCall, hbare hdropped.2]
    exact List.append_nil _
  · exact List.append_nil _

theorem passCalls_not_ready {fds : FdSet} (hfd : ev.sockfd ∉ fds) : passCalls .inEvs fds ev = [] := by
  have hset : fdIsset ev.sockfd fds = false := decide_eq_false hfd
  rw [passCalls, dropped, hset, Bool.false_and, if_neg Bool.false_ne_true, if_neg Bool.false_ne_true]
  rfl

/-- The calls of a round over one set of events, in any order of the events, are those of the batch. -/
theorem turns_perm {E : Finset MclEvent} {turns : List Turn} (hnodup : evs.Nodup) (hsub : ∀ ev ∈ evs, ev ∈ E)
    (hdistinct : ∀ ev ∈ E, ∀ e ∈ E, ev.sockfd = e.sockfd → ev = e) (hbare : ∀ ev ∈ E, Bare ev)
    (hturns : (turns : Multiset Turn) = E.val.map (passCalls .inEvs (evs.map (·.sockfd)).toFinset)) :
    turns.flatten.Perm ((evs.map Wait.readEntry).flatMap Kevent.turn) := by
  obtain ⟨rest, hrest⟩ : ∃ rest : List MclEvent, E.val = ((evs ++ rest : List MclEvent) : Multiset MclEvent) := by
    have hle : (evs : Multiset MclEvent) ≤ E.val :=
      (Multiset.le_iff_subset (Multiset.coe_nodup.mpr hnodup)).mpr fun ev hev => hsub ev (Multiset.mem_coe.mp hev)
    obtain ⟨m, hm⟩ := Multiset.le_iff_exists_add.mp hle
    obtain ⟨rest, rfl⟩ := Quotient.exists_rep m
    exact ⟨rest, hm⟩
  have hmem : ∀ ev ∈ evs ++ rest, ev ∈ E := by
    intro ev hev
    rw [← Finset.mem_val, hrest]
    exact Multiset.mem_coe.mpr hev
  have hdisjoint : ∀ ev ∈ rest, ev ∉ evs := by
    have hnd := E.nodup
    rw [hrest, Multiset.coe_nodup, List.nodup_append] at hnd
    exact fun ev hev hc => hnd.2.2 ev hc ev hev rfl
  have hready : ∀ ev ∈ evs, passCalls .inEvs (evs.map (·.sockfd)).toFinset ev = (Wait.readEntry ev).turn := by
    intro ev hev
    have hb := hbare ev (hsub ev hev)
    rw [passCalls_ready hb (List.mem_toFinset.mpr (List.mem_map_of_mem hev)), turn_readEntry hb]
  have hothers : ∀ ev ∈ rest, passCalls .inEvs (evs.map (·.sockfd)).toFinset ev = [] := by
    intro ev hev
    apply passCalls_not_ready
    intro hc
    obtain ⟨e, he, hfd⟩ := List.mem_map.mp (List.mem_toFinset.mp hc)
    have heq := hdistinct e (hsub e he) ev (hmem ev (List.mem_append_right _ hev)) hfd
    exact hdisjoint ev hev (heq ▸ he)
  have hpass : (evs.flatMap (passCalls .inEvs (evs.map (·.sockfd)).toFinset)) =
      (evs.map Wait.readEntry).flatMap Kevent.turn := by
    rw [List.flatMap_map]
    exact List.flatMap_congr hready
  have hsilent : rest.flatMap (passCalls .inEvs (evs.map (·.sockfd)).toFinset) = [] :=
    List.flatMap_eq_nil_iff.mpr hothers
  rw [hrest, Multiset.map_coe, Multiset.coe_eq_coe] at hturns
  have hflat := hturns.flatten
  rwa [← List.flatMap_def, List.flatMap_append, hsilent, List.append_nil, hpass] at hflat

/-- The events that a batch is about. -/
structure ReadyIn (E : Finset MclEvent) (evs : List MclEvent) : Prop where
  nodup : evs.Nodup
  sub : ∀ ev ∈ evs, ev ∈ E

theorem readyIn_of_reports (h : w.Reports (evs.map Wait.readEntry)) : ReadyIn w.events evs := by
  obtain ⟨-, hlive, hdistinct⟩ := h
  constructor
  · rw [List.map_map] at hdistinct
    exact hdistinct.of_map _
  · intro ev hev
    obtain ⟨e, he, hudata⟩ := hlive _ (List.mem_map_of_mem hev)
    obtain rfl : ev = e := Option.some.inj hudata
    exact he

namespace Alike

theorem reportable (h : Alike reg w) (hready : ReadyIn w.events evs) (hne : evs ≠ []) :
    reg.reportable (readySets evs) = true := by
  have hin : readySets evs .inEvs ⊆ (reg.events .inEvs).image (·.sockfd) := by
    intro fd hfd
    obtain ⟨ev, hev, rfl⟩ := List.mem_map.mp (List.mem_toFinset.mp hfd)
    rw [h.reads]
    exact Finset.mem_image_of_mem _ (hready.sub ev hev)
  have hsome : readySets evs .inEvs ≠ ∅ := by
    obtain ⟨ev, evs, rfl⟩ := List.exists_cons_of_ne_nil hne
    exact Finset.ne_empty_of_mem (List.mem_toFinset.mpr List.mem_cons_self)
  rw [Registry.reportable, Bool.and_eq_true]
  constructor
  · rw [List.all_eq_true]
    intro side _
    rw [decide_eq_true_iff]
    cases side with
    | inEvs => exact hin
    | outEvs => exact Finset.empty_subset _
    | expEvs => exact Finset.empty_subset _
  · exact List.any_eq_true.mpr ⟨.inEvs, List.mem_cons_self, decide_eq_true hsome⟩

/-- The calls of a round, in any order, ask for the end just if those of the batch do. -/
theorem asked (h : Alike reg w) (hready : ReadyIn w.events evs) :
    reg.asked leaves (readySets evs) = ((evs.map Wait.readEntry).flatMap Kevent.turn).any leaves := by
  have hperm : (w.events.toList.map (passCalls .inEvs (evs.map (·.sockfd)).toFinset)).flatten.Perm
      ((evs.map Wait.readEntry).flatMap Kevent.turn) := by
    apply turns_perm hready.nodup hready.sub h.distinct h.bare
    rw [← Multiset.map_coe, Finset.coe_toList]
  rw [← hperm.any_eq, List.any_flatten, Bool.eq_iff_iff, Registry.asked]
  simp only [List.any_cons, List.any_nil, Bool.or_false, h.reads, h.writes, Finset.notMem_empty, false_and,
    exists_false, decide_false, decide_eq_true_iff, List.any_map, List.any_eq_true, Finset.mem_toList,
    Function.comp_apply]
  rfl

/-- What stays. -/
theorem left (h : Alike reg w) (hready : ReadyIn w.events evs) :
    (reg.events .inEvs).filter (fun ev => dropped (readySets evs .inEvs) ev = false) =
      w.events.filter (· ∉ firedOnce (evs.map Wait.readEntry)) := by
  rw [h.reads]
  apply Finset.filter_congr
  intro ev hev
  have hfd : ev.sockfd ∈ readySets evs .inEvs ↔ ev ∈ evs := by
    constructor
    · intro hc
      obtain ⟨e, he, hfd⟩ := List.mem_map.mp (List.mem_toFinset.mp hc)
      exact h.distinct e (hready.sub e he) ev hev hfd ▸ he
    · exact fun hc => List.mem_toFinset.mpr (List.mem_map_of_mem hc)
  rw [firedOnce_readEntry, List.mem_filter, ← Bool.not_eq_true, dropped, Bool.and_eq_true, fdIsset, decide_eq_true_iff,
    hfd]

theorem eq_nil_of_orders {ret : Option ℤ} {calls : List EventCall} (h : Turns.Orders ⟨0, 0, ret⟩ calls) :
    calls = [] := by
  obtain ⟨reads, writes, hreads, hwrites, rfl⟩ := h
  rw [(Multiset.coe_eq_zero reads).mp hreads, (Multiset.coe_eq_zero writes).mp hwrites]
  rfl

/-- A round in which something is ready. -/
theorem ready (h : Alike reg w) (hloops : w.looping = true) (hready : ReadyIn w.events evs) (hne : evs ≠ []) :
    let calls := (evs.map Wait.readEntry).flatMap Kevent.turn
    let exits := w.exits || calls.any leaves
    ∃ turns reg', reg.round leaves (.ready (readySets evs)) = some (turns, reg') ∧
      Alike reg' { w with
        events := w.events.filter (· ∉ firedOnce (evs.map Wait.readEntry)), exits := exits, looping := !exits } ∧
      turns.ret = (if exits then some 1 else none) ∧ ∀ calls', turns.Orders calls' → calls'.Perm calls := by
  intro calls exits
  have hasked : (reg.exits || reg.asked leaves (readySets evs)) = exits := by rw [h.asked hready, h.exits]
  refine ⟨⟨reg.turns (readySets evs) .inEvs, reg.turns (readySets evs) .outEvs,
      if reg.exits || reg.asked leaves (readySets evs) then some 1 else none⟩,
    ⟨fun side => (reg.events side).filter fun ev => dropped (readySets evs side) ev = false,
      reg.exits || reg.asked leaves (readySets evs), !(reg.exits || reg.asked leaves (readySets evs))⟩,
    if_pos ⟨h.looping.trans hloops, h.reportable hready hne⟩, ?_, ?_, ?_⟩
  · rw [hasked]
    refine ⟨h.left hready, ?_, rfl, rfl, fun hc => ?_, fun e he e' he' => ?_, fun e he => ?_⟩
    · dsimp only
      rw [h.writes, Finset.filter_empty]
    · exact Bool.not_eq_true' _ |>.mp hc
    · exact h.distinct e (Finset.mem_of_mem_filter e he) e' (Finset.mem_of_mem_filter e' he')
    · exact h.bare e (Finset.mem_of_mem_filter e he)
  · rw [hasked]
  · rintro calls' ⟨reads, writes, hreads, hwrites, rfl⟩
    have hturns : reg.turns (readySets evs) .outEvs = 0 := by
      rw [Registry.turns, h.writes]
      rfl
    rw [Registry.turns, h.reads] at hreads
    rw [(Multiset.coe_eq_zero writes).mp (hwrites.trans hturns), List.flatten_nil, List.append_nil]
    exact turns_perm hready.nodup hready.sub h.distinct h.bare hreads

/-- A round of the two loops. -/
theorem round (h : Alike reg w) (wait : Wait) (hround : w.round leaves wait.batch = some (ans, w')) :
    ∃ turns reg', reg.round leaves wait.poll = some (turns, reg') ∧ Alike reg' w' ∧ turns.ret = ans.2 ∧
      ∀ calls, turns.Orders calls → calls.Perm ans.1 := by
  cases wait with
  | none =>
    obtain ⟨hloops, heq⟩ := Option.ite_none_right_eq_some.mp hround
    obtain ⟨rfl, rfl⟩ := Prod.mk.inj (Option.some.inj heq)
    refine ⟨⟨0, 0, some 0⟩, { reg with looping := false }, if_pos (h.looping.trans hloops),
      ⟨h.reads, h.writes, h.exits, rfl, fun hc => absurd hc Bool.false_ne_true, h.distinct, h.bare⟩, rfl, ?_⟩
    intro calls horders
    rw [eq_nil_of_orders horders]
  | some evs =>
    obtain ⟨⟨hloops, hreports⟩, heq⟩ := Option.ite_none_right_eq_some.mp hround
    obtain ⟨rfl, rfl⟩ := Prod.mk.inj (Option.some.inj heq)
    have hexits := h.loops hloops
    have hready := readyIn_of_reports hreports
    cases evs with
    | nil =>
      have hsame : { w with
          events := w.events.filter (· ∉ firedOnce [])
          exits := w.exits || false
          looping := !(w.exits || false) } = w := by
        cases w
        simp_all [firedOnce]
      refine ⟨⟨0, 0, none⟩, reg, if_pos (h.looping.trans hloops), ?_, ?_, ?_⟩
      · change Alike reg { w with
          events := w.events.filter (· ∉ firedOnce []), exits := w.exits || false, looping := !(w.exits || false) }
        rw [hsame]
        exact h
      · simp [hexits]
      · intro calls horders
        rw [eq_nil_of_orders horders]
        exact .refl _
    | cons ev evs => exact h.ready hloops hready (List.cons_ne_nil ev evs)

theorem enter (h : Alike reg w) (tval : Option Timeval) : Alike reg.enter (w.enter tval) := by
  refine ⟨h.reads, h.writes, h.exits, congrArg not h.exits, fun hc => ?_, h.distinct, h.bare⟩
  exact Bool.not_eq_true' _ |>.mp hc

/-- What a round over the registry allows is what the batch shows, but for the order. -/
def Shows (turns : Turns) (ans : List EventCall × Option ℤ) : Prop :=
  turns.ret = ans.2 ∧ ∀ calls, turns.Orders calls → calls.Perm ans.1

/-- Any number of rounds. -/
theorem rounds (h : Alike reg w) (reg₀ : Registry) {w₀ : Watch} {tval : Option Timeval} (waits : List Wait)
    {hist : List (Option (List Kevent) × List EventCall × Option ℤ)}
    (hrun : (watchMachine leaves tval w₀).runFrom w (waits.map Wait.batch) = some (hist, w')) :
    ∃ rounds reg', (registryMachine leaves reg₀).runFrom reg (waits.map Wait.poll) = some (rounds, reg') ∧
      Alike reg' w' ∧ List.Forall₂ Shows (rounds.map Prod.snd) (hist.map Prod.snd) := by
  obtain ⟨rounds, reg', n, hn, hshows, halike⟩ := Machine.runFrom_fuelled (fun _ => registryMachine leaves reg₀)
    Wait.batch Wait.poll (fun w reg => Alike reg w) (fun ans turns => Shows turns ans)
    (fun w reg wait ans w' halike hround => by
      obtain ⟨turns, reg', hround', halike', hret, hperm⟩ := halike.round wait hround
      exact ⟨turns, reg', 0, fun _ _ => hround', ⟨hret, hperm⟩, halike'⟩)
    h hrun
  exact ⟨rounds, reg', hn n (Nat.le_refl n), halike, hshows.flip⟩

end Alike

/-- The same calls, in any order, and the same result. -/
def SameRound (ans ans' : List EventCall × Option ℤ) : Prop := ans.1.Perm ans'.1 ∧ ans.2 = ans'.2

theorem sameRound_of_shows {turns : List Turns} {answers answers' : List (List EventCall × Option ℤ)}
    (hallowed : List.Forall₂ Turns.Allows turns answers) (hshows : List.Forall₂ Alike.Shows turns answers') :
    List.Forall₂ SameRound answers answers' := by
  induction hallowed generalizing answers' with
  | nil =>
    cases hshows
    exact .nil
  | cons hallow _ ih =>
    cases hshows with
    | cons hshow hshows =>
      exact .cons ⟨hshow.2 _ hallow.1, hallow.2.trans hshow.1⟩ (ih hshows)

/-- The events of a side have distinct descriptors. -/
theorem SelectState.Sound.distinct {s : SelectState} (h : s.Sound) {side : Side} {ev e : MclEvent}
    (hev : ev ∈ s.events side) (he : e ∈ s.events side) (hfd : ev.sockfd = e.sockfd) : ev = e := by
  obtain ⟨i, p, hp, hval, hkey, -⟩ := h.exists_pair hev
  obtain ⟨j, q, hq, hval', hkey', -⟩ := h.exists_pair he
  have hs := (h.tables side).stored_iff.mpr ⟨⟨i, hp⟩, hkey⟩
  have hs' := (h.tables side).stored_iff.mpr ⟨⟨j, hq⟩, hkey'⟩
  rw [← hfd, hs] at hs'
  obtain rfl := Option.some.inj hs'
  rw [hval] at hval'
  exact SltHtNode.mk.inj (Option.some.inj hval')

/-- The same events wait for reading in both backends, and none for writing. -/
structure SameWatched (s : SelectState) (k : KqState) : Prop where
  reads : ∀ ev, ev ∈ s.events .inEvs ↔ ev ∈ k.db.storedEvents
  writes : s.events .outEvs = []
  flag : s.termFlag = k.termFlag
  bare : ∀ ev ∈ k.db.storedEvents, Bare ev

theorem SameWatched.alike {s : SelectState} {k : KqState} (h : SameWatched s k) (hsound : s.Sound)
    (hmain : s.place = .main) (hmain' : k.place = .main) : Alike s.registry k.watch := by
  have hplace : s.registry.looping = false := by
    rw [SelectState.registry, hmain]
    rfl
  have hplace' : k.watch.looping = false := by
    rw [KqState.watch, hmain']
    rfl
  refine ⟨?_, ?_, h.flag, hplace.trans hplace'.symm, ?_, fun ev hev e he hfd => ?_, fun ev hev => ?_⟩
  · ext ev
    rw [SelectState.registry, KqState.watch, List.mem_toFinset, List.mem_toFinset]
    exact h.reads ev
  · exact congrArg List.toFinset h.writes
  · intro hc
    exact absurd (hplace'.symm.trans hc) Bool.false_ne_true
  · have hev' := (h.reads ev).mpr (List.mem_toFinset.mp hev)
    exact hsound.distinct hev' ((h.reads e).mpr (List.mem_toFinset.mp he)) hfd
  · exact h.bare ev (List.mem_toFinset.mp hev)

theorem Alike.sameWatched {s : SelectState} {k : KqState} (h : Alike s.registry k.watch) : SameWatched s k := by
  obtain ⟨hreads, hwrites, hexits, -, -, -, hbare⟩ := h
  refine ⟨fun ev => ?_, ?_, hexits, fun ev hev => hbare ev (List.mem_toFinset.mpr hev)⟩
  · have hmem := Finset.ext_iff.mp hreads ev
    rwa [SelectState.registry, KqState.watch, List.mem_toFinset, List.mem_toFinset] at hmem
  · exact (List.toFinset_eq_empty_iff _).mp hwrites

/-- The loops of the two backends make the same calls in each round, return the same, and leave the same events,
however each of them has been led to what it holds. -/
theorem backends_dispatch_alike {setsize : BitVec 32} {s : SelectState} {k : KqState}
    {hist : List (SelectStep × Shown)} {hist' : List (Kqueue.KqStep × Shown)}
    {ok : KqState → Kqueue.KqStep → Prop} (hr : selectMachine.Reach (SelectState.InSetsize setsize) hist s)
    (hr' : Kqueue.kqMachine.Reach ok hist' k) (hmain : s.place = .main ∧ s.dels = [])
    (hmain' : k.place = .main ∧ k.dels = []) (hsame : SameWatched s k) (leaves : EventCall → Bool)
    (tval tval' : Option Timeval) (waits : List (Wait × Timeval))
    {rounds : List (Option (List Kevent) × List EventCall × Option ℤ)}
    (hrun : (watchMachine leaves tval' k.watch).run (waits.map (·.1.batch)) = some (rounds, w)) :
    ∃ rounds' s' k' n,
      (∀ fuel, n ≤ fuel →
        (dispatchMachine leaves fuel tval s).run (waits.map fun x => (x.1.poll, x.2)) = some (rounds', s') ∧
        (Kqueue.dispatchMachine leaves fuel tval' k).run (waits.map (·.1.batch)) = some (rounds, k')) ∧
      List.Forall₂ SameRound (rounds'.map Prod.snd) (rounds.map Prod.snd) ∧ SameWatched s' k' := by
  have halike := (hsame.alike (SelectState.sound_of_reach hr) hmain.1 hmain'.1).enter tval'
  obtain ⟨-, henter, hpolling⟩ := SelectState.entered hr hmain.1 hmain.2 tval
  obtain ⟨hwatch, hwaiting⟩ := KqState.entered hr' hmain'.2 tval'
  have hbatches : waits.map (·.1.batch) = (waits.map Prod.fst).map Wait.batch := (List.map_map ..).symm
  have hpolls : (waits.map fun x => (x.1.poll, x.2)).map Prod.fst = (waits.map Prod.fst).map Wait.poll := by
    rw [List.map_map, List.map_map]
    rfl
  have hrun₀ := hrun
  rw [hbatches] at hrun₀
  obtain ⟨turns, reg, hturns, halike', hshows⟩ := halike.rounds s.registry (waits.map Prod.fst) hrun₀
  rw [← henter, ← hpolls] at hturns
  obtain ⟨rounds', s', n, hn, hallowed, rfl⟩ := SelectState.dispatch_rounds leaves tval s hpolling _ hturns
  rw [Machine.run, show (watchMachine leaves tval' k.watch).init = (k.loop tval').2.watch from hwatch.symm] at hrun
  obtain ⟨k', n', hn', rfl⟩ := KqState.dispatch_rounds leaves tval' k hwaiting _ hrun
  refine ⟨rounds', s', k', max n n', fun fuel hle => ⟨?_, ?_⟩, sameRound_of_shows hallowed hshows, halike'.sameWatched⟩
  · exact hn fuel (Nat.le_trans (Nat.le_max_left n n') hle)
  · exact hn' fuel (Nat.le_trans (Nat.le_max_right n n') hle)

/-- A listener that stays, a reader that is called once, and one that asks for the end. -/
def listener : MclEvent := ⟨1, 3, mclEvRead ||| mclEvPersist, some 0, some 8, none, none⟩
def reader : MclEvent := ⟨2, 4, mclEvRead, some 0, none, none, none⟩
def quitter : MclEvent := ⟨3, 5, mclEvRead, some 9, none, none, none⟩

def threeWaits : List (Wait × Timeval) :=
  [(some [], ⟨0, 0⟩), (some [reader, listener], ⟨0, 0⟩), (some [listener, quitter], ⟨0, 0⟩)]

theorem backends_dispatch_alike_three : ∃ (s : SelectState) (k : KqState)
    (rounds' : List ((PollResult × Timeval) × List EventCall × Option ℤ))
    (rounds : List (Option (List Kevent) × List EventCall × Option ℤ)) (s' : SelectState) (k' : KqState) (n : ℕ),
    (∀ fuel, n ≤ fuel →
      (dispatchMachine (fun c => c.cb == 9) fuel none s).run (threeWaits.map fun x => (x.1.poll, x.2)) =
        some (rounds', s') ∧
      (Kqueue.dispatchMachine (fun c => c.cb == 9) fuel none k).run (threeWaits.map (·.1.batch)) = some (rounds, k')) ∧
    List.Forall₂ SameRound (rounds'.map Prod.snd) (rounds.map Prod.snd) ∧
    rounds.map (·.2) = [([], none), ([⟨0, 4, mclEvRead, none⟩, ⟨0, 3, mclEvRead, none⟩], none),
      ([⟨0, 3, mclEvRead, none⟩, ⟨9, 5, mclEvRead, none⟩], some 1)] ∧
    SameWatched s' k' := by
  obtain ⟨hist, s, hr, hmain, hdels, hreads, hwrites, hflag⟩ := selectMachine.exists_of_restrict
    (fun s l => decide (s.InSetsize 1024 l)) [.add listener, .add reader, .add quitter]
    (fun r => r.2.place = .main ∧ r.2.dels = [] ∧ (r.2.events .inEvs).toFinset = {listener, reader, quitter} ∧
      r.2.events .outEvs = [] ∧ r.2.termFlag = false) (by decide +kernel)
  obtain ⟨hist', k, hk, hmain', hdels', hstored, hflag', habstract⟩ := Kqueue.kqMachine.exists_of_run
    [.add listener true, .add reader true, .add quitter true]
    (fun r => r.2.place = .main ∧ r.2.dels = [] ∧ r.2.db.storedEvents.toFinset = {listener, reader, quitter} ∧
      r.2.termFlag = false ∧
      (((watchMachine (fun c => c.cb == 9) none r.2.watch).run (threeWaits.map (·.1.batch))).any fun x =>
        decide (x.1.map (·.2) = [([], none), ([⟨0, 4, mclEvRead, none⟩, ⟨0, 3, mclEvRead, none⟩], none),
          ([⟨0, 3, mclEvRead, none⟩, ⟨9, 5, mclEvRead, none⟩], some 1)])) = true) (by decide +kernel)
  have hr' : selectMachine.Reach (SelectState.InSetsize 1024) hist s := hr.mono fun s l hok => of_decide_eq_true hok
  have hsame : SameWatched s k := by
    refine ⟨fun ev => ?_, hwrites, hflag.trans hflag'.symm, fun ev hev => ?_⟩
    · rw [← List.mem_toFinset, ← List.mem_toFinset, hreads, hstored]
    · rw [← List.mem_toFinset, hstored] at hev
      have hbare : ∀ ev ∈ ({listener, reader, quitter} : Finset MclEvent), Bare ev := by decide
      exact hbare ev hev
  obtain ⟨⟨rounds, w⟩, hrun, hshows⟩ := (Option.any_eq_true _ _).mp habstract
  obtain ⟨rounds', s', k', n, hruns, halike, hsame'⟩ := backends_dispatch_alike hr' (Machine.reach_of_run hk)
    ⟨hmain, hdels⟩ ⟨hmain', hdels'⟩ hsame (fun c => c.cb == 9) none none threeWaits hrun
  exact ⟨s, k, rounds', rounds, s', k', n, hruns, halike, of_decide_eq_true hshows, hsame'⟩

end Mcl
