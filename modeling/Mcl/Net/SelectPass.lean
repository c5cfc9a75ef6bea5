import Mathlib.Data.List.Basic
import Mcl.Net.SelectDeparts
import Mcl.Util.HashErase

/-! One pass of `handle_events` over a table, with callbacks that do not call back. -/
namespace Mcl
open Mcl.Library Mcl.Hash

/-- The callback of an event that is ready. -/
def handlerCall (side : Side) (ev : MclEvent) : Option EventCall :=
  (SelectState.handler side ev).map fun cb => ⟨cb, ev.sockfd, SelectState.handleType side, ev.uargs⟩

/-- An event that the pass takes out of the table. -/
def dropped (fds : FdSet) (ev : MclEvent) : Bool :=
  fdIsset ev.sockfd fds && decide (ev.evType &&& mclEvPersist = 0)

def droppedPair (fds : FdSet) (_ : Option HashKey) (val : Option SltHtNode) : Bool :=
  val.any fun node => dropped fds node.ev

/-- The calls for one event: its callback, and its cleanup callback where it is taken out. -/
def passCalls (side : Side) (fds : FdSet) (ev : MclEvent) : List EventCall :=
  (if fdIsset ev.sockfd fds then (handlerCall side ev).toList else []) ++
    if dropped fds ev then (eventHtFreeCall ⟨ev⟩).toList else []

namespace SelectState

/-- The step of the loop of `handle_events`, or of a callback that only returns. -/
def goOn (s : SelectState) : Option SelectStep :=
  match s.place with
  | .scan _ it => if it.isNull then none else some .handle
  | .callback .. | .cleanup .. => some .ret
  | _ => none

/-- `handle_events` in the course of its loop: it has been through `done`, and `rest` is before it. -/
structure Midway (side : Side) (s₀ : SelectState) (done rest : List (HashPair SltHtNode))
    (it : HashIter SltHtNode) (t : SelectState) : Prop where
  sound : t.Sound
  dels : t.dels = []
  between : Between (droppedPair (s₀.fds side)) (s₀.ht side) rest it (t.ht side)
  ready : ∀ p ∈ rest, ∀ fd, p.key = .int fd → (fd ∈ t.fds side ↔ fd ∈ s₀.fds side)
  fds : ∀ fd, fd ∈ t.fds side ↔ fd ∈ s₀.fds side ∧
    ∀ p ∈ done, p.meets (droppedPair (s₀.fds side)) = true → p.key ≠ .int fd
  others : ∀ x, x ≠ side → t.ht x = s₀.ht x ∧ t.fds x = s₀.fds x

variable {side : Side} {s₀ t u : SelectState} {done rest : List (HashPair SltHtNode)}
  {it : HashIter SltHtNode} {p : HashPair SltHtNode} {ev : MclEvent} {r : Shown × SelectState}

/-- It is at the head of the loop. -/
def AtHead (side : Side) (s₀ : SelectState) (done rest : List (HashPair SltHtNode)) (t : SelectState) : Prop :=
  ∃ it, t.place = .scan side it ∧ Midway side s₀ done rest it t

theorem meets_droppedPair (hval : p.val = some ⟨ev⟩) (fds : FdSet) :
    p.meets (droppedPair fds) = dropped fds ev := by
  rw [HashPair.meets, hval]
  rfl

theorem Midway.next (h : Midway side s₀ done (p :: rest) it t) (hkeep : p.meets (droppedPair (s₀.fds side)) = false) :
    GoesOn selectMachine goOn (AtHead side s₀ (done ++ [p]) rest) [] (t.handleNext side it) := by
  obtain ⟨it', hnext, hb⟩ := h.between.moves hkeep
  unfold handleNext
  rw [hnext]
  refine .stays ⟨it', rfl, h.sound.atPlace rfl, h.dels, hb, ?_, fun fd => ?_, h.others⟩
  · exact fun q hq => h.ready q (List.mem_cons_of_mem _ hq)
  · refine (h.fds fd).trans (and_congr_right fun _ => ⟨fun hall q hq hmeets => ?_, fun hall q hq => ?_⟩)
    · rcases List.mem_append.mp hq with hq | hq
      · exact hall q hq hmeets
      · rw [List.mem_singleton.mp hq, hkeep] at hmeets
        exact absurd hmeets Bool.false_ne_true
    · exact hall q (List.mem_append_left _ hq)

/-- The pairs ahead are for other descriptors. -/
theorem Midway.key_ne (h : Midway side s₀ done (p :: rest) it t) {q : HashPair SltHtNode} (hq : q ∈ rest)
    {fd : BitVec 32} (hkey : p.key = .int fd) : q.key ≠ .int fd := by
  have ht := h.sound.tables side
  intro hkey'
  have hp := ht.stored_iff.mpr ⟨h.between.ahead.mem List.mem_cons_self, hkey⟩
  have hq' := ht.stored_iff.mpr ⟨h.between.ahead.mem (List.mem_cons_of_mem _ hq), hkey'⟩
  obtain rfl := Option.some.inj (hp.symm.trans hq')
  exact ht.wf.not_mem_ahead h.between.ahead hq

/-- After the erase and the `FD_CLR`. -/
theorem Midway.erased (h : Midway side s₀ done (p :: rest) it t) (hkey : p.key = .int ev.sockfd)
    (hdrop : p.meets (droppedPair (s₀.fds side)) = true) {it' : HashIter SltHtNode}
    {ht' : Hash SltHtNode SltFreeFn} (hb : Between (droppedPair (s₀.fds side)) (s₀.ht side) rest it' ht')
    (hsound : u.Sound) (hdels : u.dels = [])
    (hevs : u.db.evs = Function.update t.db.evs side ⟨ht', fdClr ev.sockfd (t.fds side)⟩) :
    Midway side s₀ (done ++ [p]) rest it' u := by
  have hht := ht_of_evs hevs
  have hfds := fds_of_evs hevs
  refine ⟨hsound, hdels, ?_, fun q hq fd hqkey => ?_, fun fd => ?_, fun x hx => ?_⟩
  · rwa [hht, Function.update_self]
  · have hne : fd ≠ ev.sockfd := by
      rintro rfl
      exact h.key_ne hq hkey hqkey
    rw [hfds, Function.update_self, fdClr, Finset.mem_erase, and_iff_right hne]
    exact h.ready q (List.mem_cons_of_mem _ hq) fd hqkey
  · rw [hfds, Function.update_self, fdClr, Finset.mem_erase, h.fds]
    constructor
    · rintro ⟨hne, hset, hall⟩
      refine ⟨hset, fun q hq hmeets => ?_⟩
      rcases List.mem_append.mp hq with hq | hq
      · exact hall q hq hmeets
      · rw [List.mem_singleton.mp hq, hkey]
        exact fun hc => hne (HashKey.int.inj hc).symm
    · rintro ⟨hset, hall⟩
      refine ⟨?_, hset, fun q hq => hall q (List.mem_append_left _ hq)⟩
      rintro rfl
      exact hall p (List.mem_append_right _ (List.mem_singleton_self p)) hdrop hkey
  · rw [hht, hfds, Function.update_of_ne hx, Function.update_of_ne hx]
    exact h.others x hx

theorem exec_cleaned {s : SelectState} {sockfd : BitVec 32} {node : SltHtNode} (hdels : s.dels = [])
    (hplace : s.place = .cleanup side it sockfd node) :
    s.exec .ret = some ((s.free node).handleErased side it sockfd) := by
  unfold SelectState.exec
  rw [hdels, hplace]

theorem exec_called {s : SelectState} {sockfd : BitVec 32} (hdels : s.dels = [])
    (hplace : s.place = .callback side it sockfd ev) :
    s.exec .ret = some (s.handleCalled side it sockfd ev (side = .expEvs)) := by
  unfold SelectState.exec
  rw [hdels, hplace]

theorem Midway.erase (h : Midway side s₀ done (p :: rest) it t) (hplace : t.place.nodes = [])
    (hval : p.val = some ⟨ev⟩) (hdrop : dropped (s₀.fds side) ev = true) :
    GoesOn selectMachine goOn (AtHead side s₀ (done ++ [p]) rest) (eventHtFreeCall ⟨ev⟩).toList
      (t.handleErase side it ev.sockfd) := by
  have ht := h.sound.tables side
  obtain ⟨i, hp⟩ := h.between.ahead.mem List.mem_cons_self
  have hkey := (ht.of_val hp hval).1
  have hmeets := (meets_droppedPair hval (s₀.fds side)).trans hdrop
  obtain ⟨it', ht', herase, hb⟩ := h.between.erases hmeets
  have hdestroy : destroyPair p (s₀.ht side).eraseFn = [(.eventHtFree, ⟨ev⟩)] := by
    rw [← h.between.becomes.eraseFn, ht.eraseFn, destroyPair, hval]
    rfl
  rw [hdestroy] at herase
  have hfreed : (t.setHt side ht').isFreed ev = false := h.sound.not_isFreed (mem_events ht.wf hp hval)
  have hsound : (t.handleErase side it ev.sockfd).2.Sound := h.sound.handleErase hplace
  unfold handleErase at hsound ⊢
  rw [herase] at hsound ⊢
  dsimp only at hsound ⊢
  unfold eventHtFree at hsound ⊢
  rw [if_neg (by rw [hfreed]; exact Bool.false_ne_true)] at hsound ⊢
  have hevs : ∀ v : SelectState, v.db = (t.setHt side ht').db →
      (v.handleErased side it' ev.sockfd).2.db.evs =
        Function.update t.db.evs side ⟨ht', fdClr ev.sockfd (t.fds side)⟩ := by
    intro v hv
    simp only [handleErased, setEvset, SltEvdb.setEvset, SelectState.fds, hv, setHt, Function.update_self,
      Function.update_idem]
  cases hcall : eventHtFreeCall ⟨ev⟩ with
  | none =>
    rw [hcall] at hsound
    exact .stays ⟨it', rfl, h.erased hkey hmeets hb hsound h.dels (hevs _ rfl)⟩
  | some call =>
    rw [hcall] at hsound
    have hret := exec_cleaned (s := { t.setHt side ht' with place := .cleanup side it' ev.sockfd ⟨ev⟩ }) h.dels rfl
    exact .call rfl hret (.stays ⟨it', rfl, h.erased hkey hmeets hb (hsound.exec hret) h.dels (hevs _ rfl)⟩)

/-- After the callback, if there was one. -/
theorem Midway.called (h : Midway side s₀ done (p :: rest) it t) (hplace : t.place.nodes = [])
    (hval : p.val = some ⟨ev⟩) (hready : fdIsset ev.sockfd (s₀.fds side) = true) :
    GoesOn selectMachine goOn (AtHead side s₀ (done ++ [p]) rest)
      (if dropped (s₀.fds side) ev then (eventHtFreeCall ⟨ev⟩).toList else [])
      (t.handleCalled side it ev.sockfd ev false) := by
  obtain ⟨i, hp⟩ := h.between.ahead.mem List.mem_cons_self
  have hfreed := h.sound.not_isFreed (mem_events (h.sound.tables side).wf hp hval)
  simp only [handleCalled, hfreed, Bool.false_eq_true, if_false, or_false]
  by_cases hpersist : ev.evType &&& mclEvPersist = 0
  · have hdrop : dropped (s₀.fds side) ev = true := by
      rw [dropped, hready, Bool.true_and, decide_eq_true hpersist]
    rw [if_pos hpersist, if_pos hdrop]
    exact h.erase hplace hval hdrop
  · have hkeep : dropped (s₀.fds side) ev = false := by
      rw [dropped, decide_eq_false hpersist, Bool.and_false]
    rw [if_neg hpersist, if_neg (by rw [hkeep]; exact Bool.false_ne_true)]
    exact h.next ((meets_droppedPair hval _).trans hkeep)

/-- One event. -/
theorem Midway.handle (h : Midway side s₀ done (p :: rest) it t) (hside : side ≠ .expEvs)
    (hplace : t.place = .scan side it) (hval : p.val = some ⟨ev⟩) :
    GoesOn selectMachine goOn (AtHead side s₀ (done ++ [p]) rest) (passCalls side (s₀.fds side) ev)
      (t.handleOne side it) := by
  have ht := h.sound.tables side
  obtain ⟨i, hp⟩ := h.between.ahead.mem List.mem_cons_self
  have hkey := (ht.of_val hp hval).1
  have hready : fdIsset ev.sockfd (t.fds side) = fdIsset ev.sockfd (s₀.fds side) :=
    decide_eq_decide.mpr (h.ready p List.mem_cons_self ev.sockfd hkey)
  rw [h.sound.handleOne_ahead h.between.ahead hval, hready, passCalls]
  cases hset : fdIsset ev.sockfd (s₀.fds side) with
  | false =>
    have hkeep : dropped (s₀.fds side) ev = false := by simp [dropped, hset]
    rw [hkeep]
    exact h.next ((meets_droppedPair hval _).trans hkeep)
  | true =>
    simp only [if_true, handlerCall]
    cases hcb : handler side ev with
    | none => exact h.called (by rw [hplace]; rfl) hval hset
    | some cb =>
      have hmid : Midway side s₀ done (p :: rest) it { t with place := .callback side it ev.sockfd ev } :=
        ⟨h.sound.atPlace rfl, h.dels, h.between, h.ready, h.fds, h.others⟩
      have hret := exec_called (s := { t with place := .callback side it ev.sockfd ev }) h.dels rfl
      rw [decide_eq_false hside] at hret
      exact .call rfl hret (hmid.called rfl hval hset)

/-- The events of pairs. -/
def pairEvents (ps : List (HashPair SltHtNode)) : List MclEvent := ps.filterMap fun p => p.val.map (·.ev)

theorem Midway.run (h : Midway side s₀ done rest it t) (hside : side ≠ .expEvs) (hplace : t.place = .scan side it) :
    ∃ shows t' it', selectMachine.Leads goOn t shows t' ∧
      shows.flatMap Shown.calls = (pairEvents rest).flatMap (passCalls side (s₀.fds side)) ∧
      t'.place = .scan side it' ∧ Midway side s₀ (done ++ rest) [] it' t' := by
  induction rest generalizing done it t with
  | nil =>
    refine ⟨[], t, it, .refl t, rfl, hplace, ?_⟩
    rwa [List.append_nil]
  | cons p rest ih =>
    obtain ⟨i, hp⟩ := h.between.ahead.mem List.mem_cons_self
    obtain ⟨ev, -, hval, -, -⟩ := (h.sound.tables side).stored i p hp
    have hgo : goOn t = some .handle := by
      rw [goOn, hplace]
      exact if_neg (by rw [h.between.ahead.head.1]; exact Bool.false_ne_true)
    have hexec : selectMachine.step t .handle = some (t.handleOne side it) := by
      simp only [selectMachine, SelectState.exec, hplace]
    obtain ⟨shows, t₁, hleads, hcalls, it₁, hplace₁, hmid⟩ := (h.handle hside hplace hval).leads hgo hexec
    obtain ⟨shows', t', it', hleads', hcalls', hplace', hmid'⟩ := ih hmid hplace₁
    refine ⟨_, t', it', hleads.trans hleads', ?_, hplace', ?_⟩
    · have hevents : pairEvents (p :: rest) = ev :: pairEvents rest := List.filterMap_cons_some (by rw [hval]; rfl)
      rw [List.flatMap_append, hcalls, hcalls', hevents, List.flatMap_cons]
    · rwa [List.append_assoc] at hmid'

/-- `handle_events` is called for a side of the tables of `s`, with the sets that `select` has left. -/
def enters (side : Side) (sets : Side → FdSet) (s : SelectState) : SelectState :=
  ((setFds sets { s with dels := [] }).handleEvents side).2

/-- What a pass over the events of `s` has done, with `fds` as the set at its start. -/
structure Passed (side : Side) (fds : FdSet) (s t : SelectState) (calls : List EventCall) : Prop where
  nodup : (s.events side).Nodup
  fired : (calls.filter fun c => c.evType ≠ mclEvDel) =
    ((s.events side).filter fun ev => fdIsset ev.sockfd fds).filterMap fun ev => ev.callback.map fun cb =>
      ⟨cb, ev.sockfd, if side = .inEvs then mclEvRead else mclEvWrite, ev.uargs⟩
  cleaned : (calls.filter fun c => c.evType = mclEvDel) =
    ((s.events side).filter (dropped fds)).filterMap fun ev => ev.cleanupCb.map fun cb =>
      ⟨cb, ev.sockfd, mclEvDel, ev.uargs⟩
  events : t.events side = (s.events side).filter fun ev => !dropped fds ev
  fds : ∀ fd, fd ∈ t.fds side ↔ fd ∈ fds ∧ ∀ ev ∈ s.events side, dropped fds ev = true → ev.sockfd ≠ fd
  others : ∀ x, x ≠ side → t.ht x = s.ht x

theorem Sound.midway_head {s : SelectState} (h : s.Sound) (hdels : s.dels = []) (side : Side) :
    ∃ it, (s.handleEvents side).2.place = .scan side it ∧
      Midway side s [] (s.ht side).pairs it (s.handleEvents side).2 := by
  obtain ⟨it, hhead, ha⟩ := (h.tables side).wf.iterHead_ahead Iter.initializer
  have hsound := h.handleEvents side
  unfold SelectState.handleEvents at hsound ⊢
  rw [hhead] at hsound ⊢
  refine ⟨it, rfl, hsound, hdels, (h.tables side).wf.between ha, ?_, fun fd => ?_, fun _ _ => ⟨rfl, rfl⟩⟩
  · exact fun _ _ _ _ => Iff.rfl
  · exact (and_iff_left fun p hp => absurd hp List.not_mem_nil).symm

/-- The two kinds of calls for an event differ in their type. -/
theorem filter_passCalls (side : Side) (fds : FdSet) (ev : MclEvent) :
    (passCalls side fds ev).filter (fun c => c.evType ≠ mclEvDel) =
        (if fdIsset ev.sockfd fds then handlerCall side ev else none).toList ∧
      (passCalls side fds ev).filter (fun c => c.evType = mclEvDel) =
        (if dropped fds ev then eventHtFreeCall ⟨ev⟩ else none).toList := by
  have hhandler : ∀ c ∈ (if fdIsset ev.sockfd fds then handlerCall side ev else none).toList,
      c.evType ≠ mclEvDel := by
    intro c hc
    rw [Option.mem_toList, Option.ite_none_right_eq_some] at hc
    obtain ⟨cb, -, rfl⟩ := Option.map_eq_some_iff.mp hc.2
    exact handleType_ne side
  have hclean : ∀ c ∈ (if dropped fds ev then eventHtFreeCall ⟨ev⟩ else none).toList, c.evType = mclEvDel := by
    intro c hc
    rw [Option.mem_toList, Option.ite_none_right_eq_some] at hc
    obtain ⟨cb, -, rfl⟩ := Option.map_eq_some_iff.mp hc.2
    rfl
  have hcalls : passCalls side fds ev = (if fdIsset ev.sockfd fds then handlerCall side ev else none).toList ++
      (if dropped fds ev then eventHtFreeCall ⟨ev⟩ else none).toList := by
    unfold passCalls
    congr 1
    · split <;> rfl
    · split <;> rfl
  rw [hcalls, List.filter_append, List.filter_append]
  constructor
  · rw [List.filter_eq_self.mpr fun c hc => decide_eq_true (hhandler c hc),
      List.filter_eq_nil_iff.mpr fun c hc => by simp [hclean c hc], List.append_nil]
  · rw [List.filter_eq_nil_iff.mpr fun c hc => by simp [hhandler c hc],
      List.filter_eq_self.mpr fun c hc => decide_eq_true (hclean c hc), List.nil_append]

theorem pairEvents_pairs (s : SelectState) (side : Side) : pairEvents (s.ht side).pairs = s.events side := rfl

theorem Sound.nodup_events {s : SelectState} (h : s.Sound) (side : Side) : (s.events side).Nodup := by
  have hsub : (s.events side).Sublist (s.storedEvents ++ s.gone) := by
    refine List.Sublist.trans ?_ (List.sublist_append_left _ _)
    simp only [storedEvents, Side.all, List.flatMap_cons, List.flatMap_nil, List.append_nil]
    cases side with
    | inEvs => exact List.sublist_append_left _ _
    | outEvs => exact (List.sublist_append_left _ _).trans (List.sublist_append_right _ _)
    | expEvs => exact (List.sublist_append_right _ _).trans (List.sublist_append_right _ _)
  exact (h.owned.of_map _).sublist hsub

theorem handlerCall_eq (hside : side ≠ .expEvs) (ev : MclEvent) :
    handlerCall side ev = ev.callback.map fun cb =>
      ⟨cb, ev.sockfd, if side = .inEvs then mclEvRead else mclEvWrite, ev.uargs⟩ := by
  cases side with
  | inEvs => rfl
  | outEvs => rfl
  | expEvs => exact absurd rfl hside

theorem Midway.passed {s : SelectState} (h : s.Sound) (hside : side ≠ .expEvs) {calls : List EventCall}
    (hmid : Midway side s (s.ht side).pairs [] it t)
    (hcalls : calls = (s.events side).flatMap (passCalls side (s.fds side))) :
    Passed side (s.fds side) s t calls := by
  have hbucket : (t.ht side).bucket = fun i => ((s.ht side).bucket i).filter fun q =>
      !q.meets (droppedPair (s.fds side)) := by
    rw [hmid.between.becomes.bucket]
    funext i
    simp
  have hpairs : (t.ht side).pairs = (s.ht side).pairs.filter fun q => !q.meets (droppedPair (s.fds side)) := by
    rw [Hash.pairs, hbucket, KeySame.entries_filter, Hash.pairs]
  have hstored : ∀ p ∈ (s.ht side).pairs, ∃ ev, p.key = .int ev.sockfd ∧ p.val = some ⟨ev⟩ := by
    intro p hp
    obtain ⟨ev, hkey, hval, -, -⟩ := (h.tables side).of_mem_pairs hp
    exact ⟨ev, hkey, hval⟩
  refine ⟨h.nodup_events side, ?_, ?_, ?_, fun fd => ?_, fun x hx => (hmid.others x hx).1⟩
  · rw [hcalls, List.filter_flatMap]
    simp only [(filter_passCalls side (s.fds side) _).1, handlerCall_eq hside]
    rw [← List.filterMap_eq_flatMap_toList, ← List.filterMap_filter]
  · rw [hcalls, List.filter_flatMap]
    simp only [(filter_passCalls side (s.fds side) _).2]
    rw [← List.filterMap_eq_flatMap_toList, ← List.filterMap_filter]
    rfl
  · rw [← pairEvents_pairs, ← pairEvents_pairs, hpairs, pairEvents, List.filterMap_filter, pairEvents,
      List.filter_filterMap]
    apply List.filterMap_congr
    intro p hp
    obtain ⟨ev, -, hval⟩ := hstored p hp
    rw [meets_droppedPair hval, hval, Option.map_some, Option.filter_some]
  · refine (hmid.fds fd).trans (and_congr_right fun _ => ⟨fun hall ev hev hdrop => ?_, fun hall p hp hmeets => ?_⟩)
    · obtain ⟨p, hp, hpev⟩ := List.mem_filterMap.mp hev
      obtain ⟨ev', hkey, hval⟩ := hstored p hp
      obtain rfl : ev' = ev := by simpa [hval] using hpev
      rintro rfl
      exact hall p hp ((meets_droppedPair hval _).trans hdrop) hkey
    · obtain ⟨ev, hkey, hval⟩ := hstored p hp
      rw [hkey]
      intro hc
      have hev : ev ∈ s.events side := List.mem_filterMap.mpr ⟨p, hp, by rw [hval]; rfl⟩
      exact hall ev hev ((meets_droppedPair hval _).symm.trans hmeets) (HashKey.int.inj hc)

/-- Of any tables and with any ready sets. -/
theorem handle_events_pass {s : SelectState} (hs : s.Reachable) (sets : Side → FdSet) (hside : side ≠ .expEvs) :
    ∃ shows t it,
      (∃ n, ∀ fuel, n ≤ fuel → selectMachine.drive goOn fuel (s.enters side sets) = some (shows, t)) ∧
        t.place = .scan side it ∧ it.isNull = true ∧ Passed side (sets side) s t (shows.flatMap Shown.calls) := by
  have h : (setFds sets { s with dels := [] }).Sound := by
    refine ⟨hs.sound.tables, ?_, fun frame hframe => absurd hframe List.not_mem_nil⟩
    have hgone : (setFds sets { s with dels := [] }).gone.Sublist s.gone := by
      simp only [gone, releasing, setFds, List.map_nil, List.nil_append, List.map_append]
      exact List.Sublist.append_right (List.sublist_append_right _ _) _
    exact hs.sound.owned.sublist ((List.Sublist.append_left hgone _).map _)
  obtain ⟨it, hplace, hmid⟩ := h.midway_head rfl side
  obtain ⟨shows, t, it', hleads, hcalls, hplace', hmid'⟩ := hmid.run hside hplace
  have hnull : it'.isNull = true := by
    cases hmid'.between.ahead with
    | done hnull => rw [Iter.isNull, hnull]; rfl
  have hpassed := hmid'.passed h hside hcalls
  refine ⟨shows, t, it', hleads.ends ?_, hplace', hnull, hpassed.nodup, hpassed.fired, hpassed.cleaned,
    hpassed.events, hpassed.fds, hpassed.others⟩
  rw [goOn, hplace']
  exact if_pos hnull

/-- Two events of one bucket, the second of its list to be taken out, and one that is not ready. -/
def passOps : List SelectStep :=
  [.add { readEvent 1 1 with evType := mclEvRead, cleanupCb := some 9 }, .add (readEvent 2 1022),
    .add { readEvent 3 7 with evType := mclEvRead }]

theorem handle_events_pass_colliding :
    ∃ s shows t it, selectMachine.run passOps = some s ∧
      (∃ n, ∀ fuel, n ≤ fuel →
        selectMachine.drive goOn fuel (s.2.enters .inEvs fun _ => {1, 1022}) = some (shows, t)) ∧
      t.place = .scan .inEvs it ∧ it.isNull = true ∧ (t.events .inEvs).map (·.sockfd) = [1022, 7] ∧
      ((shows.flatMap Shown.calls).filter fun c => c.evType ≠ mclEvDel) =
        [⟨0, 1022, mclEvRead, none⟩, ⟨0, 1, mclEvRead, none⟩] ∧
      ((shows.flatMap Shown.calls).filter fun c => c.evType = mclEvDel) = [⟨9, 1, mclEvDel, none⟩] := by
  obtain ⟨hist, s, hrun, hevents, hfired, hcleaned⟩ := selectMachine.exists_of_run passOps (fun r =>
    ((r.2.events .inEvs).filter fun ev => !dropped {1, 1022} ev).map (·.sockfd) = [1022, 7] ∧
    (((r.2.events .inEvs).filter fun ev => fdIsset ev.sockfd {1, 1022}).filterMap fun ev =>
      ev.callback.map fun cb => (⟨cb, ev.sockfd, mclEvRead, ev.uargs⟩ : EventCall)) =
        [⟨0, 1022, mclEvRead, none⟩, ⟨0, 1, mclEvRead, none⟩] ∧
    (((r.2.events .inEvs).filter (dropped {1, 1022})).filterMap fun ev =>
      ev.cleanupCb.map fun cb => (⟨cb, ev.sockfd, mclEvDel, ev.uargs⟩ : EventCall)) =
        [⟨9, 1, mclEvDel, none⟩]) (by decide +kernel)
  have hside : Side.inEvs ≠ .expEvs := by decide
  obtain ⟨shows, t, it, hdrive, hplace, hnull, hpassed⟩ :=
    handle_events_pass ⟨_, _, hrun⟩ (fun _ => {1, 1022}) hside
  refine ⟨(hist, s), shows, t, it, hrun, hdrive, hplace, hnull, ?_, ?_, ?_⟩
  · rw [hpassed.events]
    exact hevents
  · rw [hpassed.fired]
    exact hfired
  · rw [hpassed.cleaned]
    exact hcleaned

end SelectState
end Mcl
