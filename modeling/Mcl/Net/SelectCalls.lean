import Mcl.Net.SelectSound

/-! What `mcl_event_add` and `mcl_event_del` do in a sound state. -/
namespace Mcl
open Mcl.Library Mcl.Hash

namespace SelectState

variable {s s' : SelectState} {side : Side} {ev arg : MclEvent} {c : Change} {i : ℕ}
  {p : HashPair SltHtNode}

/-- A call leaves the loop where it is. -/
structure Calls (s s' : SelectState) (c : Change) : Prop where
  effect : Effect s s' c
  place : s'.place = s.place
  reported : s'.reported = s.reported
  added : ∀ ev ∈ s'.added, ev ∈ s.added ∨ ev ∉ s.storedEvents ++ s.gone
  frames : ∀ frame ∈ s'.dels, frame.Sound

theorem Calls.sound (hc : Calls s s' c) (h : s.Sound) : s'.Sound := h.effect hc.effect hc.frames

theorem Sound.keepsSelf (h : s.Sound) (hevs : s'.db.evs = s.db.evs) (hgone : s'.gone.Perm s.gone) :
    Effect s s' .keeps := by
  have hself : s'.db.evs = Function.update s.db.evs .inEvs ⟨s.ht .inEvs, s.fds .inEvs⟩ := by
    rw [hevs]
    exact (Function.update_eq_self _ _).symm
  exact .keeps hself (Finset.Subset.refl _) (fun _ hfd _ => hfd) (h.tables .inEvs).wf.keep (.refl _) hgone

/-- A stored event is found in its table under its descriptor. -/
theorem Sound.stored_of_mem (h : s.Sound) (hev : ev ∈ s.storedEvents) :
    ∃ side i p, getEvset ev = some side ∧ bucketOf (.int ev.sockfd) = some i ∧
      pairUnder (.int ev.sockfd) ((s.ht side).bucket i) = some p := by
  obtain ⟨side, -, hev⟩ := List.mem_flatMap.mp hev
  obtain ⟨i, p, hp, -, hkey, hside⟩ := h.exists_pair hev
  have ht := h.tables side
  refine ⟨side, i, p, hside, ?_, ?_⟩
  · rw [← hkey]
    exact (ht.wf.placed i p hp).bucketOf
  · rw [← hkey]
    exact (ht.wf.distinct i).lookup_of_mem hp

theorem not_isFreed_of_passable (hpass : s.passable ev = true) : s.isFreed ev = false := by
  rw [passable, Bool.and_eq_true] at hpass
  simpa using hpass.1

theorem eq_of_passable (hpass : s.passable ev = true) {e : MclEvent}
    (he : e ∈ s.storedEvents ++ s.releasing.map (·.ev)) (haddr : e.addr = ev.addr) : e = ev := by
  rw [passable, Bool.and_eq_true, List.all_eq_true] at hpass
  have := hpass.2 e he
  rw [Bool.or_eq_true] at this
  exact beq_iff_eq.mp (this.resolve_left (by simp [haddr]))

/-! Adding. -/

/-- An event that is handed over is not on its way out. -/
theorem addr_ne_of_gone (hpass : s.passable ev = true)
    (hrel : ∀ node ∈ s.releasing, node.ev.addr ≠ ev.addr) : ∀ e ∈ s.gone, e.addr ≠ ev.addr := by
  intro e he haddr
  rcases List.mem_append.mp he with he | he
  · obtain ⟨node, hnode, rfl⟩ := List.mem_map.mp he
    exact hrel node hnode haddr
  · have hfree := not_isFreed_of_passable hpass
    rw [isFreed, List.any_eq_false] at hfree
    exact hfree e he (by simp [haddr])

theorem added_handOver (hpass : s.passable ev = true)
    (hrel : ∀ node ∈ s.releasing, node.ev.addr ≠ ev.addr) :
    ∀ e ∈ (s.handOver ev).added, e ∈ s.added ∨ e ∉ s.storedEvents ++ s.gone := by
  intro e he
  simp only [handOver] at he
  split at he
  · exact .inl he
  · next hnew =>
    rcases List.mem_cons.mp he with rfl | he
    · refine .inr fun hmem => ?_
      rcases List.mem_append.mp hmem with hmem | hmem
      · exact hnew hmem
      · exact addr_ne_of_gone hpass hrel e hmem rfl
    · exact .inl he

/-- An event that a table takes is not one that the base knows. -/
theorem Sound.fresh_of_room (h : s.Sound) (hpass : s.passable ev = true)
    (hrel : ∀ node ∈ s.releasing, node.ev.addr ≠ ev.addr) (hside : getEvset ev = some side)
    (hi : bucketOf (.int ev.sockfd) = some i) (hroom : Room false (.int ev.sockfd) ((s.ht side).bucket i)) :
    ∀ e ∈ s.storedEvents ++ s.gone, e.addr ≠ ev.addr := by
  intro e he haddr
  rcases List.mem_append.mp he with he | he
  · obtain rfl := eq_of_passable hpass (List.mem_append_left _ he) haddr
    obtain ⟨side', i', p, hside', hi', hp⟩ := h.stored_of_mem he
    obtain rfl := Option.some.inj (hside'.symm.trans hside)
    obtain rfl := Option.some.inj (hi'.symm.trans hi)
    have hnone := (hroom.resolve_left (by simp)).1
    rw [hp] at hnone
    exact absurd hnone (by simp)
  · exact addr_ne_of_gone hpass hrel e he haddr

/-- The descriptor goes to the set only when the table has taken the event. -/
theorem addEvent_of_insert {db : SltEvdb} {ht' : Hash SltHtNode SltFreeFn} {ret : ℤ} (hneg : ev.sockfd.slt 0 = false)
    (hins : hashInsert (.int ev.sockfd) (some ⟨ev⟩) (db.evs side).ht false none = some (ret, ht', [])) :
    addEvent ev side db =
      if ret = 0 then some (0, db.setEvset side ⟨ht', (db.evs side).fds⟩)
      else some (ev.sockfd, db.setEvset side ⟨ht', fdSet ev.sockfd (db.evs side).fds⟩) := by
  have hsafe : mclIntHashInsertSafe ev.sockfd (some ⟨ev⟩) (db.evs side).ht = some (ret, ht', []) := hins
  unfold addEvent
  rw [hneg, if_neg Bool.false_ne_true]
  simp only [hsafe, Option.bind_eq_bind, Option.bind_some]

theorem Sound.addEvent_cases (h : s.Sound) (ev : MclEvent) (side : Side) :
    addEvent ev side s.db = some (0, s.db) ∨
      (∃ ht', addEvent ev side s.db = some (0, s.db.setEvset side ⟨ht', s.fds side⟩) ∧
        Becomes (s.ht side) ht' (s.ht side).bucket ∧ Keeps (s.ht side) ht') ∨
      ∃ ht' i q, ev.sockfd.slt 0 = false ∧ addEvent ev side s.db =
          some (ev.sockfd, s.db.setEvset side ⟨ht', fdSet ev.sockfd (s.fds side)⟩) ∧
        bucketOf (.int ev.sockfd) = some i ∧ Room false (.int ev.sockfd) ((s.ht side).bucket i) ∧
        q.key = .int ev.sockfd ∧ q.val = some ⟨ev⟩ ∧
        Becomes (s.ht side) ht' (Function.update (s.ht side).bucket i (q :: (s.ht side).bucket i)) ∧
        Puts (s.ht side) ht' i q := by
  have ht := h.tables side
  have hvalid : (HashKey.int ev.sockfd).Valid := trivial
  cases hneg : ev.sockfd.slt 0 with
  | true => exact .inl (by rw [addEvent, if_pos hneg])
  | false =>
    rcases ht.wf.insertSafe_cases hvalid ht.keyType ⟨ev⟩ with ⟨ht', hins, -, hb, hk⟩ |
      ⟨ht', i, q, hins, hi, hroom, rfl, hb, hputs⟩
    · exact .inr (.inl ⟨ht', addEvent_of_insert hneg hins, hb, hk⟩)
    · exact .inr (.inr ⟨ht', i, _, rfl, addEvent_of_insert hneg hins, hi, hroom, rfl, rfl, hb, hputs⟩)

/-- `event_add_or_del` hands the event on to its side only. -/
theorem selectAdd_eq (hside : getEvset ev = some side) (db : SltEvdb) :
    selectAdd ev db = (addEvent ev side db).map fun (ret, db) =>
      if ret = 0 then (0, db)
      else (1, { db with nMaxfdn := if db.nMaxfdn.slt ret then ret else db.nMaxfdn }) := by
  have hexp := exp_of_getEvset hside
  simp only [selectAdd, hside, hexp, if_false]
  cases addEvent ev side db with
  | none => rfl
  | some r =>
    simp only [Option.bind_eq_bind, Option.bind_some, Option.map_some]
    split <;> rfl

/-- `n_maxfdn` after an add that has stored its event. -/
def raised (ev : MclEvent) (nMaxfdn : BitVec 32) : BitVec 32 :=
  if ev.sockfd = 0 then nMaxfdn else if nMaxfdn.slt ev.sockfd then ev.sockfd else nMaxfdn

theorem add_zero (hside : getEvset ev = some side) {db : SltEvdb}
    (hadd : addEvent ev side s.db = some (0, db)) : s.add ev = (.ret 0, { s.handOver ev with db := db }) := by
  simp only [add, selectAdd_eq hside, hadd, Option.map_some, if_true]

theorem add_sockfd (hside : getEvset ev = some side) {db : SltEvdb}
    (hadd : addEvent ev side s.db = some (ev.sockfd, db)) :
    s.add ev = (.ret (if ev.sockfd = 0 then 0 else 1),
      { s.handOver ev with db := { db with nMaxfdn := raised ev db.nMaxfdn } }) := by
  simp only [add, selectAdd_eq hside, hadd, Option.map_some, raised]
  by_cases hr : ev.sockfd = 0
  · simp only [hr, if_true]
  · simp only [hr, if_false]

theorem Sound.add_calls (h : s.Sound) (hpass : s.passable ev = true)
    (hrel : ∀ node ∈ s.releasing, node.ev.addr ≠ ev.addr) :
    ∃ ret s' c, s.add ev = (.ret ret, s') ∧ Calls s s' c ∧
      (c = .keeps ∧ ret = 0 ∧ s'.db.nMaxfdn = s.db.nMaxfdn ∨
        ∃ side, getEvset ev = some side ∧ c = .adds side ev ∧ ret = (if ev.sockfd = 0 then 0 else 1) ∧
          s'.db.nMaxfdn = raised ev s.db.nMaxfdn) := by
  have hadded := added_handOver hpass hrel
  cases hside : getEvset ev with
  | none =>
    exact ⟨0, s.handOver ev, .keeps, by simp only [add, selectAdd, hside]; rfl,
      ⟨h.keepsSelf rfl (.refl _), rfl, rfl, hadded, h.frames⟩, .inl ⟨rfl, rfl, rfl⟩⟩
  | some side =>
    rcases h.addEvent_cases ev side with hadd | ⟨ht', hadd, hb, hk⟩ |
        ⟨ht', i, q, hnneg, hadd, hi, hroom, hkey, hval, hb, hputs⟩
    · exact ⟨_, _, .keeps, add_zero hside hadd,
        ⟨h.keepsSelf rfl (.refl _), rfl, rfl, hadded, h.frames⟩, .inl ⟨rfl, rfl, rfl⟩⟩
    · exact ⟨_, _, .keeps, add_zero hside hadd,
        ⟨.keeps rfl (Finset.Subset.refl _) (fun _ hfd _ => hfd) hb hk (.refl _), rfl, rfl, hadded, h.frames⟩,
        .inl ⟨rfl, rfl, rfl⟩⟩
    · have hfresh := h.fresh_of_room hpass hrel hside hi hroom
      exact ⟨_, _, .adds side ev, add_sockfd hside hadd,
        ⟨.adds rfl hb hputs hi hroom hkey hval hside hnneg hfresh (.refl _), rfl, rfl, hadded, h.frames⟩,
        .inr ⟨side, rfl, rfl, rfl, rfl⟩⟩

/-! Deleting. -/

theorem delEvent_notSet (hno : arg.sockfd.slt 0 = true ∨ arg.sockfd ∉ s.fds side) :
    delEvent arg side s.db = some (0, s.db, []) := by
  unfold delEvent
  by_cases hneg : arg.sockfd.slt 0 = true
  · rw [if_pos hneg]
  · have hmem : fdIsset arg.sockfd (s.db.evs side).fds = false :=
      decide_eq_false (hno.resolve_left hneg)
    rw [if_neg hneg]
    simp [hmem]

theorem delEvent_set (hneg : arg.sockfd.slt 0 = false) (hset : arg.sockfd ∈ s.fds side)
    (htype : (s.ht side).keyType = .int) {r : ℤ × Hash SltHtNode SltFreeFn × Freed SltFreeFn SltHtNode}
    (hdel : hashDelete (calcHash (.int arg.sockfd)) (.int arg.sockfd) (s.ht side) (some .eventHtFree) = r) :
    delEvent arg side s.db =
      some (r.1, s.db.setEvset side ⟨r.2.1, fdClr arg.sockfd (s.fds side)⟩, r.2.2) := by
  have hisset : fdIsset arg.sockfd (s.db.evs side).fds = true := decide_eq_true hset
  have hmcl : mclIntHashDelete arg.sockfd (s.db.evs side).ht (some .eventHtFree) = some r := by
    rw [← hdel]
    change ((guard ((s.ht side).keyType = .int) : Option Unit)).bind _ = _
    rw [htype]
    rfl
  simp only [delEvent, hneg, hisset, hmcl, Bool.not_true, Bool.false_eq_true, if_false,
    Option.bind_eq_bind, Option.bind_some]
  rfl

theorem delRest_eq (hexp : arg.evType &&& mclEvExp ≠ 0) (ret : ℤ) (s : SelectState) :
    s.delRest arg ret = if s.isFreed arg then s.fault .eventAddOrDel else (.ret ret, s) := by
  simp only [delRest, hexp, if_false]

/-- The state in which a delete has taken the event out of its table. -/
def taken (arg : MclEvent) (side : Side) (ht : Hash SltHtNode SltFreeFn) (s : SelectState) :
    SelectState :=
  { s with db := s.db.setEvset side ⟨ht, fdClr arg.sockfd (s.fds side)⟩ }

theorem del_notSet (hside : getEvset arg = some side) (hpass : s.passable arg = true)
    (hno : arg.sockfd.slt 0 = true ∨ arg.sockfd ∉ s.fds side) : s.del arg = (.ret 0, s) := by
  simp only [del, hside, delFrom, delEvent_notSet hno, delRest_eq (exp_of_getEvset hside),
    not_isFreed_of_passable hpass]
  rfl

theorem Sound.del_absent (h : s.Sound) (hside : getEvset arg = some side) (hpass : s.passable arg = true)
    (hneg : arg.sockfd.slt 0 = false) (hset : arg.sockfd ∈ s.fds side)
    (hstored : (s.ht side).stored (.int arg.sockfd) = none) :
    s.del arg = (.ret 0, s.taken arg side (s.ht side)) := by
  have ht := h.tables side
  have hdel := ht.wf.hashDelete_absent hstored (some SltFreeFn.eventHtFree)
  simp only [del, hside, delFrom, delEvent_set hneg hset ht.keyType hdel,
    delRest_eq (exp_of_getEvset hside)]
  exact if_neg (by simpa [isFreed] using not_isFreed_of_passable hpass)

/-- What a delete does with the event that it finds: either it frees it and returns, or it waits
for the cleanup callback. -/
theorem Sound.del_stored (h : s.Sound) (hside : getEvset arg = some side)
    (hneg : arg.sockfd.slt 0 = false) (hset : arg.sockfd ∈ s.fds side)
    (hstored : (s.ht side).stored (.int arg.sockfd) = some p) :
    ∃ ht' i ev, p.val = some ⟨ev⟩ ∧ ev.sockfd = arg.sockfd ∧ p ∈ (s.ht side).bucket i ∧
      Becomes (s.ht side) ht'
        (Function.update (s.ht side).bucket i (dropUnder p.key ((s.ht side).bucket i))) ∧
      Removes (s.ht side) ht' i p ∧
      s.del arg = match eventHtFreeCall ⟨ev⟩ with
        | some call => (.call call,
            { s.taken arg side ht' with dels := ⟨arg, 1, ⟨ev⟩, false⟩ :: s.dels })
        | none => ((s.taken arg side ht').free ⟨ev⟩).delRest arg 1 := by
  have ht := h.tables side
  obtain ⟨i, hi, hu⟩ := mem_stored hstored
  have hp := (KeySame.mem_of_lookup hu).1
  obtain ⟨ev, hkey, hval, -, -⟩ := ht.stored i p hp
  obtain ⟨ht', hdel, hb, hrem⟩ := ht.wf.hashDelete_removes hi hu (some SltFreeFn.eventHtFree)
  have hsame : keyCmp (.int arg.sockfd) p.key = true := (KeySame.mem_of_lookup hu).2
  have hfd : ev.sockfd = arg.sockfd := by
    rw [hkey] at hsame
    exact (of_decide_eq_true hsame).symm
  have hfreed : s.isFreed ev = false := h.not_isFreed (mem_events ht.wf hp hval)
  refine ⟨ht', i, ev, hval, hfd, hp, ?_, hrem, ?_⟩
  · rwa [hkey, hfd]
  · have hdelEvent := delEvent_set hneg hset ht.keyType hdel
    have hdestroy : destroyPair p (some SltFreeFn.eventHtFree) = [(.eventHtFree, ⟨ev⟩)] := by
      simp only [destroyPair, callFree, hval]
    rw [hdestroy] at hdelEvent
    have hfreed' : (s.taken arg side ht').isFreed ev = false := hfreed
    unfold del
    rw [hside]
    dsimp only
    unfold delFrom
    rw [hdelEvent]
    change (s.taken arg side ht').eventHtFree _ _ _ = _
    unfold eventHtFree
    rw [if_neg (by rw [hfreed']; exact Bool.false_ne_true)]
    cases eventHtFreeCall ⟨ev⟩ <;> rfl

theorem free_gone (node : SltHtNode) (s : SelectState) : (s.free node).gone.Perm (node.ev :: s.gone) :=
  List.perm_middle

/-- What a call makes of a state, if it does not read its argument after freeing it. -/
def Yields (r : Shown × SelectState) (s : SelectState) : Prop :=
  r.2 = s ∨ r = s.fault .eventAddOrDel

theorem yields_delRest (hexp : arg.evType &&& mclEvExp ≠ 0) (ret : ℤ) (s : SelectState) :
    Yields (s.delRest arg ret) s := by
  rw [delRest_eq hexp]
  split
  · exact .inr rfl
  · exact .inl rfl

theorem Sound.del_calls (h : s.Sound) (hpass : s.passable arg = true) :
    ∃ s' c, Calls s s' c ∧ Yields (s.del arg) s' ∧
      (c = .keeps ∨ ∃ side ev, c = .removes side ev ∧ getEvset arg = some side ∧
        ev.sockfd = arg.sockfd ∧ arg.sockfd ∈ s.fds side) := by
  have hstay : Calls s s .keeps := ⟨h.keepsSelf rfl (.refl _), rfl, rfl, fun _ => .inl, h.frames⟩
  cases hside : getEvset arg with
  | none => exact ⟨s, .keeps, hstay, .inl (by simp only [del, hside]), .inl rfl⟩
  | some side =>
    by_cases hno : arg.sockfd.slt 0 = true ∨ arg.sockfd ∉ s.fds side
    · exact ⟨s, .keeps, hstay, .inl (by rw [del_notSet hside hpass hno]), .inl rfl⟩
    · rw [not_or, not_not, Bool.not_eq_true] at hno
      obtain ⟨hneg, hset⟩ := hno
      have hexp := exp_of_getEvset hside
      cases hstored : (s.ht side).stored (.int arg.sockfd) with
      | none =>
        refine ⟨s.taken arg side (s.ht side), .keeps, ⟨?_, rfl, rfl, fun _ => .inl, h.frames⟩,
          .inl (by rw [h.del_absent hside hpass hneg hset hstored]), .inl rfl⟩
        refine .keeps rfl (Finset.erase_subset _ _) ?_ (h.tables side).wf.keep (.refl _) (.refl _)
        intro fd hfd hfound
        refine Finset.mem_erase.mpr ⟨?_, hfd⟩
        rintro rfl
        exact hfound hstored
      | some p =>
        obtain ⟨ht', i, ev, hval, hfd, hp, hb, hrem, hdel⟩ := h.del_stored hside hneg hset hstored
        have hkept : ∀ fd ∈ s.fds side, fd ≠ ev.sockfd → fd ∈ fdClr arg.sockfd (s.fds side) :=
          fun fd hmem hne => Finset.mem_erase.mpr ⟨hfd ▸ hne, hmem⟩
        rw [hdel]
        cases hcall : eventHtFreeCall ⟨ev⟩ with
        | some call =>
          refine ⟨{ s.taken arg side ht' with dels := ⟨arg, 1, ⟨ev⟩, false⟩ :: s.dels },
            .removes side ev, ⟨?_, rfl, rfl, fun _ => .inl, ?_⟩, .inl rfl, .inr ⟨side, ev, rfl, rfl, hfd, hset⟩⟩
          · exact .removes rfl (Finset.erase_subset _ _) hkept hb hrem hp hval (.refl _)
          · intro frame hframe
            rcases List.mem_cons.mp hframe with rfl | hframe
            · exact ⟨rfl, rfl, hexp⟩
            · exact h.frames frame hframe
        | none =>
          refine ⟨(s.taken arg side ht').free ⟨ev⟩, .removes side ev, ⟨?_, rfl, rfl, fun _ => .inl, h.frames⟩,
            yields_delRest hexp 1 _, .inr ⟨side, ev, rfl, rfl, hfd, hset⟩⟩
          exact .removes rfl (Finset.erase_subset _ _) hkept hb hrem hp hval (free_gone _ _)

/-- A cleanup callback called by a delete returns. -/
theorem Sound.delResume_calls (h : s.Sound) {frame : DelFrame} {dels : List DelFrame}
    (hdels : s.dels = frame :: dels) :
    ∃ s', Calls s s' .keeps ∧ Yields ({ s with dels := dels }.delResume frame) s' := by
  have hframe := h.frames frame (by simp [hdels])
  refine ⟨{ s with dels := dels }.free frame.node, ⟨?_, rfl, rfl, fun _ => .inl, ?_⟩, ?_⟩
  · refine h.keepsSelf rfl ((free_gone _ _).trans ?_)
    rw [gone, gone, releasing, releasing, hdels]
    exact .refl _
  · exact fun f hf => h.frames f (by rw [hdels]; exact List.mem_cons_of_mem _ hf)
  · simp only [delResume, hframe.inExp]
    exact yields_delRest hframe.exp _ _

/-! The steps. -/

/-- The changes that a step of the user may make. -/
def Change.By (s : SelectState) : SelectStep → Change → Prop
  | _, .keeps => True
  | .add ev, .adds side ev' => ev' = ev ∧ getEvset ev = some side
  | .del arg, .removes side ev =>
    getEvset arg = some side ∧ ev.sockfd = arg.sockfd ∧ arg.sockfd ∈ s.fds side
  | _, _ => False

/-- A step of the loop. -/
inductive LoopStep (s : SelectState) : SelectStep → Shown × SelectState → Prop where
  | loop (tval : Option Timeval) (hplace : s.place = .main) : LoopStep s (.loop tval) (s.loop tval)
  | called {side : Side} {it : HashIter SltHtNode} {sockfd : BitVec 32} {ev : MclEvent}
      (hplace : s.place = .callback side it sockfd ev) (hdels : s.dels = []) :
      LoopStep s .ret (s.handleCalled side it sockfd ev (side = .expEvs))
  | cleaned {side : Side} {it : HashIter SltHtNode} {sockfd : BitVec 32} {node : SltHtNode}
      (hplace : s.place = .cleanup side it sockfd node) (hdels : s.dels = []) :
      LoopStep s .ret ((s.free node).handleErased side it sockfd)
  | polled (r : PollResult) (left : Timeval) (hplace : s.place = .poll) :
      LoopStep s (.polled r left) (s.polled r left)
  | handle {side : Side} {it : HashIter SltHtNode} (hplace : s.place = .scan side it) :
      LoopStep s .handle (s.handleOne side it)

/-- A step of the user. -/
inductive UserStep (s : SelectState) : SelectStep → Shown × SelectState → Prop where
  | add {ev : MclEvent} (huser : s.inUser = true) (hpass : s.passable ev = true)
      (hrel : ∀ node ∈ s.releasing, node.ev.addr ≠ ev.addr) : UserStep s (.add ev) (s.add ev)
  | del {arg : MclEvent} (huser : s.inUser = true) (hpass : s.passable arg = true) :
      UserStep s (.del arg) (s.del arg)
  | loopexit (huser : s.inUser = true) : UserStep s .loopexit (.nothing, { s with termFlag := true })
  | ret {frame : DelFrame} {dels : List DelFrame} (huser : s.inUser = true) (hdels : s.dels = frame :: dels) :
      UserStep s .ret ({ s with dels := dels }.delResume frame)

theorem exec_inv {l : SelectStep} {r : Shown × SelectState} (he : s.exec l = some r) :
    UserStep s l r ∨ LoopStep s l r := by
  cases l with
  | add ev =>
    simp only [exec] at he
    split at he
    · next hok =>
      obtain rfl := Option.some.inj he
      exact .inl (.add hok.1 hok.2.1 hok.2.2)
    · exact absurd he (by simp)
  | del arg =>
    simp only [exec] at he
    split at he
    · next hok =>
      obtain rfl := Option.some.inj he
      exact .inl (.del hok.1 hok.2)
    · exact absurd he (by simp)
  | loopexit =>
    simp only [exec] at he
    split at he
    · next huser =>
      obtain rfl := Option.some.inj he
      exact .inl (.loopexit huser)
    · exact absurd he (by simp)
  | loop tval =>
    simp only [exec] at he
    split at he
    · next hok =>
      obtain rfl := Option.some.inj he
      exact .inr (.loop tval hok.1)
    · exact absurd he (by simp)
  | ret =>
    simp only [exec] at he
    split at he
    · next frame dels hdels =>
      split at he
      · next huser =>
        obtain rfl := Option.some.inj he
        exact .inl (.ret huser hdels)
      · exact absurd he (by simp)
    · next hdels hplace =>
      obtain rfl := Option.some.inj he
      exact .inr (.called hplace hdels)
    · next hdels hplace =>
      obtain rfl := Option.some.inj he
      exact .inr (.cleaned hplace hdels)
    · exact absurd he (by simp)
  | polled r left =>
    simp only [exec] at he
    split at he
    · next hok =>
      obtain rfl := Option.some.inj he
      exact .inr (.polled r left hok.1)
    · exact absurd he (by simp)
  | handle =>
    simp only [exec] at he
    split at he
    · next hplace =>
      obtain rfl := Option.some.inj he
      exact .inr (.handle hplace)
    · exact absurd he (by simp)

theorem exec_add {r : Shown × SelectState} (he : s.exec (.add ev) = some r) :
    s.passable ev = true ∧ (∀ node ∈ s.releasing, node.ev.addr ≠ ev.addr) ∧ r = s.add ev := by
  rcases exec_inv he with hs | hs
  · cases hs with
    | add huser hpass hrel => exact ⟨hpass, hrel, rfl⟩
  · cases hs

theorem UserStep.inUser {l : SelectStep} {r : Shown × SelectState} (hs : UserStep s l r) :
    s.inUser = true := by
  cases hs with
  | add huser _ _ => exact huser
  | del huser _ => exact huser
  | loopexit huser => exact huser
  | ret huser _ => exact huser

theorem Sound.user_calls (h : s.Sound) {l : SelectStep} {r : Shown × SelectState}
    (hs : UserStep s l r) : ∃ s' c, Calls s s' c ∧ c.By s l ∧ Yields r s' := by
  cases hs with
  | add huser hpass hrel =>
    obtain ⟨ret, s', c, hadd, hcalls, hc⟩ := h.add_calls hpass hrel
    refine ⟨s', c, hcalls, ?_, .inl (by rw [hadd])⟩
    rcases hc with ⟨rfl, -, -⟩ | ⟨side, hside, rfl, -, -⟩
    · trivial
    · exact ⟨rfl, hside⟩
  | del huser hpass =>
    obtain ⟨s', c, hcalls, hyields, hc⟩ := h.del_calls hpass
    refine ⟨s', c, hcalls, ?_, hyields⟩
    rcases hc with rfl | ⟨side, ev, rfl, hby⟩
    · trivial
    · exact hby
  | loopexit huser =>
    exact ⟨{ s with termFlag := true }, .keeps,
      ⟨h.keepsSelf rfl (.refl _), rfl, rfl, fun _ => .inl, h.frames⟩, trivial, .inl rfl⟩
  | ret huser hdels =>
    obtain ⟨s', hcalls, hyields⟩ := h.delResume_calls hdels
    exact ⟨s', .keeps, hcalls, trivial, hyields⟩

theorem Sound.exec_cases (h : s.Sound) {l : SelectStep} {r : Shown × SelectState}
    (he : s.exec l = some r) :
    (∃ s' c, Calls s s' c ∧ c.By s l ∧ Yields r s') ∨ LoopStep s l r :=
  (exec_inv he).imp_left h.user_calls

end SelectState
end Mcl
