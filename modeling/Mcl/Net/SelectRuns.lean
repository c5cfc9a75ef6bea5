import Mcl.Net.SelectCalls

/-! Every state that a run of the select backend reaches is sound. -/
namespace Mcl
open Mcl.Library Mcl.Hash

namespace SelectState

variable {s s' : SelectState} {side : Side} {it : HashIter SltHtNode} {sockfd : BitVec 32}
  {ev : MclEvent} {fds' : FdSet}

theorem gone_sublist (hdels : s'.dels = s.dels) (hfreed : s'.freed = s.freed)
    (hplace : s'.place.nodes = []) : s'.gone.Sublist s.gone := by
  simp only [gone, releasing, hdels, hfreed, hplace, List.append_nil, List.map_append]
  exact List.Sublist.append_right (List.sublist_append_left _ _) _

theorem gone_cleanup {node : SltHtNode} (hplace : s.place.nodes = []) :
    { s with place := .cleanup side it sockfd node }.gone.Perm (node.ev :: s.gone) := by
  simp only [gone, releasing, hplace, List.append_nil]
  rw [List.map_append, List.append_assoc]
  exact List.perm_middle

theorem ht_setFds : (s.setEvset side { s.db.evs side with fds := fds' }).ht = s.ht := by
  rw [ht_of_evs (s := s) rfl]
  exact Function.update_eq_self _ _

theorem fds_setFds (s : SelectState) (side : Side) (fds' : FdSet) :
    (s.setEvset side { s.db.evs side with fds := fds' }).fds = Function.update s.fds side fds' :=
  fds_of_evs rfl

theorem initFds_ht {e e' : EvSet} (h : initFds e = some e') : e'.ht = e.ht := by
  simp only [initFds, Option.bind_eq_bind, Option.bind_eq_some_iff, Option.some.injEq] at h
  obtain ⟨keys, -, rfl⟩ := h
  rfl

theorem mem_foldl_fdSetKey {keys : List (Option HashKey)} {fds : FdSet} {fd : BitVec 32} :
    fd ∈ keys.foldl fdSetKey fds ↔ fd ∈ fds ∨ some (.int fd) ∈ keys := by
  induction keys generalizing fds with
  | nil => simp
  | cons key keys ih =>
    rw [List.foldl_cons, ih]
    rcases key with _ | fd' | str
    · simp [fdSetKey]
    · simp only [fdSetKey, fdSet, Finset.mem_insert, List.mem_cons, Option.some.injEq,
        HashKey.int.injEq, or_left_comm, or_assoc]
    · simp [fdSetKey]

/-- `MCL_FOREACH` visits every pair. -/
theorem foreachKeys_eq {ht : Hash SltHtNode SltFreeFn} (h : TableSound side ht) :
    foreachKeys ht = some (ht.pairs.map fun p => some p.key) := by
  obtain ⟨it, hhead, ha⟩ := h.wf.iterHead_ahead Iter.initializer
  have hloop := h.wf.foreachLoop_eq ha (ht.pairs.length + 1)
  rw [if_pos (Nat.lt_succ_self _)] at hloop
  simp [foreachKeys, hashForeach, hhead, hloop]

/-- `init_fds` ends, and sets exactly the descriptors in the table. -/
theorem initFds_spec {e : EvSet} (h : TableSound side e.ht) :
    ∃ fds, initFds e = some { e with fds := fds } ∧
      ∀ fd, fd ∈ fds ↔ e.ht.stored (.int fd) ≠ none := by
  have hkeys := foreachKeys_eq h
  refine ⟨(e.ht.pairs.map fun p => some p.key).foldl fdSetKey ∅, by simp [initFds, hkeys], fun fd => ?_⟩
  rw [mem_foldl_fdSetKey, Option.ne_none_iff_exists']
  simp only [Finset.notMem_empty, false_or, List.mem_map, Option.some.injEq, h.stored_iff, h.wf.mem_pairs]

/-- At the call of `select` the sets hold what the tables hold. -/
theorem Sound.initAll_spec (h : s.Sound) :
    ∃ s', s.initAll = some s' ∧ ∀ side fd, fd ∈ s'.fds side ↔ (s.ht side).stored (.int fd) ≠ none := by
  obtain ⟨fds₁, h₁, hin⟩ := initFds_spec (h.tables .inEvs)
  obtain ⟨fds₂, h₂, hout⟩ := initFds_spec (h.tables .outEvs)
  obtain ⟨fds₃, h₃, hexp⟩ := initFds_spec (h.tables .expEvs)
  simp only [initAll, h₁, h₂, h₃, Option.bind_eq_bind, Option.bind_some]
  refine ⟨_, rfl, fun side => ?_⟩
  cases side with
  | inEvs => exact hin
  | outEvs => exact hout
  | expEvs => exact hexp

/-- `init_fds` writes the sets only. -/
theorem initAll_ht (h : s.initAll = some s') : s'.ht = s.ht ∧ s' = { s with db := s'.db } := by
  simp only [initAll, Option.bind_eq_bind, Option.bind_eq_some_iff, Option.some.injEq] at h
  obtain ⟨e₁, h₁, e₂, h₂, e₃, h₃, rfl⟩ := h
  refine ⟨?_, rfl⟩
  funext x
  cases x with
  | inEvs => exact initFds_ht h₁
  | outEvs => exact initFds_ht h₂
  | expEvs => exact initFds_ht h₃

namespace Sound

theorem atPlace (h : s.Sound) {place : Place} (hplace : place.nodes = []) :
    { s with place := place }.Sound :=
  h.of_eq rfl rfl (gone_sublist rfl rfl hplace)

theorem yields {r : Shown × SelectState} (h : s.Sound) (hr : Yields r s) : r.2.Sound := by
  rcases hr with hr | hr
  · rwa [hr]
  · rw [hr]
    exact h.atPlace rfl

theorem loopHead (h : s.Sound) : s.loopHead.2.Sound := by
  unfold SelectState.loopHead
  split
  · exact h.atPlace rfl
  · split
    · exact h.atPlace rfl
    · next s₁ hinit =>
      obtain ⟨hht, heq⟩ := initAll_ht hinit
      have hdels : s₁.dels = s.dels := by rw [heq]
      have hfreed : s₁.freed = s.freed := by rw [heq]
      exact h.of_eq hht hdels (gone_sublist hdels hfreed rfl)

theorem handleEvents (h : s.Sound) (side : Side) : (s.handleEvents side).2.Sound := by
  unfold SelectState.handleEvents
  split
  · exact h.atPlace rfl
  · exact h.atPlace rfl

theorem handleReturn (h : s.Sound) (side : Side) : (s.handleReturn side).2.Sound := by
  cases side with
  | inEvs => exact h.handleEvents .outEvs
  | outEvs => exact h.handleEvents .expEvs
  | expEvs => exact h.loopHead

theorem handleNext (h : s.Sound) : (s.handleNext side it).2.Sound := by
  unfold SelectState.handleNext
  split
  · exact h.atPlace rfl
  · exact h.atPlace rfl

theorem handleErased (h : s.Sound) : (s.handleErased side it sockfd).2.Sound :=
  h.of_eq ht_setFds rfl (gone_sublist rfl rfl rfl)

/-- An erase through any iterator value. -/
theorem handleErase (h : s.Sound) (hplace : s.place.nodes = []) :
    (s.handleErase side it sockfd).2.Sound := by
  have ht := h.tables side
  unfold SelectState.handleErase
  cases herase : defHashIterErase it (s.ht side) with
  | none => exact h.atPlace rfl
  | some r =>
    obtain ⟨it', ht', freed⟩ := r
    rcases ht.wf.defHashIterErase_removes herase with ⟨rfl, rfl⟩ | ⟨i, p, hp, rfl, hrem, hb⟩
    · have hsame : (s.setHt side (s.ht side)).Sound :=
        h.of_eq (by rw [ht_of_evs (s := s) rfl]; exact Function.update_eq_self _ _) rfl (.refl _)
      exact hsame.handleErased
    · obtain ⟨ev, -, hval, -, -⟩ := ht.stored i p hp
      have hdestroy : destroyPair p (s.ht side).eraseFn = [(.eventHtFree, ⟨ev⟩)] := by
        simp only [destroyPair, callFree, hval, ht.eraseFn]
      have hfreed : (s.setHt side ht').isFreed ev = false := h.not_isFreed (mem_events ht.wf hp hval)
      have hremoves : ∀ s' : SelectState, s'.db = (s.setHt side ht').db → s'.dels = s.dels →
          s'.gone.Perm (ev :: s.gone) → s'.Sound := fun s' hdb hdels hgone =>
        h.effect (.removes (congrArg SltEvdb.evs hdb) (Finset.Subset.refl _) (fun _ hfd _ => hfd)
          hb hrem hp hval hgone) (hdels ▸ h.frames)
      rw [hdestroy]
      dsimp only
      unfold eventHtFree
      rw [if_neg (by rw [hfreed]; exact Bool.false_ne_true)]
      cases eventHtFreeCall ⟨ev⟩ with
      | some call =>
        exact hremoves _ rfl rfl (gone_cleanup (s := s.setHt side ht') hplace)
      | none => exact (hremoves ((s.setHt side ht').free ⟨ev⟩) rfl rfl (free_gone _ _)).handleErased

theorem handleCalled (h : s.Sound) (hplace : s.place.nodes = []) (err : Bool) :
    (s.handleCalled side it sockfd ev err).2.Sound := by
  unfold SelectState.handleCalled
  split
  · exact h.atPlace rfl
  · split
    · exact h.handleErase hplace
    · exact h.handleNext

theorem handleOne (h : s.Sound) (hplace : s.place.nodes = []) : (s.handleOne side it).2.Sound := by
  unfold SelectState.handleOne
  split
  · exact h.handleReturn side
  split
  · exact h.atPlace rfl
  split
  · split
    · dsimp only
      split
      · exact h.atPlace rfl
      · split
        · exact h.atPlace rfl
        · exact h.handleCalled hplace false
    · exact h.handleNext
  · exact h.atPlace rfl

theorem polled (h : s.Sound) (r : PollResult) (left : Timeval) : (s.polled r left).2.Sound := by
  have htval : (if s.timed then { s with tval := left } else s).Sound := by
    split
    · exact h.of_eq rfl rfl (.refl _)
    · exact h
  unfold SelectState.polled
  cases r with
  | ready sets => exact (htval.of_eq (t := setFds sets _) rfl rfl (.refl _)).handleEvents .inEvs
  | timeout => exact (htval.of_eq (t := setFds (fun _ => ∅) _) rfl rfl (.refl _)).loopHead
  | error => exact htval.atPlace rfl

theorem loopStep {l : SelectStep} {r : Shown × SelectState} (h : s.Sound) (hs : LoopStep s l r) :
    r.2.Sound := by
  cases hs with
  | loop tval hplace =>
    exact (h.of_eq (t := { s with tval := tval.getD s.tval, timed := tval.isSome }) rfl rfl (.refl _)).loopHead
  | called hplace hdels => exact h.handleCalled (by rw [hplace]; rfl) _
  | @cleaned side it sockfd node hplace hdels =>
    refine h.of_eq ht_setFds rfl ?_
    simp only [gone, releasing, free, hdels, hplace]
    exact .refl _
  | polled r left hplace => exact h.polled r left
  | handle hplace => exact h.handleOne (by rw [hplace]; rfl)

theorem exec (h : s.Sound) {l : SelectStep} {r : Shown × SelectState} (he : s.exec l = some r) :
    r.2.Sound := by
  rcases h.exec_cases he with ⟨s', c, hcalls, -, hyields⟩ | hs
  · exact (hcalls.sound h).yields hyields
  · exact h.loopStep hs

end Sound

theorem tableSound_init (side : Side) : TableSound side (init.ht side) := by
  obtain ⟨hwf, hbucket, hkeyType⟩ :=
    (wf_new (ν := SltHtNode) (φ := SltFreeFn) .int).mclHashCtrl_wf .registEraseFn (some .eventHtFree)
  refine ⟨hwf, hkeyType, rfl, ?_⟩
  intro i p hp
  change p ∈ (mclHashCtrl .registEraseFn (some SltFreeFn.eventHtFree) (Hash.new .int)).2.bucket i at hp
  rw [hbucket] at hp
  exact absurd hp List.not_mem_nil

theorem sound_init : init.Sound := by
  refine ⟨tableSound_init, ?_, fun frame hframe => absurd hframe List.not_mem_nil⟩
  have hevents : ∀ ev, ev ∉ init.storedEvents := by
    intro ev hev
    obtain ⟨side, -, hev⟩ := List.mem_flatMap.mp hev
    obtain ⟨p, hp, -⟩ := List.mem_filterMap.mp hev
    obtain ⟨i, -, hp⟩ := KeySame.mem_entries.mp hp
    exact absurd hp List.not_mem_nil
  rw [List.eq_nil_iff_forall_not_mem.mpr hevents]
  exact List.nodup_nil

/-- Whatever the callbacks do. -/
theorem sound_of_reach {ok : SelectState → SelectStep → Prop} {hist : List (SelectStep × Shown)}
    (hr : selectMachine.Reach ok hist s) : s.Sound :=
  hr.invariant sound_init fun _ _ _ _ h _ he => h.exec he

def Reachable (s : SelectState) : Prop := ∃ ops hist, selectMachine.run ops = some (hist, s)

theorem Reachable.sound (hs : s.Reachable) : s.Sound := by
  obtain ⟨ops, hist, hrun⟩ := hs
  exact sound_of_reach (Machine.reach_of_run hrun)

theorem Reachable.exec (hs : s.Reachable) {l : SelectStep} {shown : Shown} {t : SelectState}
    (he : s.exec l = some (shown, t)) : t.Reachable := by
  obtain ⟨ops, hist, hrun⟩ := hs
  exact ⟨ops ++ [l], _, Machine.runFrom_concat hrun he⟩

/-! The loop starts and ends no delete. -/

theorem loopHead_dels (s : SelectState) : s.loopHead.2.dels = s.dels := by
  unfold loopHead
  split
  · rfl
  · split
    · rfl
    · next hinit =>
      simp only [initAll, Option.bind_eq_bind, Option.bind_eq_some_iff, Option.some.injEq] at hinit
      obtain ⟨e₁, -, e₂, -, e₃, -, rfl⟩ := hinit
      rfl

theorem handleEvents_dels (side : Side) (s : SelectState) : (s.handleEvents side).2.dels = s.dels := by
  unfold handleEvents
  split <;> rfl

theorem handleNext_dels : (s.handleNext side it).2.dels = s.dels := by
  unfold handleNext
  split <;> rfl

theorem handleCalled_dels (err : Bool) : (s.handleCalled side it sockfd ev err).2.dels = s.dels := by
  unfold handleCalled
  split
  · rfl
  · split
    · unfold handleErase
      split
      · rfl
      · rfl
      · dsimp only
        unfold eventHtFree
        split
        · rfl
        · split <;> rfl
    · exact handleNext_dels

theorem handleOne_dels : (s.handleOne side it).2.dels = s.dels := by
  unfold handleOne
  split
  · cases side with
    | inEvs => exact handleEvents_dels _ _
    | outEvs => exact handleEvents_dels _ _
    | expEvs => exact loopHead_dels _
  · split
    · rfl
    · split
      · split
        · dsimp only
          split
          · rfl
          · split
            · rfl
            · exact handleCalled_dels false
        · exact handleNext_dels
      · rfl

theorem polled_dels (res : PollResult) (left : Timeval) : (s.polled res left).2.dels = s.dels := by
  have htval : (if s.timed then { s with tval := left } else s).dels = s.dels := by
    split <;> rfl
  unfold polled
  cases res with
  | ready sets => exact (handleEvents_dels _ _).trans htval
  | timeout => exact (loopHead_dels _).trans htval
  | error => exact htval

theorem loopStep_dels {l : SelectStep} {r : Shown × SelectState} (hs : LoopStep s l r) : r.2.dels = s.dels := by
  cases hs with
  | loop tval => exact loopHead_dels _
  | called => exact handleCalled_dels _
  | cleaned => rfl
  | polled => exact polled_dels _ _
  | handle => exact handleOne_dels

end SelectState

/-- A read event that stays registered when it fires. -/
def readEvent (addr : Addr) (sockfd : BitVec 32) : MclEvent :=
  { addr := addr, sockfd := sockfd, evType := mclEvRead ||| mclEvPersist, callback := some 0,
    cleanupCb := none, errorCb := none, uargs := none }

/-- A poll that reports descriptors as readable only. -/
def readable (fds : FdSet) : PollResult := .ready fun side => if side = .inEvs then fds else ∅

end Mcl
