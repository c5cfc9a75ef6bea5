import Mcl.Net.SelectMoves

/-! Which events leave the tables in a step, and which cleanup callbacks the step calls, while no
callback calls back into the library. -/
namespace Mcl
open Mcl.Library Mcl.Hash

namespace SelectState

variable {s s' : SelectState} {side : Side} {it : HashIter SltHtNode} {sockfd : BitVec 32}
  {ev arg : MclEvent} {frame : DelFrame} {dels : List DelFrame} {l : SelectStep} {r : Shown × SelectState}

/-- The events `left` leave the tables in a step, which shows their cleanup callbacks and no others. -/
structure Departs (s : SelectState) (r : Shown × SelectState) (left : List MclEvent) : Prop where
  stored : s.storedEvents.Perm (left ++ r.2.storedEvents)
  gone : r.2.gone.Perm (left ++ s.gone)
  shown : r.1.cleanup.toList = left.filterMap MclEvent.cleanupCall

theorem storedEvents_of_ht (hht : s'.ht = s.ht) : s'.storedEvents = s.storedEvents :=
  List.flatMap_congr fun x _ => events_of_ht (congrFun hht x)

theorem departs_nothing (hht : r.2.ht = s.ht) (hgone : r.2.gone.Perm s.gone) (hshown : r.1.cleanup = none) :
    Departs s r [] :=
  ⟨by rw [storedEvents_of_ht hht]; exact .refl _, hgone, by rw [hshown]; rfl⟩

theorem departs_same (hsame : Same s r.2) (hshown : r.1.cleanup = none) : Departs s r [] :=
  departs_nothing hsame.ht hsame.gone hshown

theorem Moves.departs (hm : Moves s r.2 (.removes side ev)) (hshown : r.1.cleanup = ev.cleanupCall) :
    Departs s r [ev] := by
  have hstored := hm.stored_removes
  cases hm with
  | removes hevents hother hgone =>
    refine ⟨hstored, hgone, ?_⟩
    rw [hshown]
    cases hcall : ev.cleanupCall with
    | none => rw [List.filterMap_cons_none hcall]; rfl
    | some call => rw [List.filterMap_cons_some hcall]; rfl

/-! The delete. -/

/-- What a delete does once its event is out of the table. Outside the loop there is no node that
`handle_events` is about to free. -/
theorem departs_delRest (hplace : s.place = .main) (hexp : arg.evType &&& mclEvExp ≠ 0) (ret : ℤ) :
    (s.delRest arg ret).2.ht = s.ht ∧ (s.delRest arg ret).2.gone = s.gone ∧
      (s.delRest arg ret).1.cleanup = none := by
  rw [delRest_eq hexp]
  split
  · refine ⟨rfl, ?_, rfl⟩
    simp only [fault, gone, releasing, hplace]
    rfl
  · exact ⟨rfl, rfl, rfl⟩

theorem Sound.departs_del (h : s.Sound) (hplace : s.place = .main) (hpass : s.passable arg = true) :
    ∃ left, Departs s (s.del arg) left := by
  cases hside : getEvset arg with
  | none =>
    refine ⟨[], departs_nothing ?_ ?_ ?_⟩ <;> simp only [del, hside]
    · exact .refl _
    · rfl
  | some side =>
    by_cases hno : arg.sockfd.slt 0 = true ∨ arg.sockfd ∉ s.fds side
    · rw [del_notSet hside hpass hno]
      exact ⟨[], departs_nothing rfl (.refl _) rfl⟩
    · rw [not_or, not_not, Bool.not_eq_true] at hno
      obtain ⟨hneg, hset⟩ := hno
      have hexp := exp_of_getEvset hside
      cases hstored : (s.ht side).stored (.int arg.sockfd) with
      | none =>
        rw [h.del_absent hside hpass hneg hset hstored]
        refine ⟨[], departs_nothing ?_ (.refl _) rfl⟩
        rw [ht_of_evs (s := s) rfl]
        exact Function.update_eq_self _ _
      | some p =>
        obtain ⟨ht', i, ev, hval, hfd, hp, hb, hrem, hdel⟩ := h.del_stored hside hneg hset hstored
        have hkept : ∀ fd ∈ s.fds side, fd ≠ ev.sockfd → fd ∈ fdClr arg.sockfd (s.fds side) :=
          fun fd hmem hne => Finset.mem_erase.mpr ⟨hfd ▸ hne, hmem⟩
        have hmoves : ∀ t : SelectState, t.db = (s.taken arg side ht').db → t.gone.Perm (ev :: s.gone) →
            Moves s t (.removes side ev) := fun t hdb hgone =>
          h.effect_moves (.removes (congrArg SltEvdb.evs hdb) (Finset.erase_subset _ _) hkept hb hrem hp hval hgone)
        rw [hdel]
        refine ⟨[ev], ?_⟩
        cases hcall : eventHtFreeCall ⟨ev⟩ with
        | some call =>
          have hmoved := hmoves { s.taken arg side ht' with dels := ⟨arg, 1, ⟨ev⟩, false⟩ :: s.dels } rfl (.refl _)
          exact hmoved.departs (r := (.call call, _)) ((cleanup_of_call hcall).trans hcall.symm)
        | none =>
          obtain ⟨hht, hgone, hshown⟩ :=
            departs_delRest (s := (s.taken arg side ht').free ⟨ev⟩) hplace hexp 1
          have hfree := (hmoves ((s.taken arg side ht').free ⟨ev⟩) rfl (free_gone _ _)).departs
            (r := (.nothing, _)) hcall.symm
          refine ⟨?_, hgone ▸ hfree.gone, ?_⟩
          · dsimp only
            rw [storedEvents_of_ht hht]
            exact hfree.stored
          · dsimp only
            rw [hshown]
            exact hfree.shown

theorem Sound.departs_delResume (h : s.Sound) (hplace : s.place = .main) (hdels : s.dels = frame :: dels) :
    Departs s ({ s with dels := dels }.delResume frame) [] := by
  have hframe := h.frames frame (by simp [hdels])
  have hgone : ({ s with dels := dels }.free frame.node).gone.Perm s.gone := by
    apply (free_gone _ _).trans
    rw [gone, gone, releasing, releasing, hdels]
    exact .refl _
  simp only [delResume, hframe.inExp, Bool.false_eq_true, if_false]
  obtain ⟨hht, hgone', hshown⟩ :=
    departs_delRest (s := { s with dels := dels }.free frame.node) hplace hframe.exp frame.ret
  exact departs_nothing hht (hgone' ▸ hgone) hshown

/-! The loop. -/

theorem handleType_ne (side : Side) : handleType side ≠ mclEvDel := by
  cases side <;> decide

theorem cleanup_loopHead (s : SelectState) : s.loopHead.1.cleanup = none := by
  unfold loopHead
  split
  · rfl
  · split <;> rfl

theorem cleanup_handleEvents (side : Side) (s : SelectState) : (s.handleEvents side).1.cleanup = none := by
  unfold handleEvents
  split <;> rfl

theorem cleanup_handleReturn (side : Side) (s : SelectState) : (s.handleReturn side).1.cleanup = none := by
  cases side with
  | inEvs => exact cleanup_handleEvents _ _
  | outEvs => exact cleanup_handleEvents _ _
  | expEvs => exact cleanup_loopHead _

theorem cleanup_handleNext : (s.handleNext side it).1.cleanup = none := by
  unfold handleNext
  split <;> rfl

theorem cleanup_polled (r : PollResult) (left : Timeval) (s : SelectState) :
    (s.polled r left).1.cleanup = none := by
  unfold polled
  cases r with
  | ready sets => exact cleanup_handleEvents _ _
  | timeout => exact cleanup_loopHead _
  | error => rfl

theorem Sound.departs_handleErase (h : s.Sound) (hon : s.On False side it ev) (hnodes : s.place.nodes = []) :
    Departs s (s.handleErase side it sockfd) [ev] := by
  apply (h.moves_handleErase hon hnodes).1.departs
  obtain ⟨it', ht', i, p, -, -, -, -, heq⟩ := h.handleErase_eq hon sockfd
  rw [heq]
  cases hcall : eventHtFreeCall ⟨ev⟩ with
  | some call => exact (cleanup_of_call hcall).trans hcall.symm
  | none => exact hcall.symm

/-- What the loop does with an event that is still in its table, once its callback is over. -/
theorem Sound.departs_handleCalled (h : s.Sound) (hon : s.On False side it ev) (hnodes : s.place.nodes = [])
    (err : Bool) : Departs s (s.handleCalled side it sockfd ev err)
      (if ev.evType &&& mclEvPersist = 0 ∨ err = true then [ev] else []) := by
  have hlive : s.isFreed ev = false := by
    obtain ⟨p, ps, ha, hval, -⟩ := hon
    obtain ⟨i, hp⟩ := ha.mem List.mem_cons_self
    exact h.not_isFreed (mem_events (h.tables side).wf hp hval)
  unfold SelectState.handleCalled
  rw [if_neg (by rw [hlive]; exact Bool.false_ne_true)]
  by_cases hfires : ev.evType &&& mclEvPersist = 0 ∨ err = true
  · rw [if_pos hfires, if_pos hfires]
    exact h.departs_handleErase hon hnodes
  · rw [if_neg hfires, if_neg hfires]
    exact departs_same (.handleNext hnodes) cleanup_handleNext

theorem Sound.departs_handleOne (h : s.Sound) (hcov : s.Covers False False side it)
    (hplace : s.place = .scan side it) : ∃ left, Departs s (s.handleOne side it) left := by
  have hnodes : s.place.nodes = [] := by rw [hplace]; rfl
  obtain ⟨ps, ha, hrep⟩ := hcov.resolve_right (fun hc => hc.1)
  cases ps with
  | nil =>
    rw [handleOne_done ha]
    exact ⟨[], departs_same (.handleReturn hnodes side) (cleanup_handleReturn side s)⟩
  | cons p ps =>
    obtain ⟨ev, hval⟩ := h.val_of_ahead ha
    rw [h.handleOne_ahead ha hval]
    split
    · split
      · exact ⟨[], departs_same (.goto hnodes rfl) (if_neg (handleType_ne side))⟩
      · exact ⟨_, h.departs_handleCalled ⟨p, ps, ha, hval, hrep⟩ hnodes false⟩
    · exact ⟨[], departs_same (.handleNext hnodes) cleanup_handleNext⟩

theorem Sound.departs_loopStep (h : s.Sound) (hround : s.Round False False) (hs : LoopStep s l r) :
    ∃ left, Departs s r left := by
  unfold Round at hround
  cases hs with
  | loop tval hplace =>
    have hnodes : s.place.nodes = [] := by rw [hplace]; rfl
    have htimed : Same s { s with tval := tval.getD s.tval, timed := tval.isSome } := ⟨rfl, .refl _, rfl⟩
    exact ⟨[], departs_same (htimed.trans (.loopHead hnodes)) (cleanup_loopHead _)⟩
  | @called side it sockfd ev hplace hdels =>
    rw [hplace] at hround
    obtain ⟨-, -, hon, -⟩ := hround
    exact ⟨_, h.departs_handleCalled (hon.resolve_right fun hgone => hgone.1) (by rw [hplace]; rfl) _⟩
  | @cleaned side it sockfd node hplace hdels =>
    refine ⟨[], departs_nothing ht_setFds ?_ rfl⟩
    simp only [gone, releasing, free, hdels, hplace]
    exact .refl _
  | polled r left hplace =>
    exact ⟨[], departs_same (.polled (by rw [hplace]; rfl) r left) (cleanup_polled r left s)⟩
  | @handle side it hplace =>
    rw [hplace] at hround
    exact h.departs_handleOne hround.1 hplace

end SelectState
end Mcl
