import Mcl.Net.SelectRound

/-! The steps of the loop keep the round. -/
namespace Mcl
open Mcl.Library Mcl.Hash

namespace SelectState

variable {reports dangles : Prop} {s : SelectState} {side : Side} {it : HashIter SltHtNode}
  {sockfd : BitVec 32} {ev : MclEvent} {p : HashPair SltHtNode} {ps : List (HashPair SltHtNode)}

theorem holds_of_ahead {ht : Hash SltHtNode SltFreeFn} (ha : Ahead ht it (p :: ps)) :
    holds ht it = true := by
  cases ha with
  | @on i n list pre suf e p hin hl hents hp hptr hdata hu hcursor =>
    simp [holds, hcursor, hl, hents, hptr]

theorem holds_of_dangling {ht : Hash SltHtNode SltFreeFn} (hd : Dangling ht it) :
    it.isNull = false ∧ holds ht it = false := by
  obtain ⟨a, hptr, -, hfree⟩ := hd
  refine ⟨by simp [Iter.isNull, hptr], ?_⟩
  unfold holds
  cases hl : ht.tables it.cursor.toNat with
  | none => rfl
  | some list =>
    rw [nodes_of_tables hl] at hfree
    rw [List.any_eq_false]
    intro e he hc
    rw [beq_iff_eq, hptr, Option.some.injEq] at hc
    exact hfree e he hc.symm

theorem isNull_of_ahead {ht : Hash SltHtNode SltFreeFn} (ha : Ahead ht it []) : it.isNull = true := by
  cases ha with
  | done hnull => simp [Iter.isNull, hnull]

theorem iterVal_of_ahead {ht : Hash SltHtNode SltFreeFn} (ha : Ahead ht it (p :: ps))
    (hval : p.val = some ⟨ev⟩) : mclHashIterVal it = some (some ⟨ev⟩) := by
  rw [mclHashIterVal, ha.head.2, hval]

/-- Behind the last event. -/
theorem handleOne_done (ha : Ahead (s.ht side) it []) : s.handleOne side it = s.handleReturn side := by
  unfold SelectState.handleOne
  rw [if_pos (isNull_of_ahead ha)]

/-- A dangling iterator is noticed before its key is read. -/
theorem handleOne_dangling (hd : Dangling (s.ht side) it) :
    s.handleOne side it = s.fault .handleEvents := by
  obtain ⟨hnull, hholds⟩ := holds_of_dangling hd
  unfold SelectState.handleOne
  simp only [hnull, Bool.false_eq_true, if_false, hholds, Bool.not_false, if_true]

namespace Sound

theorem val_of_ahead (h : s.Sound) (ha : Ahead (s.ht side) it (p :: ps)) : ∃ ev, p.val = some ⟨ev⟩ := by
  obtain ⟨i, hp⟩ := ha.mem List.mem_cons_self
  obtain ⟨ev, -, hval, -, -⟩ := (h.tables side).stored i p hp
  exact ⟨ev, hval⟩

theorem handleOne_ahead (h : s.Sound) (ha : Ahead (s.ht side) it (p :: ps)) (hval : p.val = some ⟨ev⟩) :
    s.handleOne side it =
      if fdIsset ev.sockfd (s.fds side) then
        match handler side ev with
        | some cb => (.call ⟨cb, ev.sockfd, handleType side, ev.uargs⟩,
            { s with place := .callback side it ev.sockfd ev })
        | none => s.handleCalled side it ev.sockfd ev false
      else s.handleNext side it := by
  obtain ⟨i, hp⟩ := ha.mem List.mem_cons_self
  have hfreed := h.not_isFreed (mem_events (h.tables side).wf hp hval)
  have hkey := h.key_of_ahead ha hval
  unfold SelectState.handleOne
  cases hcb : handler side ev <;>
    simp only [ha.head.1, Bool.false_eq_true, if_false, holds_of_ahead ha, Bool.not_true, hkey,
      iterVal_of_ahead ha hval, hfreed, hcb]

/-- `select` is called, or the loop ends. -/
theorem round_loopHead (h : s.Sound) : s.loopHead.2.Round reports dangles := by
  unfold SelectState.loopHead
  split
  · trivial
  · obtain ⟨s₁, hinit, -⟩ := h.initAll_spec
    simp only [hinit]
    trivial

theorem round_handleEvents (h : s.Sound)
    (hall : ∀ i, ∀ q ∈ (s.ht side).bucket i, s.Reported reports side q)
    (hw : s.Waiting reports side) : (s.handleEvents side).2.Round reports dangles := by
  obtain ⟨it, hhead, ha⟩ := (h.tables side).wf.iterHead_ahead Iter.initializer
  simp only [SelectState.handleEvents, hhead]
  refine ⟨.inl ⟨_, ha, fun q hq => ?_⟩, hw⟩
  obtain ⟨i, hi⟩ := ha.mem hq
  exact hall i q hi

theorem round_handleReturn (h : s.Sound) (hw : s.Waiting reports side) :
    (s.handleReturn side).2.Round reports dangles := by
  cases side with
  | inEvs =>
    apply h.round_handleEvents
    · exact hw .outEvs (by decide)
    · exact fun x hx => hw x (lt_trans (by decide) hx)
  | outEvs =>
    apply h.round_handleEvents
    · exact hw .expEvs (by decide)
    · exact fun x hx => hw x (lt_trans (by decide) hx)
  | expEvs => exact h.round_loopHead

/-- Right after the poll the sets hold what it reported. -/
theorem round_polled (h : s.Sound) (r : PollResult) (left : Timeval) :
    (s.polled r left).2.Round reports dangles := by
  have htval : (if s.timed then { s with tval := left } else s).Sound := by
    split
    · exact h.of_eq rfl rfl (.refl _)
    · exact h
  unfold SelectState.polled
  cases r with
  | ready sets =>
    apply (htval.of_eq (t := setFds sets _) rfl rfl (.refl _)).round_handleEvents
    · exact fun i q _ _ ev _ _ hset => ⟨hset, List.not_mem_nil⟩
    · exact fun x _ i q _ _ ev _ _ hset => ⟨hset, List.not_mem_nil⟩
  | timeout => exact (htval.of_eq (t := setFds (fun _ => ∅) _) rfl rfl (.refl _)).round_loopHead
  | error => trivial

theorem round_handleNext (h : s.Sound) (ha : Ahead (s.ht side) it (p :: ps))
    (hrep : ∀ q ∈ p :: ps, s.Reported reports side q) (hw : s.Waiting reports side) :
    (s.handleNext side it).2.Round reports dangles := by
  obtain ⟨it', hnext, ha'⟩ := (h.tables side).wf.iterNext_ahead ha
  simp only [SelectState.handleNext, hnext]
  exact ⟨.inl ⟨ps, ha', fun q hq => hrep q (List.mem_cons_of_mem _ hq)⟩, hw⟩

end Sound

/-- `FD_CLR` only makes a set smaller. -/
theorem round_handleErased (hcov : s.Covers reports dangles side it) (hw : s.Waiting reports side) :
    (s.handleErased side it sockfd).2.Round reports dangles := by
  have hfds : ∀ x, (s.setEvset side { s.db.evs side with fds := fdClr sockfd (s.fds side) }).fds x ⊆ s.fds x := by
    intro x
    rw [fds_setFds]
    by_cases hx : x = side
    · subst hx
      rw [Function.update_self]
      exact Finset.erase_subset _ _
    · rw [Function.update_of_ne hx]
  exact ⟨hcov.mono (congrFun ht_setFds side) (hfds side) rfl rfl, hw.mono ht_setFds hfds rfl rfl⟩

namespace Sound

theorem round_handleErase (h : s.Sound) (hon : s.On reports side it ev) (hw : s.Waiting reports side) :
    (s.handleErase side it sockfd).2.Round reports dangles := by
  obtain ⟨p, ps, ha, hval, hrep⟩ := hon
  have ht := h.tables side
  obtain ⟨it', ht', i, herase, hp, -, hb, ha'⟩ := ht.wf.defHashIterErase_ahead ha
  have hdestroy : destroyPair p (s.ht side).eraseFn = [(.eventHtFree, ⟨ev⟩)] := by
    simp only [destroyPair, callFree, hval, ht.eraseFn]
  have hfreed : (s.setHt side ht').isFreed ev = false := h.not_isFreed (mem_events ht.wf hp hval)
  have hht : (s.setHt side ht').ht = Function.update s.ht side ht' := ht_of_evs rfl
  have hfds : (s.setHt side ht').fds = s.fds :=
    (fds_of_evs rfl).trans (Function.update_eq_self side s.fds)
  have hcov : (s.setHt side ht').Covers reports dangles side it' := by
    refine .inl ⟨ps, ?_, fun q hq => ?_⟩
    · rw [hht, Function.update_self]
      exact ha'
    · exact (hrep q (List.mem_cons_of_mem _ hq)).mono (by rw [hfds]) rfl rfl
  have hw' : (s.setHt side ht').Waiting reports side := by
    intro x hx i q hq
    have hne : x ≠ side := by
      rintro rfl
      exact lt_irrefl _ hx
    rw [hht, Function.update_of_ne hne] at hq
    exact (hw x hx i q hq).mono (by rw [hfds]) rfl rfl
  unfold SelectState.handleErase
  rw [herase, hdestroy]
  dsimp only
  unfold eventHtFree
  rw [if_neg (by rw [hfreed]; exact Bool.false_ne_true)]
  cases eventHtFreeCall ⟨ev⟩ with
  | some call => exact ⟨hcov, hw'⟩
  | none => exact round_handleErased (s := (s.setHt side ht').free ⟨ev⟩) hcov hw'

/-- What the loop does with an event that is still in its table. -/
theorem round_handleCalled (h : s.Sound) (hon : s.On reports side it ev) (hw : s.Waiting reports side)
    (err : Bool) : (s.handleCalled side it sockfd ev err).2.Round reports dangles := by
  obtain ⟨p, ps, ha, hval, hrep⟩ := hon
  obtain ⟨i, hp⟩ := ha.mem List.mem_cons_self
  have hfreed := h.not_isFreed (mem_events (h.tables side).wf hp hval)
  unfold SelectState.handleCalled
  rw [if_neg (by rw [hfreed]; exact Bool.false_ne_true)]
  split
  · exact h.round_handleErase ⟨p, ps, ha, hval, hrep⟩ hw
  · exact h.round_handleNext ha hrep hw

theorem round_handleOne (h : s.Sound) (hcov : s.Covers reports dangles side it)
    (hw : s.Waiting reports side) : (s.handleOne side it).2.Round reports dangles := by
  rcases hcov with ⟨ps, ha, hrep⟩ | ⟨hd, hdangling⟩
  · cases ps with
    | nil =>
      rw [handleOne_done ha]
      exact h.round_handleReturn hw
    | cons p ps =>
      obtain ⟨ev, hval⟩ := h.val_of_ahead ha
      rw [h.handleOne_ahead ha hval]
      split
      · next hset =>
        split
        · next cb hcb =>
          refine ⟨rfl, fun hreports => ?_, .inl ⟨p, ps, ha, hval, hrep⟩, hw⟩
          apply hrep p List.mem_cons_self hreports ev hval
          · rw [hcb]
            exact Option.some_ne_none cb
          · exact of_decide_eq_true hset
        · exact h.round_handleCalled ⟨p, ps, ha, hval, hrep⟩ hw false
      · exact h.round_handleNext ha hrep hw
  · rw [handleOne_dangling hdangling]
    exact .inl hd

/-- A callback has returned. Where it has deleted its own event, that event is read. -/
theorem round_called (h : s.Sound) (hround : s.Round reports dangles)
    (hplace : s.place = .callback side it sockfd ev) (hdels : s.dels = []) (err : Bool) :
    (s.handleCalled side it sockfd ev err).2.Round reports dangles := by
  unfold Round at hround
  rw [hplace] at hround
  obtain ⟨-, -, hon | ⟨hd, hgone⟩, hw⟩ := hround
  · exact h.round_handleCalled hon hw err
  · simp only [gone, releasing, hdels, hplace, Place.nodes, List.map_nil, List.append_nil,
      List.nil_append] at hgone
    have hfreed : s.isFreed ev = true := List.any_eq_true.mpr ⟨ev, hgone, beq_self_eq_true _⟩
    unfold SelectState.handleCalled
    rw [if_pos hfreed]
    exact .inl hd

theorem round_loopStep {l : SelectStep} {r : Shown × SelectState} (h : s.Sound)
    (hround : s.Round reports dangles) (hs : LoopStep s l r) : r.2.Round reports dangles := by
  cases hs with
  | loop tval hplace =>
    exact (h.of_eq (t := { s with tval := tval.getD s.tval, timed := tval.isSome })
      rfl rfl (.refl _)).round_loopHead
  | called hplace hdels => exact h.round_called hround hplace hdels _
  | @cleaned side it sockfd node hplace hdels =>
    unfold Round at hround
    rw [hplace] at hround
    exact round_handleErased (s := s.free node) hround.1 hround.2
  | polled r left hplace => exact h.round_polled r left
  | @handle side it hplace =>
    unfold Round at hround
    rw [hplace] at hround
    exact h.round_handleOne hround.1 hround.2

end Sound
end SelectState
end Mcl
