import Mcl.Net.SelectReentry

/-! Where an event goes: what every step of the select backend does with the events in the tables.
The loop takes out an event only when it has fired and does not persist. -/
namespace Mcl
open Mcl.Library Mcl.Hash

namespace SelectState

/-- The loop is about to erase the event: its callback is over, or it has none. -/
def Fires (s : SelectState) (side : Side) (ev : MclEvent) : Prop :=
  match s.place with
  | .callback pass _ _ e => pass = side ∧ e = ev ∧ (ev.evType &&& mclEvPersist = 0 ∨ side = .expEvs)
  | .scan pass it =>
    pass = side ∧ mclHashIterVal it = some (some ⟨ev⟩) ∧ handler side ev = none ∧
      ev.sockfd ∈ s.fds side ∧ ev.evType &&& mclEvPersist = 0
  | _ => False

variable {s s' s'' : SelectState} {side : Side} {it : HashIter SltHtNode} {sockfd : BitVec 32}
  {ev : MclEvent} {l : SelectStep} {r : Shown × SelectState}

/-- A step that touches no table. -/
structure Same (s s' : SelectState) : Prop where
  ht : s'.ht = s.ht
  gone : s'.gone.Perm s.gone
  max : s'.db.nMaxfdn = s.db.nMaxfdn

namespace Same

theorem trans (h : Same s s') (h' : Same s' s'') : Same s s'' :=
  ⟨h'.ht.trans h.ht, h'.gone.trans h.gone, h'.max.trans h.max⟩

theorem moves (h : Same s s') : Moves s s' .keeps :=
  .keeps (fun x => by rw [events_of_ht (congrFun h.ht x)]) h.gone

theorem goto {place : Place} (hnodes : s.place.nodes = []) (hplace : place.nodes = []) :
    Same s { s with place := place } := by
  refine ⟨rfl, ?_, rfl⟩
  simp only [SelectState.gone, releasing, hnodes, hplace]
  exact .refl _

theorem loopHead (hnodes : s.place.nodes = []) : Same s s.loopHead.2 := by
  unfold SelectState.loopHead
  split
  · exact goto hnodes rfl
  · split
    · exact goto hnodes rfl
    · next s₁ hinit =>
      -- `init_fds` writes only the sets
      have hht := (initAll_ht hinit).1
      simp only [initAll, Option.bind_eq_bind, Option.bind_eq_some_iff, Option.some.injEq] at hinit
      obtain ⟨e₁, -, e₂, -, e₃, -, rfl⟩ := hinit
      exact trans ⟨hht, .refl _, rfl⟩ (goto hnodes rfl)

theorem handleEvents (hnodes : s.place.nodes = []) (side : Side) : Same s (s.handleEvents side).2 := by
  unfold SelectState.handleEvents
  split
  · exact goto hnodes rfl
  · exact goto hnodes rfl

theorem handleReturn (hnodes : s.place.nodes = []) (side : Side) : Same s (s.handleReturn side).2 := by
  cases side with
  | inEvs => exact handleEvents hnodes .outEvs
  | outEvs => exact handleEvents hnodes .expEvs
  | expEvs => exact loopHead hnodes

theorem handleNext (hnodes : s.place.nodes = []) : Same s (s.handleNext side it).2 := by
  unfold SelectState.handleNext
  split
  · exact goto hnodes rfl
  · exact goto hnodes rfl

theorem handleErased (hnodes : s.place.nodes = []) : Same s (s.handleErased side it sockfd).2 := by
  have hclr : Same s (s.setEvset side { s.db.evs side with fds := fdClr sockfd (s.fds side) }) :=
    ⟨ht_setFds, .refl _, rfl⟩
  apply hclr.trans
  exact goto hnodes rfl

theorem polled (hnodes : s.place.nodes = []) (r : PollResult) (left : Timeval) :
    Same s (s.polled r left).2 := by
  have hsets : ∀ (t : SelectState) (sets : Side → FdSet), Same t (t.setFds sets) :=
    fun t sets => ⟨rfl, .refl _, rfl⟩
  have htval : Same s (if s.timed then { s with tval := left } else s) ∧
      (if s.timed then { s with tval := left } else s).place.nodes = [] := by
    split
    · exact ⟨⟨rfl, .refl _, rfl⟩, hnodes⟩
    · exact ⟨⟨rfl, .refl _, rfl⟩, hnodes⟩
  obtain ⟨hsame, hnodes'⟩ := htval
  unfold SelectState.polled
  cases r with
  | ready sets => exact hsame.trans ((hsets _ sets).trans (handleEvents (s := setFds sets _) hnodes' .inEvs))
  | timeout => exact hsame.trans ((hsets _ _).trans (loopHead (s := setFds _ _) hnodes'))
  | error => exact hsame.trans (goto hnodes' rfl)

end Same

theorem Moves.same {c : Change} (hm : Moves s s' c) (h : Same s' s'') : Moves s s'' c := by
  have hevents : ∀ x, s''.events x = s'.events x := fun x => events_of_ht (congrFun h.ht x)
  cases hm with
  | keeps hkeeps hgone => exact .keeps (fun x => hevents x ▸ hkeeps x) (h.gone.trans hgone)
  | adds hside hnneg hfresh hadds hother hgone =>
    refine .adds hside hnneg hfresh ?_ (fun x hx => (hevents x).trans (hother x hx)) (h.gone.trans hgone)
    rwa [hevents]
  | removes hrem hother hgone =>
    refine .removes ?_ (fun x hx => (hevents x).trans (hother x hx)) (h.gone.trans hgone)
    rwa [hevents]

namespace Sound

/-- What an erase through an iterator that is on an event comes to. -/
theorem handleErase_eq (h : s.Sound) (hon : s.On False side it ev) (sockfd : BitVec 32) :
    ∃ it' ht' i p, p ∈ (s.ht side).bucket i ∧ p.val = some ⟨ev⟩ ∧ Removes (s.ht side) ht' i p ∧
      Becomes (s.ht side) ht' (Function.update (s.ht side).bucket i (dropUnder p.key ((s.ht side).bucket i))) ∧
      s.handleErase side it sockfd = match eventHtFreeCall ⟨ev⟩ with
        | some call => (.call call, { s.setHt side ht' with place := .cleanup side it' sockfd ⟨ev⟩ })
        | none => ((s.setHt side ht').free ⟨ev⟩).handleErased side it' sockfd := by
  obtain ⟨p, ps, ha, hval, -⟩ := hon
  have ht := h.tables side
  obtain ⟨it', ht', i, herase, hp, hrem, hb, -⟩ := ht.wf.defHashIterErase_ahead ha
  have hdestroy : destroyPair p (s.ht side).eraseFn = [(.eventHtFree, ⟨ev⟩)] := by
    simp only [destroyPair, callFree, hval, ht.eraseFn]
  have hfreed : (s.setHt side ht').isFreed ev = false := h.not_isFreed (mem_events ht.wf hp hval)
  refine ⟨it', ht', i, p, hp, hval, hrem, hb, ?_⟩
  unfold SelectState.handleErase
  rw [herase, hdestroy]
  dsimp only
  unfold eventHtFree
  refine (if_neg (by rw [hfreed]; exact Bool.false_ne_true)).trans ?_
  cases eventHtFreeCall ⟨ev⟩ <;> rfl

/-- The erase takes out the event that the iterator is on. -/
theorem moves_handleErase (h : s.Sound) (hon : s.On False side it ev) (hnodes : s.place.nodes = []) :
    Moves s (s.handleErase side it sockfd).2 (.removes side ev) ∧
      (s.handleErase side it sockfd).2.db.nMaxfdn = s.db.nMaxfdn := by
  obtain ⟨it', ht', i, p, hp, hval, hrem, hb, heq⟩ := h.handleErase_eq hon sockfd
  have hremoves : ∀ t : SelectState, t.db = (s.setHt side ht').db → t.gone.Perm (ev :: s.gone) →
      Moves s t (.removes side ev) := fun t hdb hgone =>
    h.effect_moves (.removes (congrArg SltEvdb.evs hdb) (Finset.Subset.refl _) (fun _ hfd _ => hfd)
      hb hrem hp hval hgone)
  rw [heq]
  cases eventHtFreeCall ⟨ev⟩ with
  | some call => exact ⟨hremoves _ rfl (gone_cleanup (s := s.setHt side ht') hnodes), rfl⟩
  | none =>
    have hfree := hremoves ((s.setHt side ht').free ⟨ev⟩) rfl (free_gone _ _)
    exact ⟨hfree.same (Same.handleErased hnodes), rfl⟩

/-- What the loop does with an event that is still in its table. -/
theorem moves_handleCalled (h : s.Sound) (hon : s.On False side it ev) (hnodes : s.place.nodes = [])
    (err : Bool) :
    Same s (s.handleCalled side it sockfd ev err).2 ∨
      (ev.evType &&& mclEvPersist = 0 ∨ err = true) ∧
        Moves s (s.handleCalled side it sockfd ev err).2 (.removes side ev) ∧
        (s.handleCalled side it sockfd ev err).2.db.nMaxfdn = s.db.nMaxfdn := by
  unfold SelectState.handleCalled
  split
  · exact .inl (.goto hnodes rfl)
  · split
    · next hfires => exact .inr ⟨hfires, h.moves_handleErase hon hnodes⟩
    · exact .inl (.handleNext hnodes)

theorem moves_handleOne (h : s.Sound) (hcov : s.Covers False True side it)
    (hplace : s.place = .scan side it) :
    Same s (s.handleOne side it).2 ∨
      ∃ ev, s.Fires side ev ∧ Moves s (s.handleOne side it).2 (.removes side ev) ∧
        (s.handleOne side it).2.db.nMaxfdn = s.db.nMaxfdn := by
  have hnodes : s.place.nodes = [] := by rw [hplace]; rfl
  rcases hcov with ⟨ps, ha, hrep⟩ | ⟨-, hdangling⟩
  · cases ps with
    | nil =>
      rw [handleOne_done ha]
      exact .inl (.handleReturn hnodes side)
    | cons p ps =>
      obtain ⟨ev, hval⟩ := h.val_of_ahead ha
      rw [h.handleOne_ahead ha hval]
      split
      · next hset =>
        split
        · exact .inl (.goto hnodes rfl)
        · next hcb =>
          refine (h.moves_handleCalled ⟨p, ps, ha, hval, hrep⟩ hnodes false).imp_right ?_
          rintro ⟨hfires, hmoves⟩
          refine ⟨ev, ?_, hmoves⟩
          unfold Fires
          rw [hplace]
          exact ⟨rfl, iterVal_of_ahead ha hval, hcb, of_decide_eq_true hset, hfires.resolve_right (by simp)⟩
      · exact .inl (.handleNext hnodes)
  · rw [handleOne_dangling hdangling]
    exact .inl (.goto hnodes rfl)

/-- A step of the loop leaves the tables alone, or takes out an event that has fired. -/
theorem moves_loopStep (h : s.Sound) (hround : s.Round False True) (hs : LoopStep s l r) :
    Same s r.2 ∨ ∃ side ev, s.Fires side ev ∧ Moves s r.2 (.removes side ev) ∧
      r.2.db.nMaxfdn = s.db.nMaxfdn := by
  unfold Round at hround
  cases hs with
  | loop tval hplace =>
    have htimed : Same s { s with tval := tval.getD s.tval, timed := tval.isSome } := ⟨rfl, .refl _, rfl⟩
    refine .inl (htimed.trans (.loopHead ?_))
    simp [hplace, Place.nodes]
  | @called side it sockfd ev hplace hdels =>
    have hnodes : s.place.nodes = [] := by rw [hplace]; rfl
    rw [hplace] at hround
    obtain ⟨-, -, hon | ⟨-, hgone⟩, -⟩ := hround
    · refine (h.moves_handleCalled hon hnodes _).imp_right ?_
      rintro ⟨hfires, hmoves⟩
      refine ⟨side, ev, ?_, hmoves⟩
      unfold Fires
      rw [hplace]
      exact ⟨rfl, rfl, hfires.imp_right of_decide_eq_true⟩
    · -- the callback has deleted its own event
      simp only [gone, releasing, hdels, hnodes, List.map_nil, List.append_nil, List.nil_append] at hgone
      have hfreed : s.isFreed ev = true := List.any_eq_true.mpr ⟨ev, hgone, beq_self_eq_true _⟩
      unfold SelectState.handleCalled
      rw [if_pos hfreed]
      exact .inl (.goto hnodes rfl)
  | @cleaned side it sockfd node hplace hdels =>
    refine .inl ⟨ht_setFds, ?_, rfl⟩
    simp only [gone, releasing, free, hdels, hplace]
    exact .refl _
  | polled r left hplace => exact .inl (.polled (by rw [hplace]; rfl) r left)
  | @handle side it hplace =>
    rw [hplace] at hround
    refine (h.moves_handleOne hround.1 hplace).imp_right ?_
    rintro ⟨ev, hev⟩
    exact ⟨side, ev, hev⟩

end Sound

/-! Only an add touches `n_maxfdn`. -/

theorem delEvent_max {arg : MclEvent} {db db' : SltEvdb} {ret : ℤ} {freed : Freed SltFreeFn SltHtNode}
    (h : delEvent arg side db = some (ret, db', freed)) : db'.nMaxfdn = db.nMaxfdn := by
  unfold delEvent at h
  split at h
  · obtain ⟨-, rfl, -⟩ := Prod.mk.inj (Option.some.inj h)
    rfl
  · dsimp only at h
    split at h
    · obtain ⟨-, rfl, -⟩ := Prod.mk.inj (Option.some.inj h)
      rfl
    · simp only [Option.bind_eq_bind, Option.bind_eq_some_iff, Option.some.injEq, Prod.mk.injEq] at h
      obtain ⟨-, -, -, rfl, -⟩ := h
      rfl

theorem delFrom_max {arg : MclEvent} {inExp : Bool} {goOn : ℤ → SelectState → Shown × SelectState}
    (hgo : ∀ ret t, (goOn ret t).2.db.nMaxfdn = t.db.nMaxfdn) :
    (s.delFrom arg side inExp goOn).2.db.nMaxfdn = s.db.nMaxfdn := by
  unfold delFrom
  split
  · rfl
  · next ret db hdel =>
    rw [hgo]
    exact delEvent_max hdel
  · next ret db fn node freed hdel =>
    have hmax := delEvent_max hdel
    dsimp only
    unfold eventHtFree
    split
    · exact hmax
    · split
      · exact hmax
      · rw [hgo]
        exact hmax

theorem delRest_max {arg : MclEvent} {ret : ℤ} : (s.delRest arg ret).2.db.nMaxfdn = s.db.nMaxfdn := by
  unfold delRest
  split
  · rfl
  · split
    · exact delFrom_max fun _ _ => rfl
    · rfl

theorem del_max (arg : MclEvent) (s : SelectState) : (s.del arg).2.db.nMaxfdn = s.db.nMaxfdn := by
  unfold del
  split
  · rfl
  · exact delFrom_max fun _ _ => delRest_max

theorem delResume_max (frame : DelFrame) (s : SelectState) :
    (s.delResume frame).2.db.nMaxfdn = s.db.nMaxfdn := by
  unfold delResume
  dsimp only
  split
  · rfl
  · exact delRest_max

theorem Sound.exec_max (h : s.Sound) (hround : s.Round False True) (he : s.exec l = some r)
    (hl : ∀ ev, l ≠ .add ev) : r.2.db.nMaxfdn = s.db.nMaxfdn := by
  rcases exec_inv he with hs | hs
  · cases hs with
    | add => exact absurd rfl (hl _)
    | del => exact del_max _ s
    | loopexit => rfl
    | ret => exact delResume_max _ _
  · rcases h.moves_loopStep hround hs with hsame | ⟨side, ev, -, -, hmax⟩
    · exact hsame.max
    · exact hmax

theorem Sound.exec_moves (h : s.Sound) (hround : s.Round False True) (he : s.exec l = some r) :
    ∃ s' c, Moves s s' c ∧ Yields r s' ∧
      (c.By s l ∨ ∃ side ev, c = .removes side ev ∧ s.Fires side ev) := by
  rcases h.exec_cases he with ⟨s', c, hcalls, hby, hyields⟩ | hs
  · exact ⟨s', c, h.effect_moves hcalls.effect, hyields, .inl hby⟩
  · rcases h.moves_loopStep hround hs with hsame | ⟨side, ev, hfires, hmoves, -⟩
    · exact ⟨r.2, .keeps, hsame.moves, .inl rfl, .inl trivial⟩
    · exact ⟨r.2, .removes side ev, hmoves, .inl rfl, .inr ⟨side, ev, rfl, hfires⟩⟩

theorem Yields.events (hy : Yields r s') (side : Side) : r.2.events side = s'.events side := by
  rcases hy with hy | hy
  · rw [hy]
  · rw [hy]
    rfl

theorem Yields.storedEvents (hy : Yields r s') : r.2.storedEvents = s'.storedEvents :=
  List.flatMap_congr fun x _ => hy.events x

/-- A new event in the tables has just been added. -/
theorem Sound.exec_stored (h : s.Sound) (hround : s.Round False True) (he : s.exec l = some r)
    (hev : ev ∈ r.2.storedEvents) : ev ∈ s.storedEvents ∨ l = .add ev := by
  obtain ⟨s', c, hmoves, hyields, hc⟩ := h.exec_moves hround he
  rw [hyields.storedEvents] at hev
  cases c with
  | keeps => exact .inl (hmoves.stored_keeps.mem_iff.mp hev)
  | removes side e => exact .inl (hmoves.stored_removes.mem_iff.mpr (List.mem_cons_of_mem _ hev))
  | adds side e =>
    refine (List.mem_cons.mp (hmoves.stored_adds.mem_iff.mp hev)).symm.imp_right ?_
    rintro rfl
    rcases hc with hby | ⟨_, _, hc, -⟩
    · cases l with
      | add ev' => rw [hby.1]
      | del arg => exact hby.elim
      | loopexit => exact hby.elim
      | loop tval => exact hby.elim
      | ret => exact hby.elim
      | polled r left => exact hby.elim
      | handle => exact hby.elim
    · exact absurd hc (by simp)

end SelectState
end Mcl
