import Mcl.Net.SelectDeparts
import Mcl.Net.SelectPoll

/-! What becomes of the events that the select backend has taken. The callbacks do not call back
into the library, so the user adds and deletes outside the loop only. -/
namespace Mcl
open Mcl.Library Mcl.Hash

/-- The event that a step hands over. -/
def SelectStep.handed : SelectStep → Option MclEvent
  | .add ev => some ev
  | _ => none

/-- The events whose adds have returned `ret`. -/
def addsReturning (ret : ℤ) (h : List (SelectStep × Shown)) : List MclEvent :=
  h.filterMap fun p => if p.2 = .ret ret then p.1.handed else none

/-- The events that `mcl_evbase_destroy` frees. -/
def destroyed (db : SltEvdb) : List MclEvent := (selectCleanup db).map (·.2.ev)

/-- The cleanup callbacks that `mcl_evbase_destroy` calls. -/
def destroyCalls (db : SltEvdb) : List EventCall := (selectCleanup db).filterMap fun f => eventHtFreeCall f.2

/-- The event is new to the run. -/
def fresh (h : List (SelectStep × Shown)) (ev : MclEvent) : Bool :=
  h.all fun p => p.1.handed.all fun e => e.addr != ev.addr

def oneShot (ev : MclEvent) : Bool := ev.evType &&& mclEvPersist = 0

namespace SelectState

/-- The event whose callback a step calls. -/
def runs (_ : SelectState) (l : SelectStep) (s' : SelectState) : List MclEvent :=
  match l, s'.place with
  | .handle, .callback _ _ _ ev => [ev]
  | _, _ => []

/-- The callbacks neither add nor delete. -/
def quiet (s : SelectState) : SelectStep → Bool
  | .add _ | .del _ => s.place = .main ∧ s.dels = []
  | _ => true

/-- A delete that takes out the very event that it is given: it reads it after `event_ht_free`. -/
def takesItself (s : SelectState) : SelectStep → Bool
  | .del arg => decide (arg ∈ s.storedEvents) && fdIsset arg.sockfd (s.fds (sideOf arg))
  | _ => false

/-- `h` is what has happened, `ran` the events whose callbacks have been called. -/
structure CleanedUp (h : List (SelectStep × Shown)) (ran : List MclEvent) (s : SelectState) : Prop where
  owned : ((addsReturning 1 h).map (·.addr)).Nodup
  known : (addsReturning 1 h).Perm (s.storedEvents ++ s.gone)
  called : (cleanups h).Perm (s.gone.filterMap MclEvent.cleanupCall)
  freed : s.releasing = [] → (s.freed ++ destroyed s.db).Perm (addsReturning 1 h)
  cleaned : (cleanups h ++ destroyCalls s.db).Perm ((addsReturning 1 h).filterMap MclEvent.cleanupCall)
  refused : ∀ ev ∈ addsReturning 0 h, ∀ e ∈ s.gone ++ destroyed s.db, e.addr ≠ ev.addr
  accepted : ∀ ev ∈ ran, ev ∈ addsReturning 1 h
  once : ((ran.filter oneShot).map (·.addr)).Nodup

/-- An event that leaves its table in a step goes to `event_ht_free` there, and it has been deleted
or it has fired and does not persist. -/
def Releases (s : SelectState) (l : SelectStep) (r : Shown × SelectState) : Prop :=
  ∀ ev ∈ s.storedEvents, ev ∉ r.2.storedEvents →
    r.1.cleanup = ev.cleanupCall ∧ ev ∈ r.2.gone ∧
      ((∃ arg, l = .del arg ∧ getEvset arg = getEvset ev ∧ arg.sockfd = ev.sockfd) ∨
        ∃ side, s.Fires side ev ∧ ev.evType &&& mclEvPersist = 0)

variable {s s' t : SelectState} {side : Side} {it : HashIter SltHtNode} {sockfd : BitVec 32}
  {ev arg : MclEvent} {left : List MclEvent} {l : SelectStep} {r : Shown × SelectState}
  {h : List (SelectStep × Shown)} {shown : Shown}

/-! A delete runs outside the loop, and one at a time. -/

def DelsOutside (s : SelectState) : Prop := s.dels = [] ∨ s.place = .main ∧ ∃ frame, s.dels = [frame]

/-- A call has ended, or it waits where it was made. -/
def Waits (s t : SelectState) : Prop := t.dels = s.dels ∨ t.place = s.place ∧ ∃ frame, t.dels = frame :: s.dels

theorem delFrom_waits {inExp : Bool} {goOn : ℤ → SelectState → Shown × SelectState}
    (hgo : ∀ ret t, t.place = s.place → t.dels = s.dels → Waits s (goOn ret t).2) :
    Waits s (s.delFrom arg side inExp goOn).2 := by
  unfold delFrom
  split
  · exact .inl rfl
  · exact hgo _ _ rfl rfl
  · dsimp only
    unfold eventHtFree
    split
    · exact .inl rfl
    · split
      · exact .inr ⟨rfl, _, rfl⟩
      · exact hgo _ _ rfl rfl

theorem delRest_waits (ret : ℤ) (hplace : t.place = s.place) (hdels : t.dels = s.dels) :
    Waits s (t.delRest arg ret).2 := by
  unfold delRest
  split
  · exact .inl hdels
  · split
    · unfold Waits
      rw [← hplace, ← hdels]
      exact delFrom_waits fun _ _ _ hd => .inl hd
    · exact .inl hdels

theorem del_waits (arg : MclEvent) (s : SelectState) : Waits s (s.del arg).2 := by
  unfold del
  split
  · exact .inl rfl
  · exact delFrom_waits fun ret _ => delRest_waits ret

theorem delResume_waits (frame : DelFrame) (s : SelectState) : Waits s (s.delResume frame).2 := by
  unfold delResume
  dsimp only
  split
  · exact .inl rfl
  · exact delRest_waits _ rfl rfl

theorem Waits.delsOutside (hw : Waits s t) (hplace : s.place = .main) (hdels : s.dels = []) :
    t.DelsOutside := by
  unfold Waits at hw
  rw [hdels, hplace] at hw
  exact hw

theorem add_dels (ev : MclEvent) (s : SelectState) : (s.add ev).2.dels = s.dels := by
  unfold add
  split <;> rfl

/-- No delete waits where the loop goes on. -/
theorem DelsOutside.dels_of_loopStep (ho : s.DelsOutside) (hs : LoopStep s l r) (he : s.exec l = some r) :
    s.dels = [] := by
  cases hs with
  | loop tval =>
    simp only [SelectState.exec] at he
    split at he
    · next hok => exact hok.2
    · exact absurd he (by simp)
  | called _ hdels => exact hdels
  | cleaned _ hdels => exact hdels
  | polled _ _ hplace => exact ho.resolve_right fun hc => absurd (hplace.symm.trans hc.1) (by simp)
  | handle hplace => exact ho.resolve_right fun hc => absurd (hplace.symm.trans hc.1) (by simp)

theorem DelsOutside.exec (ho : s.DelsOutside) (hquiet : s.quiet l = true) (he : s.exec l = some r) :
    r.2.DelsOutside := by
  rcases exec_inv he with hs | hs
  · cases hs with
    | @add ev => exact .inl ((add_dels ev s).trans (of_decide_eq_true hquiet).2)
    | @del arg =>
      obtain ⟨hplace, hdels⟩ := of_decide_eq_true hquiet
      exact (del_waits arg s).delsOutside hplace hdels
    | loopexit => exact ho
    | @ret frame dels _ hdels =>
      obtain ⟨hplace, frame', hsingle⟩ := ho.resolve_left (by simp [hdels])
      obtain rfl : dels = [] := by
        rw [hdels] at hsingle
        exact (List.cons.inj hsingle).2
      exact (delResume_waits frame { s with dels := [] }).delsOutside hplace rfl
  · exact .inl ((loopStep_dels hs).trans (ho.dels_of_loopStep hs he))

/-! No delete reads what it has freed. -/

/-- The deletes that wait have let go of other events than their arguments. -/
structure Clear (s : SelectState) : Prop where
  place : s.place ≠ .fault .eventAddOrDel
  args : ∀ frame ∈ s.dels, s.isFreed frame.arg = false ∧ frame.arg.addr ≠ frame.node.ev.addr

theorem Clear.same (hc : s.Clear) (hplace : t.place = s.place) (hdels : t.dels = s.dels)
    (hfreed : t.freed = s.freed) : t.Clear := by
  obtain ⟨hp, hargs⟩ := hc
  constructor
  · rwa [hplace]
  · unfold isFreed at hargs ⊢
    rwa [hdels, hfreed]

theorem loopHead_place (s : SelectState) : s.loopHead.2.place ≠ .fault .eventAddOrDel := by
  unfold loopHead
  split
  · simp
  · split
    · simp [fault]
    · simp

theorem loopStep_place (hs : LoopStep s l r) : r.2.place ≠ .fault .eventAddOrDel := by
  cases hs with
  | loop tval => exact loopHead_place _
  | called => exact (handleCalled_place _).ne_fault
  | cleaned => simp [handleErased]
  | polled res left =>
    unfold polled
    cases res with
    | ready sets => exact (handleEvents_place _).ne_fault
    | timeout => exact loopHead_place _
    | error => simp
  | @handle side it =>
    rcases handleOne_place side it s with hpass | hhead
    · exact hpass.ne_fault
    · rw [hhead]
      exact loopHead_place s

/-- What a delete takes out is not its argument. -/
theorem addr_ne_of_takes (hpass : s.passable arg = true) (hside : getEvset arg = some side)
    (hset : arg.sockfd ∈ s.fds side) (hother : s.takesItself (.del arg) = false)
    (hev : ev ∈ s.storedEvents) : arg.addr ≠ ev.addr := by
  intro haddr
  obtain rfl := eq_of_passable hpass (List.mem_append_left _ hev) haddr.symm
  have hisset : fdIsset ev.sockfd (s.fds (sideOf ev)) = true := by
    rw [sideOf_eq hside]
    exact decide_eq_true hset
  simp [takesItself, hev, hisset] at hother

theorem Clear.del (hc : s.Clear) (hs : s.Sound) (hdels : s.dels = []) (hpass : s.passable arg = true)
    (hother : s.takesItself (.del arg) = false) : (s.del arg).2.Clear := by
  cases hside : getEvset arg with
  | none => rwa [show s.del arg = (.ret 0, s) by simp only [SelectState.del, hside]]
  | some side =>
    by_cases hno : arg.sockfd.slt 0 = true ∨ arg.sockfd ∉ s.fds side
    · rwa [del_notSet hside hpass hno]
    rw [not_or, not_not, Bool.not_eq_true] at hno
    obtain ⟨hneg, hset⟩ := hno
    cases hstored : (s.ht side).stored (.int arg.sockfd) with
    | none =>
      rw [hs.del_absent hside hpass hneg hset hstored]
      exact hc.same rfl rfl rfl
    | some p =>
      obtain ⟨ht', i, ev, hval, -, hp, -, -, hdel⟩ := hs.del_stored hside hneg hset hstored
      have hfree : (s.taken arg side ht').isFreed arg = false := not_isFreed_of_passable (s := s) hpass
      have hne := addr_ne_of_takes hpass hside hset hother (mem_events (hs.tables side).wf hp hval)
      rw [hdel]
      cases eventHtFreeCall ⟨ev⟩ with
      | none =>
        dsimp only
        rw [delRest_free (exp_of_getEvset hside) hfree, if_neg hne]
        constructor
        · exact hc.place
        · intro frame hframe
          change frame ∈ s.dels at hframe
          rw [hdels] at hframe
          exact absurd hframe List.not_mem_nil
      | some call =>
        constructor
        · exact hc.place
        · intro frame hframe
          change frame ∈ _ :: s.dels at hframe
          rw [hdels] at hframe
          obtain rfl := List.mem_singleton.mp hframe
          exact ⟨hfree, hne⟩

theorem Clear.delResume (hc : s.Clear) (hs : s.Sound) {frame : DelFrame} (hdels : s.dels = [frame]) :
    ({ s with dels := [] }.delResume frame).2.Clear := by
  have hmem : frame ∈ s.dels := by simp [hdels]
  have hframe := hs.frames frame hmem
  obtain ⟨hfree, hne⟩ := hc.args frame hmem
  have hread : ({ s with dels := [] }.free frame.node).isFreed frame.arg = false := by
    rw [isFreed_free, Bool.or_eq_false_iff]
    exact ⟨beq_false_of_ne hne.symm, hfree⟩
  unfold SelectState.delResume
  rw [hframe.inExp, if_neg Bool.false_ne_true, delRest_eq hframe.exp, hread, if_neg Bool.false_ne_true]
  exact ⟨hc.place, fun _ hf => absurd hf List.not_mem_nil⟩

/-! A step of a quiet run. -/

theorem Sound.departs_exec (hs : s.Sound) (hround : s.Round False False) (ho : s.DelsOutside)
    (hquiet : s.quiet l = true) (he : s.exec l = some r) (hadd : ∀ ev, l ≠ .add ev) :
    ∃ left, Departs s r left := by
  rcases exec_inv he with hstep | hstep
  · cases hstep with
    | add => exact absurd rfl (hadd _)
    | del huser hpass => exact hs.departs_del (of_decide_eq_true hquiet).1 hpass
    | loopexit => exact ⟨[], departs_nothing rfl (.refl _) rfl⟩
    | ret huser hdels =>
      have hplace : s.place = .main := (ho.resolve_left (by simp [hdels])).1
      exact ⟨[], hs.departs_delResume hplace hdels⟩
  · exact hs.departs_loopStep hround hstep

/-- An add returns 1 exactly when it has stored its event. -/
theorem Sound.add_stores (hs : s.Sound) (hpass : s.passable ev = true)
    (hrel : ∀ node ∈ s.releasing, node.ev.addr ≠ ev.addr) (hpos : (0 : BitVec 32).slt ev.sockfd = true) :
    ∃ ret s', s.add ev = (.ret ret, s') ∧ s'.gone.Perm s.gone ∧
      (ret = 0 ∧ s'.storedEvents.Perm s.storedEvents ∨
        ret = 1 ∧ s'.storedEvents.Perm (ev :: s.storedEvents)) := by
  obtain ⟨ret, s', c, heq, hcalls, hc⟩ := hs.add_calls hpass hrel
  have hmoves := hs.effect_moves hcalls.effect
  refine ⟨ret, s', heq, ?_⟩
  rcases hc with ⟨rfl, hret, -⟩ | ⟨side, -, rfl, hret, -⟩
  · have hstored := hmoves.stored_keeps
    cases hmoves with
    | keeps _ hgone => exact ⟨hgone, .inl ⟨hret, hstored⟩⟩
  · have hstored := hmoves.stored_adds
    have hne : ev.sockfd ≠ 0 := by
      rintro hzero
      rw [hzero] at hpos
      exact absurd hpos (by decide)
    rw [if_neg hne] at hret
    cases hmoves with
    | adds _ _ _ _ _ hgone => exact ⟨hgone, .inr ⟨hret, hstored⟩⟩

theorem Departs.known (hd : Departs s r left) :
    (s.storedEvents ++ s.gone).Perm (r.2.storedEvents ++ r.2.gone) := by
  have hleft : (r.2.storedEvents ++ r.2.gone).Perm (r.2.storedEvents ++ (left ++ s.gone)) :=
    hd.gone.append_left _
  refine (hd.stored.append_right _).trans (List.Perm.trans ?_ hleft.symm)
  rw [List.append_assoc]
  exact List.perm_append_comm_assoc ..

/-- Without callbacks that hold on to nothing, a round is one with them. -/
theorem Round.dangling (hround : s.Round False False) : s.Round False True := by
  unfold Round at hround ⊢
  split at hround
  · exact hround.imp_left fun hcov => hcov.imp_right fun hc => hc.1.elim
  · exact hround.imp_left fun hcov => hcov.imp_right fun hc => hc.1.elim
  · obtain ⟨hfd, hrep, hon, hw⟩ := hround
    exact ⟨hfd, hrep, hon.imp_right fun hc => hc.1.elim, hw⟩
  · exact .inl trivial
  · trivial

theorem addsReturning_concat (ret : ℤ) (h : List (SelectStep × Shown)) (l : SelectStep) (shown : Shown) :
    addsReturning ret (h ++ [(l, shown)]) =
      addsReturning ret h ++ (if shown = .ret ret then l.handed else none).toList :=
  Machine.filterMap_concat ..

/-- A fresh event is none of those added before. -/
theorem addr_ne_of_fresh (hfresh : fresh h ev = true) {ret : ℤ} {e : MclEvent}
    (he : e ∈ addsReturning ret h) : e.addr ≠ ev.addr := by
  obtain ⟨p, hp, hev⟩ := List.mem_filterMap.mp he
  split at hev
  · have hall := List.all_eq_true.mp hfresh p hp
    rw [hev] at hall
    exact bne_iff_ne.mp hall
  · exact absurd hev (by simp)

/-! A run. -/

/-- A quiet user, who hands over new events only, on descriptors above 0. -/
def orderly (x : List (SelectStep × Shown) × List MclEvent × SelectState) (l : SelectStep) : Bool :=
  x.2.2.quiet l && l.handed.all fun ev => (0 : BitVec 32).slt ev.sockfd && fresh x.1 ev

/-- The accounts of the events that the adds have taken. -/
structure Books (h : List (SelectStep × Shown)) (s : SelectState) : Prop where
  sound : s.Sound
  round : s.Round False False
  outside : s.DelsOutside
  known : (addsReturning 1 h).Perm (s.storedEvents ++ s.gone)
  called : (cleanups h).Perm (s.gone.filterMap MclEvent.cleanupCall)
  refused : ∀ ev ∈ addsReturning 0 h, ∀ e ∈ addsReturning 1 h, e.addr ≠ ev.addr

theorem leavesHandled_of_quiet (hquiet : s.quiet l = true) : s.LeavesHandled l := by
  cases l with
  | del arg =>
    rintro ⟨side, -, hholds, -⟩
    unfold HoldsOn at hholds
    rw [(of_decide_eq_true hquiet).1] at hholds
    exact hholds
  | _ => trivial

theorem Departs.called (hd : Departs s r left) (hcalled : (cleanups h).Perm (s.gone.filterMap MclEvent.cleanupCall)) :
    (cleanups (h ++ [(l, r.1)])).Perm (r.2.gone.filterMap MclEvent.cleanupCall) :=
  cleanups_perm hcalled hd.gone hd.shown

theorem Books.add (hb : Books h s) (hpos : (0 : BitVec 32).slt ev.sockfd = true) (hfresh : fresh h ev = true)
    (hpass : s.passable ev = true) (hrel : ∀ node ∈ s.releasing, node.ev.addr ≠ ev.addr)
    (hsound : (s.add ev).2.Sound) (hround : (s.add ev).2.Round False False) (houtside : (s.add ev).2.DelsOutside) :
    Books (h ++ [(.add ev, (s.add ev).1)]) (s.add ev).2 := by
  obtain ⟨ret, s', heq, hgone, hret⟩ := hb.sound.add_stores hpass hrel hpos
  rw [heq] at hsound hround houtside ⊢
  refine ⟨hsound, hround, houtside, ?_, ?_, ?_⟩
  · rw [addsReturning_concat]
    rcases hret with ⟨rfl, hstored⟩ | ⟨rfl, hstored⟩
    · rw [if_neg (by simp), Option.toList_none, List.append_nil]
      exact hb.known.trans (hstored.append hgone).symm
    · rw [if_pos rfl]
      refine (hb.known.append_right _).trans ((List.perm_append_singleton ev _).trans ?_)
      exact (hstored.append hgone).symm
  · rw [cleanups_concat]
    change (cleanups h ++ []).Perm _
    rw [List.append_nil]
    exact hb.called.trans (hgone.filterMap _).symm
  · intro e he e' he' haddr
    rw [addsReturning_concat, List.mem_append] at he he'
    rcases he with he | he
    · rcases he' with he' | he'
      · exact hb.refused e he e' he' haddr
      · obtain ⟨-, hev⟩ := Option.ite_none_right_eq_some.mp (Option.mem_toList.mp he')
        obtain rfl := Option.some.inj hev
        exact addr_ne_of_fresh hfresh he haddr.symm
    · obtain ⟨hzero, hev⟩ := Option.ite_none_right_eq_some.mp (Option.mem_toList.mp he)
      obtain rfl := Option.some.inj hev
      rcases he' with he' | he'
      · exact addr_ne_of_fresh hfresh he' haddr
      · obtain ⟨hone, -⟩ := Option.ite_none_right_eq_some.mp (Option.mem_toList.mp he')
        exact absurd (hzero.symm.trans hone) (by decide)

theorem Books.exec {ran : List MclEvent} (hb : Books h s) (hok : orderly (h, ran, s) l = true)
    (he : s.exec l = some r) : Books (h ++ [(l, r.1)]) r.2 := by
  rw [orderly, Bool.and_eq_true] at hok
  obtain ⟨hquiet, hhanded⟩ := hok
  have hsound := hb.sound.exec he
  have hround := hb.sound.round_exec hb.round he (fun hc => hc.elim) fun _ => leavesHandled_of_quiet hquiet
  have houtside := hb.outside.exec hquiet he
  by_cases hadd : ∃ ev, l = .add ev
  · obtain ⟨ev, rfl⟩ := hadd
    rw [SelectStep.handed, Option.all_some, Bool.and_eq_true] at hhanded
    obtain ⟨hpass, hrel, rfl⟩ := exec_add he
    exact hb.add hhanded.1 hhanded.2 hpass hrel hsound hround houtside
  · push Not at hadd
    obtain ⟨left, hd⟩ := hb.sound.departs_exec hb.round hb.outside hquiet he hadd
    have hnone : l.handed = none := by
      cases l with
      | add ev => exact absurd rfl (hadd ev)
      | _ => rfl
    have hadds : ∀ ret, addsReturning ret (h ++ [(l, r.1)]) = addsReturning ret h := by
      intro ret
      rw [addsReturning_concat, hnone, ite_self]
      exact List.append_nil _
    refine ⟨hsound, hround, houtside, ?_, hd.called hb.called, ?_⟩
    · rw [hadds]
      exact hb.known.trans hd.known
    · rw [hadds, hadds]
      exact hb.refused

theorem books_init : Books [] init := by
  refine ⟨sound_init, trivial, .inl rfl, ?_, .nil, ?_⟩
  · rw [show init.storedEvents = [] by decide +kernel]
    exact .nil
  · exact fun ev hev => absurd hev List.not_mem_nil

theorem Books.gone_subset {ran : List MclEvent} (hb : Books h s) (hok : orderly (h, ran, s) l = true)
    (he : s.exec l = some r) : s.gone ⊆ r.2.gone := by
  rw [orderly, Bool.and_eq_true] at hok
  obtain ⟨hquiet, hhanded⟩ := hok
  by_cases hadd : ∃ ev, l = .add ev
  · obtain ⟨ev, rfl⟩ := hadd
    rw [SelectStep.handed, Option.all_some, Bool.and_eq_true] at hhanded
    obtain ⟨hpass, hrel, rfl⟩ := exec_add he
    obtain ⟨ret, s', heq, hgone, -⟩ := hb.sound.add_stores hpass hrel hhanded.1
    rw [heq]
    exact hgone.symm.subset
  · push Not at hadd
    obtain ⟨left, hd⟩ := hb.sound.departs_exec hb.round hb.outside hquiet he hadd
    exact fun e hmem => hd.gone.mem_iff.mpr (List.mem_append_right _ hmem)

theorem Books.clear {ran : List MclEvent} (hb : Books h s) (hc : s.Clear)
    (hok : orderly (h, ran, s) l = true) (hother : s.takesItself l = false) (he : s.exec l = some r) :
    r.2.Clear := by
  rw [orderly, Bool.and_eq_true] at hok
  have hquiet : s.quiet l = true := hok.1
  have hnone : r.2.dels = [] → r.2.place ≠ .fault .eventAddOrDel → r.2.Clear := fun hdels hplace =>
    ⟨hplace, fun frame hframe => absurd (hdels ▸ hframe) List.not_mem_nil⟩
  rcases exec_inv he with hstep | hstep
  · cases hstep with
    | @add ev huser hpass hrel =>
      obtain ⟨ret, s', c, hadd, hcalls, -⟩ := hb.sound.add_calls hpass hrel
      apply hnone ((add_dels ev s).trans (of_decide_eq_true hquiet).2)
      rw [hadd, hcalls.place]
      exact hc.place
    | del huser hpass =>
      have hdels : s.dels = [] := (of_decide_eq_true hquiet).2
      exact hc.del hb.sound hdels hpass hother
    | loopexit => exact hc.same rfl rfl rfl
    | @ret frame dels huser hdels =>
      obtain ⟨-, frame', hsingle⟩ := hb.outside.resolve_left (by simp [hdels])
      obtain rfl : dels = [] := (List.cons.inj (hdels.symm.trans hsingle)).2
      exact hc.delResume hb.sound hdels
  · exact hnone ((loopStep_dels hstep).trans (hb.outside.dels_of_loopStep hstep he)) (loopStep_place hstep)

/-- Nothing is defined behind a fault. -/
theorem exec_of_fault {f : Fault} (hplace : s.place = .fault f) (l : SelectStep) : s.exec l = none := by
  cases he : s.exec l with
  | none => rfl
  | some r =>
    exfalso
    rcases exec_inv he with hs | hs
    · have huser := hs.inUser
      simp [inUser, hplace] at huser
    · cases hs with
      | loop tval hmain => exact absurd (hplace.symm.trans hmain) (by simp)
      | called hcalled => exact absurd (hplace.symm.trans hcalled) (by simp)
      | cleaned hcleaned => exact absurd (hplace.symm.trans hcleaned) (by simp)
      | polled _ _ hpoll => exact absurd (hplace.symm.trans hpoll) (by simp)
      | handle hscan => exact absurd (hplace.symm.trans hscan) (by simp)

/-- A quiet round has no other fault than that of a delete. -/
theorem Books.noFault (hb : Books h s) (hc : s.Clear) (f : Fault) : s.place ≠ .fault f := by
  intro hplace
  have hround := hb.round
  unfold Round at hround
  rw [hplace] at hround
  rcases hround with hfalse | rfl
  · exact hfalse
  · exact hc.place hplace

/-! The callbacks of events. -/

/-- The event whose callback runs is still in its table. -/
theorem Sound.stored_of_callback (hs : s.Sound) (hround : s.Round False False)
    (hplace : s.place = .callback side it sockfd ev) : s.On False side it ev ∧ ev ∈ s.storedEvents := by
  unfold Round at hround
  rw [hplace] at hround
  have hon := hround.2.2.1.resolve_right fun hc => hc.1
  obtain ⟨p, ps, ha, hval, -⟩ := id hon
  obtain ⟨i, hp⟩ := ha.mem List.mem_cons_self
  exact ⟨hon, mem_events (hs.tables side).wf hp hval⟩

/-- A one-shot event is gone when its callback has returned. -/
theorem Books.spends (hb : Books h s) (hquiet : s.quiet l = true) (he : s.exec l = some r)
    (hplace : s.place = .callback side it sockfd ev) (hone : oneShot ev = true) :
    ev ∈ r.2.gone ∨ r.2.place = s.place := by
  rcases exec_inv he with hs | hs
  · cases hs with
    | add => exact absurd (hplace.symm.trans (of_decide_eq_true hquiet).1) (by simp)
    | del => exact absurd (hplace.symm.trans (of_decide_eq_true hquiet).1) (by simp)
    | loopexit => exact .inr rfl
    | ret huser hdels =>
      have hmain : s.place = .main := (hb.outside.resolve_left (by simp [hdels])).1
      exact absurd (hplace.symm.trans hmain) (by simp)
  · cases hs with
    | loop tval hmain => exact absurd (hplace.symm.trans hmain) (by simp)
    | @called side' it' sockfd' ev' hplace' hdels =>
      obtain ⟨rfl, rfl, rfl, rfl⟩ := Place.callback.inj (hplace.symm.trans hplace')
      have hon := (hb.sound.stored_of_callback hb.round hplace).1
      have hd : Departs s (s.handleCalled side it sockfd ev (side = .expEvs)) _ :=
        hb.sound.departs_handleCalled hon (by rw [hplace]; rfl) _
      rw [if_pos (.inl (of_decide_eq_true hone))] at hd
      exact .inl (hd.gone.mem_iff.mpr (List.mem_append_left _ (List.mem_singleton_self _)))
    | cleaned hplace' => exact absurd (hplace.symm.trans hplace') (by simp)
    | polled res left hplace' => exact absurd (hplace.symm.trans hplace') (by simp)
    | handle hplace' => exact absurd (hplace.symm.trans hplace') (by simp)

/-- The events whose callbacks have been called. A one-shot event is gone, unless its callback still
runs. -/
structure Ran (ran : List MclEvent) (s : SelectState) : Prop where
  known : ∀ ev ∈ ran, ev ∈ s.storedEvents ++ s.gone
  spent : ∀ ev ∈ ran, oneShot ev = true →
    ev ∈ s.gone ∨ ∃ side it sockfd, s.place = .callback side it sockfd ev
  once : ((ran.filter oneShot).map (·.addr)).Nodup

theorem runs_cases (s : SelectState) (l : SelectStep) (s' : SelectState) :
    s.runs l s' = [] ∨ ∃ side it sockfd ev, l = .handle ∧ s'.place = .callback side it sockfd ev ∧
      s.runs l s' = [ev] := by
  unfold runs
  split
  · next side it sockfd ev hplace => exact .inr ⟨side, it, sockfd, ev, rfl, hplace, rfl⟩
  · exact .inl rfl

theorem Books.ran {ran : List MclEvent} (hb : Books h s) (hran : Ran ran s)
    (hok : orderly (h, ran, s) l = true) (he : s.exec l = some r) : Ran (ran ++ s.runs l r.2) r.2 := by
  have hb' := hb.exec hok he
  have hgone := hb.gone_subset hok he
  have hknown : ∀ ev ∈ s.storedEvents ++ s.gone, ev ∈ r.2.storedEvents ++ r.2.gone := by
    intro ev hev
    apply hb'.known.mem_iff.mp
    rw [addsReturning_concat]
    exact List.mem_append_left _ (hb.known.mem_iff.mpr hev)
  have hspent : ∀ ev ∈ ran, oneShot ev = true →
      ev ∈ r.2.gone ∨ ∃ side it sockfd, r.2.place = .callback side it sockfd ev := by
    intro ev hev hone
    rcases hran.spent ev hev hone with hmem | ⟨side, it, sockfd, hplace⟩
    · exact .inl (hgone hmem)
    · rw [orderly, Bool.and_eq_true] at hok
      refine (hb.spends hok.1 he hplace hone).imp_right fun hsame => ?_
      exact ⟨side, it, sockfd, hsame.trans hplace⟩
  rcases runs_cases s l r.2 with hruns | ⟨side, it, sockfd, ev, rfl, hplace, hruns⟩
  · rw [hruns, List.append_nil]
    exact ⟨fun ev hev => hknown ev (hran.known ev hev), hspent, hran.once⟩
  · have hstored := (hb'.sound.stored_of_callback hb'.round hplace).2
    -- the step was made at the head of the loop, so no callback was running
    have hidle : ∀ side it sockfd e, s.place ≠ .callback side it sockfd e := by
      rintro side' it' sockfd' e hplace'
      simp only [SelectState.exec, hplace'] at he
      exact absurd he (by simp)
    rw [hruns]
    constructor
    · intro e hmem
      rcases List.mem_append.mp hmem with hmem | hmem
      · exact hknown e (hran.known e hmem)
      · rw [List.mem_singleton.mp hmem]
        exact List.mem_append_left _ hstored
    · intro e hmem hone
      rcases List.mem_append.mp hmem with hmem | hmem
      · exact hspent e hmem hone
      · rw [List.mem_singleton.mp hmem]
        exact .inr ⟨side, it, sockfd, hplace⟩
    · rw [List.filter_append, List.map_append, List.nodup_append]
      refine ⟨hran.once, ?_, ?_⟩
      · cases hone : oneShot ev <;> simp [hone]
      · intro x hx y hy
        obtain ⟨e, hmem, rfl⟩ := List.mem_map.mp hx
        obtain ⟨e', hmem', rfl⟩ := List.mem_map.mp hy
        obtain rfl := List.mem_singleton.mp (List.mem_filter.mp hmem').1
        obtain ⟨hmem, hone⟩ := List.mem_filter.mp hmem
        have hleft : e ∈ s.gone := by
          apply (hran.spent e hmem hone).resolve_right
          rintro ⟨side', it', sockfd', hplace'⟩
          exact hidle side' it' sockfd' e hplace'
        exact hb'.sound.addr_ne_of_stored hstored (hgone hleft)

/-! `mcl_evbase_destroy`. -/

theorem destroyed_eq (hs : s.Sound) : destroyed s.db = s.storedEvents := by
  have hvals : ∀ side, (freeEvset (s.db.evs side)).map (·.2.ev) = s.events side := by
    intro side
    have hmap := (hs.tables side).wf.mclHashDestroy_vals SltFreeFn.eventHtFree
    have hcomp : (freeEvset (s.db.evs side)).map (·.2.ev) =
        ((mclHashDestroy (s.ht side) (some SltFreeFn.eventHtFree)).2.map (·.2)).map (·.ev) :=
      (List.map_map ..).symm
    rw [hcomp, hmap, List.map_filterMap]
    rfl
  rw [destroyed, selectCleanup, List.map_append, List.map_append, hvals, hvals, hvals]
  simp [storedEvents, Side.all]

theorem destroyCalls_eq (hs : s.Sound) : destroyCalls s.db = s.storedEvents.filterMap MclEvent.cleanupCall := by
  rw [← destroyed_eq hs, destroyed, List.filterMap_map]
  rfl

theorem Books.cleanedUp {ran : List MclEvent} (hb : Books h s) (hran : Ran ran s) : CleanedUp h ran s := by
  have hstored := destroyed_eq hb.sound
  refine ⟨(hb.known.map _).nodup_iff.mpr hb.sound.owned, hb.known, hb.called, ?_, ?_, ?_, ?_, hran.once⟩
  · intro hnone
    rw [hstored]
    refine List.perm_append_comm.trans (List.Perm.trans ?_ hb.known.symm)
    rw [gone, hnone]
    exact .refl _
  · rw [destroyCalls_eq hb.sound]
    refine (hb.called.append_right _).trans (List.perm_append_comm.trans ?_)
    rw [← List.filterMap_append]
    exact (hb.known.filterMap _).symm
  · intro ev hev e he
    apply hb.refused ev hev e
    rw [hstored] at he
    exact hb.known.mem_iff.mpr ((List.perm_append_comm.mem_iff).mp he)
  · exact fun ev hev => hb.known.mem_iff.mpr (hran.known ev hev)

/-- Only a delete, or the loop after an event has fired, takes an event out. -/
theorem Books.releases {ran : List MclEvent} (hb : Books h s) (hok : orderly (h, ran, s) l = true)
    (he : s.exec l = some r) : s.Releases l r := by
  intro ev hev hnot
  obtain ⟨s', c, hmoves, hyields, hc⟩ := hb.sound.exec_moves hb.round.dangling he
  rw [hyields.storedEvents] at hnot
  cases c with
  | keeps => exact absurd (hmoves.stored_keeps.mem_iff.mpr hev) hnot
  | adds side e => exact absurd (hmoves.stored_adds.mem_iff.mpr (List.mem_cons_of_mem _ hev)) hnot
  | removes side e =>
    have hstored := hmoves.stored_removes
    obtain rfl : ev = e := (List.mem_cons.mp (hstored.mem_iff.mp hev)).resolve_right hnot
    rw [orderly, Bool.and_eq_true] at hok
    have hadd : ∀ e, l ≠ .add e := by
      rintro e rfl
      rcases hc with hby | ⟨side', e', -, hfires⟩
      · exact hby
      · unfold Fires at hfires
        rw [(of_decide_eq_true hok.1).1] at hfires
        exact hfires
    obtain ⟨left, hd⟩ := hb.sound.departs_exec hb.round hb.outside hok.1 he hadd
    have hleft : left = [ev] := by
      have hperm := hd.stored.symm.trans hstored
      rw [hyields.storedEvents] at hperm
      exact List.perm_singleton.mp ((List.perm_append_right_iff _).mp (by simpa using hperm))
    have hshown := hd.shown
    rw [hleft] at hd hshown
    have hside : getEvset ev = some side := by
      cases hmoves with
      | removes hevents _ _ =>
        obtain ⟨i, p, -, -, -, hside⟩ := hb.sound.exists_pair (hevents.mem_iff.mpr List.mem_cons_self)
        exact hside
    refine ⟨?_, hd.gone.mem_iff.mpr (List.mem_append_left _ (List.mem_singleton_self _)), ?_⟩
    · cases hcall : ev.cleanupCall with
      | none => simpa [hcall] using hshown
      | some call => simpa [hcall] using hshown
    · rcases hc with hby | ⟨side', e', hc, hfires⟩
      · cases l with
        | del arg => exact .inl ⟨arg, rfl, hby.1.trans hside.symm, hby.2.1.symm⟩
        | _ => exact hby.elim
      · obtain ⟨rfl, rfl⟩ := Change.removes.inj hc
        have hnexp := ne_expEvs_of_getEvset hside
        refine .inr ⟨side, hfires, ?_⟩
        unfold Fires at hfires
        split at hfires
        · exact hfires.2.2.resolve_right hnexp
        · exact hfires.2.2.2.2
        · exact hfires.elim

/-- In every run of a quiet user who gives no delete the stored event itself: nothing that is freed is
read, and the accounts are right. -/
theorem select_cleaned_up {h : List (SelectStep × Shown)}
    {x : List (SelectStep × Shown) × List MclEvent × SelectState}
    (hr : ((selectMachine.logged runs).traced).Reach
      (fun x l => orderly x l = true ∧ x.2.2.takesItself l = false) h x) :
    (∀ f, x.2.2.place ≠ .fault f) ∧ CleanedUp h x.2.1 x.2.2 ∧
      ∀ l r, orderly x l = true → x.2.2.exec l = some r → x.2.2.Releases l r := by
  suffices hledger : x.1 = h ∧ Books h x.2.2 ∧ Ran x.2.1 x.2.2 ∧ x.2.2.Clear by
    obtain ⟨hx, hb, hran, hclear⟩ := hledger
    refine ⟨hb.noFault hclear, hb.cleanedUp hran, fun l r hok he => ?_⟩
    obtain ⟨h', ran, s⟩ := x
    subst hx
    exact hb.releases hok he
  induction hr with
  | init =>
    refine ⟨rfl, books_init, ⟨?_, ?_, List.nodup_nil⟩, ?_, ?_⟩
    · exact fun ev hev => absurd hev List.not_mem_nil
    · exact fun ev hev => absurd hev List.not_mem_nil
    · exact fun hc => absurd hc (by decide)
    · exact fun frame hframe => absurd hframe List.not_mem_nil
  | @step h x x' l shown hr hok hs ih =>
    obtain ⟨h', ran, s⟩ := x
    obtain ⟨h'', ran', s'⟩ := x'
    obtain ⟨hlogged, rfl⟩ := Machine.traced_step.mp hs
    obtain ⟨he, rfl⟩ := Machine.logged_step.mp hlogged
    obtain ⟨rfl, hb, hran, hclear⟩ := ih
    exact ⟨rfl, hb.exec hok.1 he, hb.ran hran hok.1 he, hb.clear hclear hok.1 hok.2 he⟩

/-- One event goes by a delete, one when it has fired, and one is left to `mcl_evbase_destroy`. -/
theorem select_cleaned_up_three : ∃ (h : List (SelectStep × Shown))
    (x : List (SelectStep × Shown) × List MclEvent × SelectState),
    cleanups h = [⟨7, 3, mclEvDel, none⟩, ⟨8, 4, mclEvDel, none⟩] ∧
      destroyCalls x.2.2.db = [⟨9, 5, mclEvDel, none⟩] ∧
      (∀ f, x.2.2.place ≠ .fault f) ∧ CleanedUp h x.2.1 x.2.2 ∧
      ∀ l r, orderly x l = true → x.2.2.exec l = some r → x.2.2.Releases l r := by
  obtain ⟨hist, x, hr, hcalled, hleft⟩ := (selectMachine.logged runs).traced.exists_of_restrict
    (fun x l => orderly x l && !x.2.2.takesItself l)
    [.add { readEvent 1 3 with cleanupCb := some 7 },
      .add { readEvent 2 4 with evType := mclEvRead, cleanupCb := some 8 },
      .add { readEvent 3 5 with cleanupCb := some 9 }, .del (readEvent 4 3), .ret, .loop none,
      .polled (readable {4}) ⟨0, 0⟩, .handle, .ret, .ret]
    (fun r => cleanups r.1 = [⟨7, 3, mclEvDel, none⟩, ⟨8, 4, mclEvDel, none⟩] ∧
      destroyCalls r.2.2.2.db = [⟨9, 5, mclEvDel, none⟩]) (by decide +kernel)
  have hcond := hr.mono fun x l hok => show orderly x l = true ∧ x.2.2.takesItself l = false by
    simpa using hok
  exact ⟨hist, x, hcalled, hleft, select_cleaned_up hcond⟩

/-- An event is added and then deleted by the pointer to it. The run ends in the fault, where no step can
be made. -/
theorem select_cleaned_up_itself :
    (∃ (h : List (SelectStep × Shown)) (x : List (SelectStep × Shown) × List MclEvent × SelectState),
      ((selectMachine.logged runs).traced).Reach (fun x l => orderly x l = true) h x ∧
        h.map Prod.snd = [.ret 1, .nothing] ∧ x.2.2.freed = [readEvent 1 3] ∧
        x.2.2.place = .fault .eventAddOrDel ∧ ∀ l, x.2.2.exec l = none) ∧
      ¬ ∀ (h : List (SelectStep × Shown)) (x : List (SelectStep × Shown) × List MclEvent × SelectState),
        ((selectMachine.logged runs).traced).Reach (fun x l => orderly x l = true) h x →
          (∀ f, x.2.2.place ≠ .fault f) ∧ CleanedUp h x.2.1 x.2.2 ∧
            ∀ l r, orderly x l = true → x.2.2.exec l = some r → x.2.2.Releases l r := by
  obtain ⟨hist, x, hr, hshown, hfreed, hplace⟩ :=
    (selectMachine.logged runs).traced.exists_of_restrict orderly [.add (readEvent 1 3), .del (readEvent 1 3)]
      (fun r => r.1.map Prod.snd = [.ret 1, .nothing] ∧ r.2.2.2.freed = [readEvent 1 3] ∧
        r.2.2.2.place = .fault .eventAddOrDel) (by decide +kernel)
  exact ⟨⟨hist, x, hr, hshown, hfreed, hplace, exec_of_fault hplace⟩, fun hall => (hall hist x hr).1 _ hplace⟩

end SelectState
end Mcl
