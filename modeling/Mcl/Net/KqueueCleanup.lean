import Mcl.Net.KqueueCoherence

/-! Which cleanup callbacks are called: `event_ht_free` calls that of the event that it frees, and
`kq_del` that of its argument. -/
namespace Mcl.Kqueue
open Mcl.Library

/-- The cleanup callbacks that `mcl_evbase_destroy` calls. -/
def destroyCalls (db : Evdb) : List EventCall := (kqCleanup db).filterMap fun f => f.2.cleanupCall

/-- The event that a change brings in. -/
def Change.added : Change → List MclEvent
  | .adds ev => [ev]
  | _ => []

namespace KqState

/-- The events that a step stores. -/
def storedBy (s : KqState) (l : KqStep) (s' : KqState) : List MclEvent :=
  match l with
  | .add ev _ => if ev ∈ s'.db.storedEvents ∧ ev ∉ s.db.storedEvents then [ev] else []
  | _ => []

/-- An event that `handle_events` deletes once it has fired. -/
def oneShot (ev : MclEvent) : Option MclEvent := if ev.evType &&& mclEvPersist = 0 then some ev else none

/-- The argument of the `kq_del` that a step calls. -/
def delArg (s : KqState) : KqStep → Option MclEvent
  | .del arg => some arg
  | .ret =>
    match s.dels, s.place with
    | [], .callback _ ev => oneShot ev
    | _, _ => none
  | .handle =>
    match s.place with
    | .scan (k :: _) v =>
      match k.udata with
      | some ev => if k.isRead ∧ k.handler ev = none then oneShot ev else none
      | none => v.bind oneShot
    | _ => none
  | _ => none

/-- No `kq_del` is given an event with a cleanup callback. -/
def delsBare (s : KqState) (l : KqStep) : Bool := (s.delArg l).all fun arg => arg.cleanupCb == none

/-- `stored` are the events that the adds of the run `h` have stored: each is in a table or has
left, and those that have left have had their cleanup callbacks called, with no other calls;
`mcl_evbase_destroy` calls the rest. -/
structure CleanedUp (h : List (KqStep × Shown)) (stored : List MclEvent) (s : KqState) : Prop where
  owned : (stored.map (·.addr)).Nodup
  known : stored.Perm (s.db.storedEvents ++ s.gone)
  called : (cleanups h).Perm (s.gone.filterMap MclEvent.cleanupCall)
  destroyed : (cleanups h ++ destroyCalls s.db).Perm (stored.filterMap MclEvent.cleanupCall)

/-- A step calls the cleanup callbacks of the events that leave in it, and no others. -/
def Accounts (s : KqState) (r : Shown × KqState) : Prop :=
  ∃ left : List MclEvent, r.2.gone.Perm (left ++ s.gone) ∧ r.1.cleanup.toList = left.filterMap MclEvent.cleanupCall

variable {s s' : KqState} {ev arg : MclEvent} {byLoop : Bool} {frame : DelFrame} {dels : List DelFrame}
  {rest : List Kevent} {cb : Option EventCb} {c : Change} {l : KqStep} {r : Shown × KqState}

theorem accounts_nothing (hgone : r.2.gone.Perm s.gone) (hshown : r.1.cleanup = none) : Accounts s r :=
  ⟨[], hgone, by rw [hshown]; rfl⟩

theorem delReturn_cleanup (byLoop : Bool) (s : KqState) : (s.delReturn byLoop).1.cleanup = none := by
  cases byLoop <;> rfl

theorem Removal.accounts (hr : Removal s arg byLoop r) : Accounts s r := by
  cases hr with
  | reads => exact accounts_nothing (.refl _) rfl
  | absent => exact accounts_nothing (by rw [delReturn_snd]) (delReturn_cleanup _ _)
  | @waits db ev call _ _ _ hcall hmoves =>
    refine ⟨[ev], hmoves.gone, ?_⟩
    rw [cleanup_of_call hcall, List.filterMap_cons_some hcall]
    rfl
  | @frees db ev _ _ _ hcall hmoves =>
    refine ⟨[ev], by rw [delReturn_snd]; exact hmoves.gone, ?_⟩
    rw [delReturn_cleanup, List.filterMap_cons_none hcall]
    rfl

theorem Dels.accounts (hd : Dels s arg byLoop r) (hbare : arg.cleanupCb = none) : Accounts s r := by
  cases hd with
  | waits hcall =>
    rw [MclEvent.cleanupCall, hbare] at hcall
    exact absurd hcall (by simp)
  | goesOn hcall hr => exact hr.accounts

theorem Handles.accounts (h : s.Sound) (hh : Handles s rest ev cb r)
    (hbare : cb = none → ev.evType &&& mclEvPersist = 0 → ev.cleanupCb = none) : Accounts s r := by
  cases hh with
  | reads => exact accounts_nothing (.refl _) rfl
  | calls _ htype => exact accounts_nothing (.refl _) (if_neg htype)
  | stays => exact accounts_nothing (.refl _) rfl
  | dels _ hfires =>
    have hsound : Sound { s with place := .scan rest (some ev) } := ⟨h.tables, h.owned⟩
    exact (hsound.del_dels ev true).accounts (hbare rfl hfires)

theorem loopHead_accounts {t : KqState} (hgone : t.gone = s.gone) : Accounts s t.loopHead := by
  rcases t.loopHead_cases with heq | heq
  · rw [heq]
    exact accounts_nothing (.of_eq hgone) rfl
  · rw [heq]
    exact accounts_nothing (.of_eq hgone) rfl

theorem Sound.delResume_accounts (h : s.Sound) (hdels : s.dels = frame :: dels) :
    Accounts s ((s.popped dels).delResume frame) := by
  unfold delResume
  cases hinside : frame.inside with
  | some ev =>
    refine accounts_nothing ?_ (delReturn_cleanup _ _)
    rw [delReturn_snd]
    refine (free_gone _ _ _).trans ?_
    rw [gone_popped hdels, hinside]
    exact .refl _
  | none =>
    obtain ⟨left, hgone, hshown⟩ :=
      ((h.popped_none hdels hinside).delRest_removal frame.arg frame.byLoop).accounts
    rw [gone_popped_none hdels hinside] at hgone
    exact ⟨left, hgone, hshown⟩

theorem oneShot_bare (hbare : ((oneShot ev).all fun arg => arg.cleanupCb == none) = true)
    (hfires : ev.evType &&& mclEvPersist = 0) : ev.cleanupCb = none := by
  rw [oneShot, if_pos hfires, Option.all_some, beq_iff_eq] at hbare
  exact hbare

theorem Sound.accounts (h : s.Sound) (hst : Step s l r) (hbare : s.delsBare l = true) : Accounts s r := by
  cases hst with
  | @add ev ok huser hpass hrel =>
    obtain ⟨n, db, heq⟩ := (h.add_adds hpass hrel ok).outcome
    rw [heq]
    exact accounts_nothing (.refl _) rfl
  | @del arg => exact (h.del_dels arg false).accounts (beq_iff_eq.mp hbare)
  | loopexit => exact accounts_nothing (.refl _) rfl
  | loop tval => exact loopHead_accounts rfl
  | resumed _ hdels => exact h.delResume_accounts hdels
  | @called rest ev hplace hdels =>
    rw [delsBare, delArg, hdels, hplace] at hbare
    exact (handleCalled_handles rest ev s).accounts h fun _ => oneShot_bare hbare
  | failed => exact accounts_nothing (.refl _) rfl
  | polled => exact accounts_nothing (.refl _) rfl
  | @handle rest v hplace hdels =>
    rw [delsBare, delArg, hplace] at hbare
    cases rest with
    | nil => exact loopHead_accounts rfl
    | cons k rest =>
      dsimp only at hbare
      cases hudata : k.udata with
      | none =>
        rcases handleOne_noEvent hudata v s with heq | ⟨ev, rfl, hh⟩
        · rw [heq]
          exact accounts_nothing (.refl _) rfl
        · rw [hudata] at hbare
          exact hh.accounts h fun _ => oneShot_bare hbare
      | some ev =>
        cases hread : k.isRead with
        | false =>
          rw [handleOne_skips hudata hread]
          exact accounts_nothing (.refl _) rfl
        | true =>
          refine (handleOne_handles hudata hread v s).accounts h fun hcb => ?_
          rw [hudata] at hbare
          dsimp only at hbare
          rw [if_pos ⟨hread, hcb⟩] at hbare
          exact oneShot_bare hbare

/-! The events that have been stored. -/

theorem Moves.owned_perm (hm : Moves s s' c) :
    (s'.db.storedEvents ++ s'.gone).Perm (s.db.storedEvents ++ s.gone ++ c.added) := by
  have hgone := hm.gone
  cases hm.shifts with
  | keeps _ hstored => simpa [Change.added, Change.left] using hstored.append hgone
  | @adds ev _ _ hstored => exact (hstored.append hgone).trans (List.perm_append_singleton ev _).symm
  | @removes ev _ _ hstored =>
    have hperm := (List.Perm.append_left s'.db.storedEvents hgone).trans
      (List.perm_middle.trans (hstored.append_right _).symm)
    simpa [Change.added] using hperm

theorem Sound.storedBy_eq (h : s.Sound) (hst : Step s l r) :
    ∃ c, Moves s r.2 c ∧ s.storedBy l r.2 = c.added := by
  by_cases hl : ∃ ev ok, l = .add ev ok
  · obtain ⟨ev, ok, rfl⟩ := hl
    cases hst with
    | add huser hpass hrel =>
      rcases (h.add_adds hpass hrel ok).moves h with hm | hm
      · refine ⟨.keeps, hm, if_neg ?_⟩
        cases hm.shifts with
        | keeps _ hstored => exact fun hc => hc.2 (hstored.mem_iff.mp hc.1)
      · refine ⟨.adds ev, hm, if_pos ?_⟩
        have hfresh := hm.fresh ev rfl
        cases hm.shifts with
        | adds _ _ hstored =>
          refine ⟨hstored.mem_iff.mpr List.mem_cons_self, fun hmem => ?_⟩
          exact hfresh ev (List.mem_append_left _ hmem) rfl
  · have hnone : s.storedBy l r.2 = [] := by
      cases l with
      | add ev ok => exact absurd ⟨ev, ok, rfl⟩ hl
      | _ => rfl
    rcases h.step_leaves hst fun ev ok hc => hl ⟨ev, ok, hc⟩ with hm | ⟨ev, hm⟩
    · exact ⟨_, hm, hnone⟩
    · exact ⟨_, hm, hnone⟩

theorem destroyCalls_eq (h : s.Sound) : destroyCalls s.db = s.db.storedEvents.filterMap MclEvent.cleanupCall := by
  have hvals : (kqCleanup s.db).map (·.2) = s.db.storedEvents := by
    rw [kqCleanup, List.map_append, (h.tables .rdevset).wf.mclHashDestroy_vals,
      (h.tables .wrevset).wf.mclHashDestroy_vals]
    simp [Evdb.storedEvents, Evset.all, Evdb.events]
  rw [destroyCalls, ← hvals, List.filterMap_map]
  rfl

/-- In every run in which no `kq_del` is given an event with a cleanup callback. -/
theorem kq_cleaned_up {h : List (KqStep × Shown)} {x : List MclEvent × KqState}
    (hr : (kqMachine.logged storedBy).Reach (fun x l => x.2.delsBare l = true) h x) :
    CleanedUp h x.1 x.2 := by
  suffices hledger : x.2.Sound ∧ x.1.Perm (x.2.db.storedEvents ++ x.2.gone) ∧
      (cleanups h).Perm (x.2.gone.filterMap MclEvent.cleanupCall) by
    obtain ⟨hsound, hknown, hcalled⟩ := hledger
    refine ⟨(hknown.map _).nodup_iff.mpr hsound.owned, hknown, hcalled, ?_⟩
    rw [destroyCalls_eq hsound]
    refine (hcalled.append_right _).trans ((List.perm_append_comm).trans ?_)
    rw [← List.filterMap_append]
    exact (hknown.filterMap _).symm
  induction hr with
  | init =>
    refine ⟨sound_init, ?_, List.Perm.nil⟩
    rw [show (kqMachine.logged storedBy).init.2.db.storedEvents = [] from storedEvents_init]
    exact List.Perm.nil
  | @step h x x' l shown hr hbare hs ih =>
    obtain ⟨stored, s⟩ := x
    obtain ⟨stored', s'⟩ := x'
    obtain ⟨he, rfl⟩ := Machine.logged_step.mp hs
    obtain ⟨hsound, hknown, hcalled⟩ := ih
    have hst := exec_inv he
    obtain ⟨c, hm, hadded⟩ := hsound.storedBy_eq hst
    obtain ⟨left, hgone, hshown⟩ := hsound.accounts hst hbare
    refine ⟨hsound.exec_sound he, ?_, cleanups_perm hcalled hgone hshown⟩
    rw [hadded]
    exact (hknown.append_right _).trans hm.owned_perm.symm

/-- A delete with an event of the caller's that has no cleanup callback, and a one-shot event. -/
theorem kq_cleaned_up_bare : ∃ (h : List (KqStep × Shown)) (x : List MclEvent × KqState),
    cleanups h = [⟨7, 3, mclEvDel, none⟩] ∧ x.2.place = .scan [] (some (plainEvent 2 4 mclEvRead)) ∧
      CleanedUp h x.1 x.2 := by
  obtain ⟨hist, x, hr, hcalled, hplace⟩ := (kqMachine.logged storedBy).exists_of_restrict
    (fun x l => x.2.delsBare l)
    [.add { plainEvent 1 3 mclEvRead with cleanupCb := some 7 } true, .add (plainEvent 2 4 mclEvRead) true,
      .del (plainEvent 9 3 mclEvRead), .ret, .loop none,
      .polled (some [⟨4, evfiltRead, false, some (plainEvent 2 4 mclEvRead)⟩]), .handle, .ret]
    (fun r => cleanups r.1 = [⟨7, 3, mclEvDel, none⟩] ∧
      r.2.2.place = .scan [] (some (plainEvent 2 4 mclEvRead))) (by decide +kernel)
  exact ⟨hist, x, hcalled, hplace, kq_cleaned_up hr⟩

/-- A delete of an event with a cleanup callback calls it twice. -/
theorem kq_cleaned_up_twice : ¬ ∀ (h : List (KqStep × Shown)) (x : List MclEvent × KqState),
    (kqMachine.logged storedBy).Reach (fun x l => x.2.quiet l = true) h x → CleanedUp h x.1 x.2 := by
  intro hall
  obtain ⟨hist, x, hr, htwice, hone⟩ := (kqMachine.logged storedBy).exists_of_restrict
    (fun x l => x.2.quiet l)
    [.add { plainEvent 1 3 mclEvRead with cleanupCb := some 7 } true,
      .del { plainEvent 9 3 mclEvRead with cleanupCb := some 7 }, .ret, .ret]
    (fun r => (cleanups r.1).length = 2 ∧ (r.2.2.gone.filterMap MclEvent.cleanupCall).length = 1) (by decide +kernel)
  have hcalled := (hall hist x hr).called.length_eq
  rw [htwice, hone] at hcalled
  exact absurd hcalled (by decide)

end KqState
end Mcl.Kqueue
