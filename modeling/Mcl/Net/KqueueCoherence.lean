import Mcl.Net.KqueueCalls

/-! What the kernel knows and what the tables hold, while no callback calls back into the library. -/
namespace Mcl.Kqueue
open Mcl.Library

/-- The descriptor and the filter under which the kernel knows an event. -/
def registration (ev : MclEvent) : BitVec 32 × BitVec 32 := (ev.sockfd, filterOf ev)

namespace Evdb

variable {db db' : Evdb} {ev arg e : MclEvent} {out : Option MclEvent}

/-- The kernel knows the stored events, each under its own registration, but for the one that is
on its way out. -/
def Agrees (db : Evdb) (out : Option MclEvent) : Prop :=
  ∀ r ev, db.kernel r = some ev ↔ (ev ∈ db.storedEvents ∧ out ≠ some ev) ∧ registration ev = r

theorem Agrees.kernel_of_stored (h : db.Agrees none) (hev : ev ∈ db.storedEvents) :
    db.kernel (registration ev) = some ev :=
  (h _ _).mpr ⟨⟨hev, by simp⟩, rfl⟩

theorem Sound.mem_removes (h' : db'.Sound) (hs : Shifts db db' (.removes ev)) :
    e ∈ db'.storedEvents ↔ e ∈ db.storedEvents ∧ e ≠ ev := by
  cases hs with
  | removes hfound hentry hstored =>
    rw [hstored.mem_iff, List.mem_cons]
    constructor
    · intro he
      refine ⟨.inr he, ?_⟩
      rintro rfl
      have hnone := h'.mem_storedEvents.mp he
      rw [hentry, if_pos ⟨rfl, rfl⟩] at hnone
      exact absurd hnone (by simp)
    · exact fun he => he.1.resolve_left he.2

theorem Agrees.adds (h : db.Agrees none)
    (hkernel : db'.kernel = Function.update db.kernel (registration ev) (some ev))
    (hvacant : db.kernel (registration ev) = none) (hs : Shifts db db' (.adds ev)) : db'.Agrees none := by
  cases hs with
  | adds _ _ hstored =>
    intro r e
    rw [hkernel, hstored.mem_iff, List.mem_cons]
    by_cases hr : r = registration ev
    · subst hr
      rw [Function.update_self, Option.some.injEq]
      constructor
      · rintro rfl
        exact ⟨⟨.inl rfl, by simp⟩, rfl⟩
      · rintro ⟨⟨rfl | he, -⟩, hreg⟩
        · rfl
        · have hsome := h.kernel_of_stored he
          rw [hreg, hvacant] at hsome
          exact absurd hsome (by simp)
    · rw [Function.update_of_ne hr, h r e]
      constructor
      · exact fun he => ⟨⟨.inr he.1.1, he.1.2⟩, he.2⟩
      · rintro ⟨⟨rfl | he, hout⟩, hreg⟩
        · exact absurd hreg.symm hr
        · exact ⟨⟨he, hout⟩, hreg⟩

theorem Agrees.unregisters (h : db.Agrees none) (hevset : db'.evset = db.evset)
    (hkernel : db'.kernel = Function.update db.kernel (registration arg) none) :
    db'.Agrees (db.kernel (registration arg)) := by
  intro r e
  rw [hkernel, storedEvents_of_evset hevset]
  by_cases hr : r = registration arg
  · subst hr
    rw [Function.update_self]
    constructor
    · exact fun hc => absurd hc (by simp)
    · rintro ⟨⟨he, hout⟩, hreg⟩
      exact absurd (hreg ▸ h.kernel_of_stored he) hout
  · rw [Function.update_of_ne hr, h r e]
    refine and_congr_left fun hreg => and_congr_right fun he => ?_
    constructor
    · rintro - hout
      exact hr (hreg.symm.trans ((h _ _).mp hout).2)
    · exact fun _ => by simp

theorem Agrees.removes (h : db.Agrees (some ev)) (h' : db'.Sound) (hkernel : db'.kernel = db.kernel)
    (hs : Shifts db db' (.removes ev)) : db'.Agrees none := by
  intro r e
  rw [hkernel, h r e, h'.mem_removes hs]
  refine and_congr_left fun _ => ?_
  constructor
  · exact fun he => ⟨⟨he.1, fun hc => he.2 (congrArg some hc.symm)⟩, by simp⟩
  · exact fun he => ⟨he.1.1, fun hc => he.1.2 (Option.some.inj hc).symm⟩

end Evdb

namespace KqState

/-- The event of a delete that waits for the cleanup callback that `kq_del` calls. -/
def leaving (s : KqState) : Option MclEvent :=
  match s.dels with
  | ⟨arg, none, _⟩ :: _ => s.db.entry (evsetOf arg) arg.sockfd
  | _ => none

/-- The events that `handle_events` is at or has still to come to. -/
def visits (s : KqState) : List MclEvent := s.place.called ++ s.place.rest.filterMap (·.udata)

/-- A read or write event, with or without `MCL_EV_PERSIST`. -/
def isReadOrWrite (ev : MclEvent) : Bool :=
  ev.evType ∈ [mclEvRead, mclEvWrite, mclEvRead ||| mclEvPersist, mclEvWrite ||| mclEvPersist]

/-- The callbacks neither add nor delete. -/
def quiet (s : KqState) : KqStep → Bool
  | .add .. | .del _ => s.place = .main ∧ s.dels = []
  | _ => true

/-- A read or write event is added for a descriptor and a side that are not registered, on a valid
descriptor, and the kernel reports what it holds, each registration at most once. -/
def orderly (s : KqState) : KqStep → Bool
  | .add ev ok => isReadOrWrite ev && ok && s.db.kernel (registration ev) == none
  | .polled (some batch) => decide (batch.map fun k => (k.ident, k.filter)).Nodup &&
      batch.all fun k => s.db.kernel (k.ident, k.filter) == k.udata
  | _ => true

/-- An add finds the descriptor free in the table of its type, and a delete finds there what the
kernel holds. -/
def matched (s : KqState) : KqStep → Bool
  | .add ev _ => s.db.entry (evsetOf ev) ev.sockfd == none && s.db.hasRoom ev
  | .del arg => s.db.entry (evsetOf arg) arg.sockfd == s.db.kernel (registration arg)
  | _ => true

/-- What the kernel holds is stored and not freed, and each stored event is what the kernel holds
for exactly one registration, unless it is being deleted. -/
structure Coherent (s : KqState) : Prop where
  registered : ∀ r ev, s.db.kernel r = some ev → ev ∈ s.db.storedEvents ∧ s.isFreed ev = false
  stored : ∀ ev ∈ s.db.storedEvents, s.leaving ≠ some ev → ∃! r, s.db.kernel r = some ev

/-- The argument of the delete that is made in a step, or goes on in it. -/
def deleted (s : KqState) : KqStep → Option MclEvent
  | .del arg => some arg
  | .ret => (s.dels.map (·.arg) ++ s.place.called).head?
  | .handle => s.place.rest.head?.bind (·.udata)
  | _ => none

/-- An event leaves the tables only in a delete for its own descriptor and side. -/
def Selective (s : KqState) : Prop :=
  ∀ l r, (s.quiet l && s.orderly l && s.matched l) = true → s.exec l = some r →
    ∀ ev ∈ s.db.storedEvents, ev ∈ r.2.db.storedEvents ∨
      ∃ arg, s.deleted l = some arg ∧ registration arg = registration ev

/-- What a batch is while the loop goes through it. -/
structure Reporting (s : KqState) : Prop where
  nodup : s.visits.Nodup
  registered : ∀ ev ∈ s.visits, s.db.kernel (registration ev) = some ev
  udata : ∀ k ∈ s.place.rest, k.udata ≠ none

structure Steady (s : KqState) : Prop where
  agrees : s.db.Agrees s.leaving
  reporting : s.Reporting
  frames : ∀ frame ∈ s.dels, frame.inside = none → s.isFreed frame.arg = false ∧
    ∀ ev, s.db.entry (evsetOf frame.arg) frame.arg.sockfd = some ev → registration ev = registration frame.arg
  single : s.dels.length ≤ 1
  idle : s.dels ≠ [] → s.place.called = [] ∧ s.place ≠ .wait

variable {s s' : KqState} {ev arg e : MclEvent} {byLoop : Bool} {frame : DelFrame}
  {dels : List DelFrame} {cb : Option EventCb} {l : KqStep} {r : Shown × KqState}

theorem Steady.coherent (h : s.Sound) (hs : s.Steady) : s.Coherent := by
  constructor
  · intro r ev hr
    have hev := ((hs.agrees r ev).mp hr).1.1
    exact ⟨hev, h.not_isFreed hev⟩
  · intro ev hev hout
    refine ⟨registration ev, (hs.agrees _ ev).mpr ⟨⟨hev, hout⟩, rfl⟩, fun r hr => ?_⟩
    exact ((hs.agrees r ev).mp hr).2.symm

theorem leaving_nil (hdels : s.dels = []) : s.leaving = none := by
  rw [leaving, hdels]

theorem Reporting.of_eq (h : s.Reporting) (hplace : s'.place = s.place) (hkernel : s'.db.kernel = s.db.kernel) :
    s'.Reporting := by
  obtain ⟨hnodup, hreg, hudata⟩ := h
  constructor
  · rwa [visits, hplace]
  · rw [visits, hplace, hkernel]
    exact hreg
  · rwa [hplace]

/-- No delete is under way. -/
theorem Steady.of_agrees (hagrees : s.db.Agrees none) (hrep : s.Reporting) (hdels : s.dels = []) : s.Steady := by
  refine ⟨?_, hrep, fun frame hframe => ?_, ?_, fun hne => absurd hdels hne⟩
  · rwa [leaving_nil hdels]
  · rw [hdels] at hframe
    exact absurd hframe List.not_mem_nil
  · rw [hdels]
    exact Nat.zero_le 1

/-- `del_event` takes out the event that `kq_del` has unregistered. -/
theorem Removal.steady (hr : Removal s arg byLoop r)
    (hagrees : s.db.Agrees (s.db.entry (evsetOf arg) arg.sockfd)) (hrep : s.Reporting) (hdels : s.dels = [])
    (hcalled : s.place.called = []) (hwait : s.place ≠ .wait) (hlive : s.isFreed arg = false) :
    r.2.Steady := by
  cases hr with
  | reads hfreed => exact absurd (hlive.symm.trans hfreed) (by simp)
  | absent _ hentry =>
    rw [delReturn_snd]
    exact .of_agrees (hentry ▸ hagrees) hrep hdels
  | waits _ hentry hkernel _ hmoves =>
    have hagrees' := (hentry ▸ hagrees).removes hmoves.tables hkernel hmoves.shifts
    refine ⟨hagrees', hrep.of_eq rfl hkernel, ?_, ?_, fun _ => ⟨hcalled, hwait⟩⟩
    · intro frame hframe hinside
      rw [hdels] at hframe
      obtain rfl := List.mem_singleton.mp hframe
      exact absurd hinside (by simp)
    · rw [hdels]
      exact Nat.le_refl 1
  | frees _ hentry hkernel _ hmoves =>
    have hagrees' := (hentry ▸ hagrees).removes hmoves.tables hkernel hmoves.shifts
    rw [delReturn_snd]
    exact .of_agrees hagrees' (hrep.of_eq rfl hkernel) hdels

/-- A delete that finds in its table what the kernel holds, and nothing that the batch still has. -/
theorem Dels.steady (hd : Dels s arg byLoop r) (hagrees : s.db.Agrees none) (hrep : s.Reporting)
    (hdels : s.dels = []) (hcalled : s.place.called = []) (hwait : s.place ≠ .wait)
    (hlive : s.isFreed arg = false)
    (hmatched : s.db.entry (evsetOf arg) arg.sockfd = s.db.kernel (registration arg))
    (hvisits : ∀ ev ∈ s.visits, s.db.kernel (registration arg) ≠ some ev) : r.2.Steady := by
  have hagrees' : (s.unregistered arg).db.Agrees (s.db.entry (evsetOf arg) arg.sockfd) := by
    rw [hmatched]
    exact hagrees.unregisters rfl rfl
  have hrep' : (s.unregistered arg).Reporting := by
    refine ⟨hrep.nodup, fun ev hev => ?_, hrep.udata⟩
    have hne : registration ev ≠ registration arg := by
      intro heq
      exact hvisits ev hev (heq ▸ hrep.registered ev hev)
    have hkernel : (s.unregistered arg).db.kernel (registration ev) = s.db.kernel (registration ev) :=
      Function.update_of_ne hne _ _
    rw [hkernel]
    exact hrep.registered ev hev
  have hentry : (s.unregistered arg).db.entry = s.db.entry := Evdb.entry_of_evset rfl
  cases hd with
  | goesOn hcall hr =>
    rw [← hentry] at hagrees'
    exact hr.steady hagrees' hrep' hdels hcalled hwait hlive
  | waits hcall =>
    refine ⟨hagrees', hrep'.of_eq rfl rfl, ?_, ?_, fun _ => ⟨hcalled, hwait⟩⟩
    · intro frame hframe _
      rw [hdels] at hframe
      obtain rfl := List.mem_singleton.mp hframe
      refine ⟨hlive, fun ev hev => ?_⟩
      have hev : s.db.entry (evsetOf arg) arg.sockfd = some ev := hev
      rw [hmatched] at hev
      exact ((hagrees _ _).mp hev).2
    · rw [hdels]
      exact Nat.le_refl 1

theorem Reporting.mono (h : s.Reporting) (hkernel : s'.db.kernel = s.db.kernel)
    (hvisits : s'.visits.Sublist s.visits) (hudata : ∀ k ∈ s'.place.rest, k.udata ≠ none) : s'.Reporting := by
  refine ⟨h.nodup.sublist hvisits, fun ev hev => ?_, hudata⟩
  rw [hkernel]
  exact h.registered ev (hvisits.subset hev)

theorem Handles.steady {rest : List Kevent} (hh : Handles s rest ev cb r) (h : s.Sound)
    (hagrees : s.db.Agrees none) (hrep : s.Reporting) (hdels : s.dels = [])
    (hvisits : s.visits = ev :: rest.filterMap (·.udata)) (hudata : ∀ k ∈ rest, k.udata ≠ none) :
    r.2.Steady := by
  have hmem : ev ∈ s.visits := by
    rw [hvisits]
    exact List.mem_cons_self
  have hkernel := hrep.registered ev hmem
  have hstored := ((hagrees _ _).mp hkernel).1.1
  have hscan : Reporting { s with place := .scan rest (some ev) } := by
    refine hrep.mono rfl ?_ hudata
    rw [hvisits]
    exact List.sublist_cons_self ev _
  cases hh with
  | reads hfreed => exact absurd ((h.not_isFreed hstored).symm.trans hfreed) (by simp)
  | calls =>
    refine .of_agrees hagrees (hrep.mono rfl ?_ hudata) hdels
    rw [hvisits]
    exact List.Sublist.refl _
  | stays => exact .of_agrees hagrees hscan hdels
  | dels hlive =>
    have hsound : Sound { s with place := .scan rest (some ev) } := ⟨h.tables, h.owned⟩
    refine (hsound.del_dels ev true).steady hagrees hscan hdels rfl (by simp) hlive ?_ ?_
    · exact (h.tables.mem_storedEvents.mp hstored).trans hkernel.symm
    · intro e he hc
      have heq : ev = e := Option.some.inj (hkernel.symm.trans hc)
      have hnodup := hrep.nodup
      rw [hvisits, List.nodup_cons] at hnodup
      exact hnodup.1 (heq ▸ he)

/-- Outside `handle_events`. -/
theorem reporting_of_idle (hcalled : s.place.called = []) (hrest : s.place.rest = []) : s.Reporting := by
  have hvisits : s.visits = [] := by
    rw [visits, hcalled, hrest]
    rfl
  refine ⟨?_, ?_, ?_⟩
  · rw [hvisits]
    exact List.nodup_nil
  · rw [hvisits]
    exact fun ev hev => absurd hev List.not_mem_nil
  · rw [hrest]
    exact fun k hk => absurd hk List.not_mem_nil

theorem steady_loopHead (hagrees : s.db.Agrees none) (hdels : s.dels = []) : s.loopHead.2.Steady := by
  rcases s.loopHead_cases with heq | heq
  · rw [heq]
    exact .of_agrees hagrees (reporting_of_idle rfl rfl) hdels
  · rw [heq]
    exact .of_agrees hagrees (reporting_of_idle rfl rfl) hdels

theorem Agrees.reporting {batch : List Kevent} (h : s.db.Agrees none)
    (hnodup : (batch.map fun k => (k.ident, k.filter)).Nodup)
    (hbatch : ∀ k ∈ batch, s.reportable k = true ∧ s.db.kernel (k.ident, k.filter) = k.udata) :
    Reporting { s with place := .scan batch none } := by
  have hreg : ∀ k ∈ batch, ∀ ev, k.udata = some ev →
      s.db.kernel (registration ev) = some ev ∧ registration ev = (k.ident, k.filter) := by
    intro k hk ev hudata
    have hkernel := (hbatch k hk).2.trans hudata
    have heq := ((h _ _).mp hkernel).2
    exact ⟨heq ▸ hkernel, heq⟩
  refine ⟨?_, ?_, ?_⟩
  · rw [List.nodup_iff_pairwise_ne, List.pairwise_map] at hnodup
    refine List.pairwise_filterMap.mpr (hnodup.imp_of_mem ?_)
    rintro k k' hk hk' hne ev hev _ hev' rfl
    exact hne ((hreg k hk ev hev).2.symm.trans (hreg k' hk' ev hev').2)
  · intro ev hev
    obtain ⟨k, hk, hudata⟩ := List.mem_filterMap.mp hev
    exact (hreg k hk ev hudata).1
  · intro k hk hnone
    have hrep := (hbatch k hk).1
    rw [reportable, hnone] at hrep
    exact absurd hrep (by simp)

theorem Steady.agrees_none (hs : s.Steady) (hdels : s.dels = []) : s.db.Agrees none :=
  leaving_nil hdels ▸ hs.agrees

theorem Steady.dels_of_wait (hs : s.Steady) (hplace : s.place = .wait) : s.dels = [] := by
  by_contra hne
  exact (hs.idle hne).2 hplace

/-- An add that finds the descriptor free. -/
theorem Adds.steady {ok : Bool} (ha : Adds s ev ok r) (hagrees : s.db.Agrees none) (hdels : s.dels = [])
    (hplace : s.place = .main) (hok : ok = true) (hvacant : s.db.kernel (registration ev) = none)
    (hroom : s.db.entry (evsetOf ev) ev.sockfd = none ∧ s.db.hasRoom ev = true) : r.2.Steady := by
  cases ha with
  | refused => exact absurd hok (by simp)
  | unstored _ _ hfull => exact absurd hroom hfull
  | @stored db hkernel hmoves _ =>
    apply Steady.of_agrees (hagrees.adds hkernel hvacant hmoves.shifts) _ hdels
    apply reporting_of_idle
    · rw [hplace]
      rfl
    · rw [hplace]
      rfl

/-- A delete goes on where a cleanup callback has interrupted it. -/
theorem Steady.delResume (h : s.Sound) (hs : s.Steady) (hdels : s.dels = frame :: dels) :
    (({ s with dels := dels } : KqState).delResume frame).2.Steady := by
  have hsingle := hs.single
  have hagrees := hs.agrees
  obtain ⟨hcalled, hwait⟩ := hs.idle (by rw [hdels]; simp)
  have hframe := hs.frames frame (by rw [hdels]; exact List.mem_cons_self)
  rw [hdels, List.length_cons] at hsingle
  obtain rfl : dels = [] := List.eq_nil_of_length_eq_zero (by omega)
  have hrep : (s.popped []).Reporting := hs.reporting.of_eq rfl rfl
  obtain ⟨arg, inside, byLoop⟩ := frame
  rw [leaving, hdels] at hagrees
  cases inside with
  | some ev =>
    unfold KqState.delResume
    dsimp only
    rw [delReturn_snd]
    exact .of_agrees hagrees (hrep.of_eq rfl rfl) rfl
  | none =>
    have hr := (h.popped_none hdels rfl).delRest_removal arg byLoop
    exact hr.steady hagrees hrep rfl hcalled hwait (hframe rfl).1

/-- One entry of the batch, or the end of it. -/
theorem Steady.handleOne {rest : List Kevent} {v : Option MclEvent} (h : s.Sound) (hs : s.Steady)
    (hplace : s.place = .scan rest v) (hdels : s.dels = []) : (s.handleOne rest v).2.Steady := by
  have hagrees := hs.agrees_none hdels
  have hudata : ∀ k ∈ rest, k.udata ≠ none := fun k hk => hs.reporting.udata k (by rw [hplace]; exact hk)
  rcases handleOne_cases hudata v s with ⟨rfl, heq⟩ | ⟨k, rest, ev, rfl, hev, hcases⟩
  · rw [heq]
    exact steady_loopHead hagrees hdels
  · have hvisits : s.visits = ev :: rest.filterMap (·.udata) := by
      rw [visits, hplace]
      exact List.filterMap_cons_some hev
    have hudata' : ∀ k' ∈ rest, k'.udata ≠ none := fun k' hk' => hudata k' (List.mem_cons_of_mem _ hk')
    rcases hcases with ⟨-, hh⟩ | ⟨-, heq⟩
    · exact hh.steady h hagrees hs.reporting hdels hvisits hudata'
    · rw [heq]
      refine .of_agrees hagrees (hs.reporting.mono rfl ?_ hudata') hdels
      rw [hvisits]
      exact List.sublist_cons_self ev _

theorem Steady.step (h : s.Sound) (hs : s.Steady) (hst : Step s l r) (hquiet : s.quiet l = true)
    (horderly : s.orderly l = true) (hmatched : s.matched l = true) : r.2.Steady := by
  cases hst with
  | @add ev ok huser hpass hrel =>
    obtain ⟨hplace, hdels⟩ : s.place = .main ∧ s.dels = [] := of_decide_eq_true hquiet
    rw [orderly, Bool.and_eq_true, Bool.and_eq_true, beq_iff_eq] at horderly
    rw [matched, Bool.and_eq_true, beq_iff_eq] at hmatched
    obtain ⟨⟨-, hok⟩, hvacant⟩ := horderly
    exact (h.add_adds hpass hrel ok).steady (hs.agrees_none hdels) hdels hplace hok hvacant hmatched
  | @del arg huser hpass =>
    obtain ⟨hplace, hdels⟩ : s.place = .main ∧ s.dels = [] := of_decide_eq_true hquiet
    have hvisits : s.visits = [] := by
      rw [visits, hplace]
      rfl
    refine (h.del_dels arg false).steady (hs.agrees_none hdels) hs.reporting hdels ?_ ?_
      (not_isFreed_of_passable hpass) (beq_iff_eq.mp hmatched) ?_
    · rw [hplace]
      rfl
    · rw [hplace]
      simp
    · rw [hvisits]
      exact fun ev hev => absurd hev List.not_mem_nil
  | loopexit => exact ⟨hs.agrees, hs.reporting.of_eq rfl rfl, hs.frames, hs.single, hs.idle⟩
  | loop tval hplace hdels =>
    exact steady_loopHead (s := { s with tval := _, tspec := _ }) (hs.agrees_none hdels) hdels
  | resumed _ hdels => exact hs.delResume h hdels
  | @called rest ev hplace hdels =>
    refine (handleCalled_handles rest ev s).steady h (hs.agrees_none hdels) hs.reporting hdels ?_ ?_
    · rw [visits, hplace]
      rfl
    · intro k hk
      exact hs.reporting.udata k (by rw [hplace]; exact hk)
  | failed hplace =>
    have hdels := hs.dels_of_wait hplace
    exact .of_agrees (hs.agrees_none hdels) (reporting_of_idle rfl rfl) hdels
  | @polled batch hplace hbatch =>
    have hdels := hs.dels_of_wait hplace
    have hagrees := hs.agrees_none hdels
    rw [orderly, Bool.and_eq_true, List.all_eq_true] at horderly
    refine .of_agrees hagrees (Agrees.reporting hagrees (of_decide_eq_true horderly.1) ?_) hdels
    exact fun k hk => ⟨hbatch k hk, beq_iff_eq.mp (horderly.2 k hk)⟩
  | handle hplace hdels => exact hs.handleOne h hplace hdels

theorem Moves.stored_of_keeps (hm : Moves s s' .keeps) (he : e ∈ s.db.storedEvents) :
    e ∈ s'.db.storedEvents := by
  cases hm.shifts with
  | keeps _ hstored => exact hstored.mem_iff.mpr he

theorem Moves.stored_of_adds (hm : Moves s s' (.adds ev)) (he : e ∈ s.db.storedEvents) :
    e ∈ s'.db.storedEvents := by
  cases hm.shifts with
  | adds _ _ hstored => exact hstored.mem_iff.mpr (List.mem_cons_of_mem _ he)

theorem Moves.stored_of_removes (hm : Moves s s' (.removes ev)) (he : e ∈ s.db.storedEvents) :
    e = ev ∨ e ∈ s'.db.storedEvents := by
  cases hm.shifts with
  | removes _ _ hstored => exact List.mem_cons.mp (hstored.mem_iff.mp he)

/-- The fired event is what is found under its descriptor. -/
theorem Steady.handles_stored {rest : List Kevent} (h : s.Sound) (hs : s.Steady) (hev : ev ∈ s.visits)
    (hh : Handles s rest ev cb r) (he : e ∈ s.db.storedEvents) : e ∈ r.2.db.storedEvents ∨ e = ev := by
  have hfound := h.tables.mem_storedEvents.mp ((hs.agrees _ _).mp (hs.reporting.registered ev hev)).1.1
  rcases hh.moves h with hm | ⟨ev', hentry, -, hm⟩
  · exact .inl (hm.stored_of_keeps he)
  · obtain rfl : ev = ev' := Option.some.inj (hfound.symm.trans hentry)
    exact (hm.stored_of_removes he).symm

theorem Steady.handleOne_stored {rest : List Kevent} {v : Option MclEvent} (h : s.Sound) (hs : s.Steady)
    (hplace : s.place = .scan rest v) (he : e ∈ s.db.storedEvents) :
    e ∈ (s.handleOne rest v).2.db.storedEvents ∨ rest.head?.bind (·.udata) = some e := by
  have hudata : ∀ k ∈ rest, k.udata ≠ none := fun k hk => hs.reporting.udata k (by rw [hplace]; exact hk)
  rcases handleOne_cases hudata v s with ⟨rfl, heq⟩ | ⟨k, rest, ev, rfl, hev, ⟨-, hh⟩ | ⟨-, heq⟩⟩
  · rw [heq, loopHead_db]
    exact .inl he
  · have hvisit : ev ∈ s.visits := by
      rw [visits, hplace]
      exact List.mem_filterMap.mpr ⟨k, List.mem_cons_self, hev⟩
    refine (hs.handles_stored h hvisit hh he).imp_right ?_
    rintro rfl
    exact hev
  · rw [heq]
    exact .inl he

theorem Steady.selective (h : s.Sound) (hs : s.Steady) : s.Selective := by
  intro l r hok hexec e he
  rw [Bool.and_eq_true, Bool.and_eq_true] at hok
  obtain ⟨⟨hquiet, -⟩, hmatched⟩ := hok
  have hst := exec_inv hexec
  cases hst with
  | @add ev ok huser hpass hrel =>
    left
    rcases (h.add_adds hpass hrel ok).moves h with hm | hm
    · exact hm.stored_of_keeps he
    · exact hm.stored_of_adds he
  | @del arg huser hpass =>
    rcases (h.del_dels arg false).moves h with hm | ⟨ev, hentry, hm⟩
    · exact .inl (hm.stored_of_keeps he)
    · refine (hm.stored_of_removes he).symm.imp_right ?_
      rintro rfl
      rw [beq_iff_eq.mp hmatched] at hentry
      exact ⟨arg, rfl, ((hs.agrees _ _).mp hentry).2.symm⟩
  | loopexit => exact .inl he
  | loop tval =>
    rw [KqState.loop, loopHead_db]
    exact .inl he
  | @resumed frame dels huser hdels =>
    rcases h.delResume_moves hdels with hm | ⟨ev, hinside, hentry, hm⟩
    · exact .inl (hm.stored_of_keeps he)
    · refine (hm.stored_of_removes he).symm.imp_right ?_
      rintro rfl
      have hframe := hs.frames frame (by rw [hdels]; exact List.mem_cons_self) hinside
      exact ⟨frame.arg, by rw [deleted, hdels]; rfl, (hframe.2 e hentry).symm⟩
  | @called rest ev hplace hdels =>
    have hev : ev ∈ s.visits := by
      rw [visits, hplace]
      exact List.mem_cons_self
    refine (hs.handles_stored h hev (handleCalled_handles rest ev s) he).imp_right ?_
    rintro rfl
    exact ⟨e, by rw [deleted, hdels, hplace]; rfl, rfl⟩
  | failed => exact .inl he
  | polled => exact .inl he
  | @handle rest v hplace hdels =>
    refine (hs.handleOne_stored h hplace he).imp_right fun hudata => ?_
    exact ⟨e, by rw [deleted, hplace]; exact hudata, rfl⟩

theorem steady_init : init.Steady := by
  refine .of_agrees (fun r ev => ?_) (reporting_of_idle rfl rfl) rfl
  rw [storedEvents_init]
  exact iff_of_false (by simp [init, kqInit]) (by simp)

end KqState
end Mcl.Kqueue
