import Mcl.Net.KqueueSound

/-! What the calls and the loop of the kqueue backend do in a sound state. -/
namespace Mcl.Kqueue
open Mcl.Library

/-- The event that a change takes out. -/
def Change.left : Change → List MclEvent
  | .removes ev => [ev]
  | _ => []

/-- `handle_events` reads the event of the entry. -/
def Kevent.isRead (k : Kevent) : Bool :=
  k.error || k.filter &&& evfiltRead != 0 || k.filter &&& evfiltWrite != 0

/-- The callback that `handle_events` makes for the entry. -/
def Kevent.handler (k : Kevent) (ev : MclEvent) : Option EventCb := if k.error then ev.errorCb else ev.callback

/-- What `handle_events` has not come to. -/
def Place.rest : Place → List Kevent
  | .scan rest _ | .callback rest _ => rest
  | _ => []

/-- The event whose callback runs is read when the callback returns. -/
def Place.called : Place → List MclEvent
  | .callback _ ev => [ev]
  | _ => []

namespace KqState

variable {s s' : KqState} {ev arg : MclEvent} {c : Change} {byLoop : Bool} {frame : DelFrame}
  {dels : List DelFrame} {rest : List Kevent} {k : Kevent} {cb : Option EventCb} {l : KqStep}
  {r : Shown × KqState}

/-- Every event has one owner. -/
structure Sound (s : KqState) : Prop where
  tables : s.db.Sound
  owned : ((s.db.storedEvents ++ s.gone).map (·.addr)).Nodup

/-- What a change makes of the tables and of the events that have left them. -/
structure Moves (s s' : KqState) (c : Change) : Prop where
  tables : s'.db.Sound
  shifts : s.db.Shifts s'.db c
  gone : s'.gone.Perm (c.left ++ s.gone)
  fresh : ∀ ev, c = .adds ev → ∀ e ∈ s.db.storedEvents ++ s.gone, e.addr ≠ ev.addr

theorem Moves.sound (hm : Moves s s' c) (h : s.Sound) : s'.Sound := by
  apply Sound.mk hm.tables
  have hgone := hm.gone
  have hnd := h.owned
  cases hm.shifts with
  | keeps hentry hstored => exact ((hstored.append hgone).map _).nodup_iff.mpr hnd
  | @adds ev hvacant hentry hstored =>
    apply ((hstored.append hgone).map _).nodup_iff.mpr
    apply List.nodup_cons.mpr ⟨_, hnd⟩
    intro hmem
    obtain ⟨e, he, haddr⟩ := List.mem_map.mp hmem
    exact hm.fresh ev rfl e he haddr
  | @removes ev hfound hentry hstored =>
    have hperm : (s.db.storedEvents ++ s.gone).Perm (s'.db.storedEvents ++ s'.gone) :=
      (hstored.append_right _).trans (List.perm_middle.symm.trans (List.Perm.append_left _ hgone.symm))
    exact (hperm.map _).nodup_iff.mp hnd

/-- A step that touches no table. -/
theorem Sound.moves_self (h : s.Sound) (hevset : s'.db.evset = s.db.evset) (hgone : s'.gone.Perm s.gone) :
    Moves s s' .keeps :=
  ⟨h.tables.of_evset hevset, .of_evset hevset, hgone, fun _ hc => absurd hc (by simp)⟩

/-- A stored event is none of those on their way out. -/
theorem Sound.addr_ne_of_stored (h : s.Sound) (hev : ev ∈ s.db.storedEvents) {e : MclEvent} (he : e ∈ s.gone) :
    e.addr ≠ ev.addr := by
  have hnd := h.owned
  rw [List.map_append, List.nodup_append] at hnd
  exact fun haddr => hnd.2.2 _ (List.mem_map_of_mem hev) _ (List.mem_map_of_mem he) haddr.symm

theorem Sound.not_isFreed (h : s.Sound) (hev : ev ∈ s.db.storedEvents) : s.isFreed ev = false := by
  rw [isFreed, List.any_eq_false]
  intro e he hc
  exact h.addr_ne_of_stored hev (List.mem_append_right _ he) (beq_iff_eq.mp hc)

theorem not_isFreed_of_passable (hpass : s.passable ev = true) : s.isFreed ev = false := by
  rw [passable, Bool.and_eq_true] at hpass
  simpa using hpass.1

theorem eq_of_passable (hpass : s.passable ev = true) {e : MclEvent}
    (he : e ∈ s.db.storedEvents ++ s.releasing) (haddr : e.addr = ev.addr) : e = ev := by
  rw [passable, Bool.and_eq_true, List.all_eq_true] at hpass
  have := hpass.2 e he
  rw [Bool.or_eq_true] at this
  exact beq_iff_eq.mp (this.resolve_left (by simp [haddr]))

/-! Adding. -/

/-- An event that is handed over is not on its way out. -/
theorem addr_ne_of_gone (hpass : s.passable ev = true) (hrel : ∀ e ∈ s.releasing, e.addr ≠ ev.addr) :
    ∀ e ∈ s.gone, e.addr ≠ ev.addr := by
  intro e he haddr
  rcases List.mem_append.mp he with he | he
  · exact hrel e he haddr
  · have hfree := not_isFreed_of_passable hpass
    rw [isFreed, List.any_eq_false] at hfree
    exact hfree e he (by simp [haddr])

/-- What `mcl_event_add` does. The result says only whether the kernel has taken the descriptor. -/
inductive Adds (s : KqState) (ev : MclEvent) : Bool → Shown × KqState → Prop where
  | refused : Adds s ev false (.ret 0, s)
  | unstored {db : Evdb} (hkernel : db.kernel = Function.update s.db.kernel (ev.sockfd, filterOf ev) (some ev))
      (hmoves : Moves s { s with db := db } .keeps)
      (hfull : ¬ (s.db.entry (evsetOf ev) ev.sockfd = none ∧ s.db.hasRoom ev = true)) :
      Adds s ev true (.ret 1, { s with db := db })
  | stored {db : Evdb} (hkernel : db.kernel = Function.update s.db.kernel (ev.sockfd, filterOf ev) (some ev))
      (hmoves : Moves s { s with db := db } (.adds ev)) (hroom : s.db.hasRoom ev = true) :
      Adds s ev true (.ret 1, { s with db := db })

theorem Adds.outcome {ok : Bool} (ha : Adds s ev ok r) : ∃ n db, r = (.ret n, { s with db := db }) := by
  cases ha with
  | refused => exact ⟨0, s.db, rfl⟩
  | unstored => exact ⟨1, _, rfl⟩
  | stored => exact ⟨1, _, rfl⟩

theorem Sound.add_adds (h : s.Sound) (hpass : s.passable ev = true)
    (hrel : ∀ e ∈ s.releasing, e.addr ≠ ev.addr) (ok : Bool) : Adds s ev ok (s.add ev ok) := by
  cases ok with
  | false => exact .refused
  | true =>
    have hsound : Evdb.Sound { s.db with
        kernel := Function.update s.db.kernel (ev.sockfd, filterOf ev) (some ev) } :=
      h.tables.of_evset rfl
    obtain ⟨db', hadd, hkernel, hsound', hcases⟩ := hsound.addEvent_shifts ev
    have hres : s.add ev true = (.ret 1, { s with db := db' }) := by
      unfold add kqAdd keventAdd
      rw [if_pos rfl]
      dsimp only
      rw [hadd]
      rfl
    rw [hres]
    rcases hcases with ⟨hshifts, hfull⟩ | ⟨hshifts, hroom⟩
    · apply Adds.unstored hkernel _ hfull
      exact ⟨hsound', hshifts.after s.db rfl, .refl _, fun _ hc => absurd hc (by simp)⟩
    · apply Adds.stored hkernel _ hroom
      apply Moves.mk hsound' (hshifts.after s.db rfl) (.refl _)
      intro ev' hc e he haddr
      obtain rfl : ev = ev' := Change.adds.inj hc
      rcases List.mem_append.mp he with he | he
      · -- what is stored is found under its own descriptor
        obtain rfl := eq_of_passable hpass (List.mem_append_left _ he) haddr
        cases hshifts.after s.db rfl with
        | adds hvacant hentry hstored =>
          rw [h.tables.mem_storedEvents.mp he] at hvacant
          exact absurd hvacant (by simp)
      · exact addr_ne_of_gone hpass hrel e he haddr

/-! Deleting. -/

theorem Moves.after (hm : Moves s s' c) {t : KqState} (hevset : s.db.evset = t.db.evset)
    (hgone : s.gone = t.gone) : Moves t s' c := by
  apply Moves.mk hm.tables (hm.shifts.after t.db hevset) (hgone ▸ hm.gone)
  intro ev hc
  rw [← hgone, ← Evdb.storedEvents_of_evset hevset]
  exact hm.fresh ev hc

theorem free_gone (ev : MclEvent) (byLoop : Bool) (s : KqState) :
    (s.free ev byLoop).gone.Perm (ev :: s.gone) := List.perm_middle

theorem delReturn_snd (byLoop : Bool) (s : KqState) : (s.delReturn byLoop).2 = s := by
  cases byLoop <;> rfl

/-- What `kq_del` does after its call of the cleanup callback. -/
inductive Removal (s : KqState) (arg : MclEvent) (byLoop : Bool) : Shown × KqState → Prop where
  | reads (hfreed : s.isFreed arg = true) : Removal s arg byLoop (s.fault (.reads arg byLoop))
  | absent (hlive : s.isFreed arg = false) (hentry : s.db.entry (evsetOf arg) arg.sockfd = none) :
      Removal s arg byLoop (s.delReturn byLoop)
  | waits {db : Evdb} {ev : MclEvent} {call : EventCall} (hlive : s.isFreed arg = false)
      (hentry : s.db.entry (evsetOf arg) arg.sockfd = some ev) (hkernel : db.kernel = s.db.kernel)
      (hcall : ev.cleanupCall = some call)
      (hmoves : Moves s { s with db := db, dels := ⟨arg, some ev, byLoop⟩ :: s.dels } (.removes ev)) :
      Removal s arg byLoop (.call call, { s with db := db, dels := ⟨arg, some ev, byLoop⟩ :: s.dels })
  | frees {db : Evdb} {ev : MclEvent} (hlive : s.isFreed arg = false)
      (hentry : s.db.entry (evsetOf arg) arg.sockfd = some ev) (hkernel : db.kernel = s.db.kernel)
      (hcall : ev.cleanupCall = none)
      (hmoves : Moves s ({ s with db := db }.free ev byLoop) (.removes ev)) :
      Removal s arg byLoop (({ s with db := db }.free ev byLoop).delReturn byLoop)

theorem Sound.delRest_removal (h : s.Sound) (arg : MclEvent) (byLoop : Bool) :
    Removal s arg byLoop (s.delRest arg byLoop) := by
  unfold delRest
  by_cases hfreed : s.isFreed arg = true
  · rw [if_pos hfreed]
    exact .reads hfreed
  · rw [if_neg hfreed]
    rw [Bool.not_eq_true] at hfreed
    rcases h.tables.delEvent_shifts arg with ⟨hentry, hdel⟩ | ⟨ev, db, hentry, hdel, hkernel, hsound, hshifts⟩
    · rw [hdel]
      exact .absent hfreed hentry
    · have hev := h.tables.of_entry hentry
      have hstored : ev ∈ s.db.storedEvents := by
        rw [h.tables.mem_storedEvents, hev.1, hev.2]
        exact hentry
      have hlive : isFreed { s with db := db } ev = false := h.not_isFreed hstored
      have hmoves : ∀ t : KqState, t.db = db → t.gone.Perm (ev :: s.gone) → Moves s t (.removes ev) :=
        fun t hdb hgone => ⟨hdb ▸ hsound, hdb ▸ hshifts, hgone, fun _ hc => absurd hc (by simp)⟩
      rw [hdel]
      dsimp only
      rw [if_neg (by rw [hlive]; exact Bool.false_ne_true)]
      cases hcall : ev.cleanupCall with
      | some call => exact .waits hfreed hentry hkernel hcall (hmoves _ rfl (.refl _))
      | none => exact .frees hfreed hentry hkernel hcall (hmoves _ rfl (free_gone _ _ _))

theorem Removal.moves (h : s.Sound) (hr : Removal s arg byLoop r) :
    Moves s r.2 .keeps ∨ ∃ ev, s.db.entry (evsetOf arg) arg.sockfd = some ev ∧ Moves s r.2 (.removes ev) := by
  cases hr with
  | reads => exact .inl (h.moves_self rfl (.refl _))
  | absent =>
    rw [delReturn_snd]
    exact .inl (h.moves_self rfl (.refl _))
  | waits _ hentry _ _ hmoves => exact .inr ⟨_, hentry, hmoves⟩
  | frees _ hentry _ _ hmoves =>
    rw [delReturn_snd]
    exact .inr ⟨_, hentry, hmoves⟩

/-- `kq_del` after its `EV_DELETE`. -/
def unregistered (arg : MclEvent) (s : KqState) : KqState := { s with db := keventDelete arg s.db }

theorem Sound.unregistered (h : s.Sound) (arg : MclEvent) : (s.unregistered arg).Sound :=
  ⟨h.tables.of_evset rfl, h.owned⟩

/-- What `kq_del` does: it waits for the cleanup callback of its argument, or goes on. -/
inductive Dels (s : KqState) (arg : MclEvent) (byLoop : Bool) : Shown × KqState → Prop where
  | waits {call : EventCall} (hcall : arg.cleanupCall = some call) :
      Dels s arg byLoop (.call call, { s.unregistered arg with dels := ⟨arg, none, byLoop⟩ :: s.dels })
  | goesOn {r : Shown × KqState} (hcall : arg.cleanupCall = none)
      (hr : Removal (s.unregistered arg) arg byLoop r) : Dels s arg byLoop r

theorem Sound.del_dels (h : s.Sound) (arg : MclEvent) (byLoop : Bool) : Dels s arg byLoop (s.del arg byLoop) := by
  unfold del
  dsimp only
  cases hcall : arg.cleanupCall with
  | some call => exact .waits hcall
  | none => exact .goesOn hcall ((h.unregistered arg).delRest_removal arg byLoop)

theorem Dels.moves (h : s.Sound) (hd : Dels s arg byLoop r) :
    Moves s r.2 .keeps ∨ ∃ ev, s.db.entry (evsetOf arg) arg.sockfd = some ev ∧ Moves s r.2 (.removes ev) := by
  cases hd with
  | waits hcall => exact .inl (h.moves_self rfl (.refl _))
  | goesOn hcall hr =>
    have hentry : (s.unregistered arg).db.entry = s.db.entry := Evdb.entry_of_evset rfl
    rcases hr.moves (h.unregistered arg) with hm | ⟨ev, he, hm⟩
    · exact .inl (hm.after rfl rfl)
    · rw [hentry] at he
      exact .inr ⟨ev, he, hm.after rfl rfl⟩

/-! The loop. -/

/-- What `handle_events` does with an event whose callback is `cb`, `rest` being what it has not
come to. -/
inductive Handles (s : KqState) (rest : List Kevent) (ev : MclEvent) :
    Option EventCb → Shown × KqState → Prop where
  | reads {cb : Option EventCb} (hfreed : s.isFreed ev = true) :
      Handles s rest ev cb (s.fault (.reads ev true))
  | calls {cb : EventCb} {call : EventCall} (hlive : s.isFreed ev = false) (htype : call.evType ≠ mclEvDel) :
      Handles s rest ev (some cb) (.call call, { s with place := .callback rest ev })
  | stays (hlive : s.isFreed ev = false) :
      Handles s rest ev none (.nothing, { s with place := .scan rest (some ev) })
  | dels (hlive : s.isFreed ev = false) (hfires : ev.evType &&& mclEvPersist = 0) :
      Handles s rest ev none ({ s with place := .scan rest (some ev) }.del ev true)

theorem handleCalled_handles (rest : List Kevent) (ev : MclEvent) (s : KqState) :
    Handles s rest ev none (s.handleCalled rest ev) := by
  unfold handleCalled
  by_cases hfreed : s.isFreed ev = true
  · rw [if_pos hfreed]
    exact .reads hfreed
  · rw [if_neg hfreed]
    rw [Bool.not_eq_true] at hfreed
    dsimp only
    split
    · next hfires => exact .dels hfreed hfires
    · exact .stays hfreed

theorem handleCall_handles (k : Kevent) (rest : List Kevent) (ev : MclEvent) (cb : Option EventCb)
    {evType : BitVec 32} (htype : evType ≠ mclEvDel) (s : KqState) :
    Handles s rest ev cb (s.handleCall k rest ev cb evType) := by
  unfold handleCall
  split
  · next hfreed => exact .reads hfreed
  · next hfreed =>
    rw [Bool.not_eq_true] at hfreed
    cases cb with
    | some cb => exact .calls hfreed htype
    | none => exact handleCalled_handles rest ev s

theorem handleOne_handles (hudata : k.udata = some ev) (hread : k.isRead = true) (v : Option MclEvent)
    (s : KqState) : Handles s rest ev (k.handler ev) (s.handleOne (k :: rest) v) := by
  unfold handleOne Kevent.handler
  dsimp only
  rw [hudata]
  dsimp only
  split
  · exact handleCall_handles k rest ev _ (by decide) s
  · next herror =>
    split
    · exact handleCall_handles k rest ev _ (by decide) s
    · next hreadf =>
      split
      · exact handleCall_handles k rest ev _ (by decide) s
      · next hwritef =>
        rw [not_not] at hreadf hwritef
        simp [Kevent.isRead, herror, hreadf, hwritef] at hread

theorem handleOne_skips (hudata : k.udata = some ev) (hread : k.isRead = false) (v : Option MclEvent)
    (s : KqState) :
    s.handleOne (k :: rest) v = (.nothing, { s with place := .scan rest (some ev) }) := by
  simp only [Kevent.isRead, Bool.or_eq_false_iff, bne_eq_false_iff_eq] at hread
  obtain ⟨⟨herror, hreadf⟩, hwritef⟩ := hread
  simp only [handleOne, hudata, herror, hreadf, hwritef, ne_eq, not_true, if_false, Bool.false_eq_true]

theorem handleOne_noEvent (hudata : k.udata = none) (v : Option MclEvent) (s : KqState) :
    s.handleOne (k :: rest) v = s.fault .noEvent ∨
      ∃ ev, v = some ev ∧ Handles s rest ev none (s.handleOne (k :: rest) v) := by
  unfold handleOne
  dsimp only
  rw [hudata]
  cases v with
  | none => exact .inl rfl
  | some ev => exact .inr ⟨ev, rfl, handleCalled_handles rest ev s⟩

/-- A round of the loop, where every entry has an event. -/
theorem handleOne_cases (hudata : ∀ k ∈ rest, k.udata ≠ none) (v : Option MclEvent) (s : KqState) :
    (rest = [] ∧ s.handleOne rest v = s.loopHead) ∨
      ∃ k rest' ev, rest = k :: rest' ∧ k.udata = some ev ∧
        (k.isRead = true ∧ Handles s rest' ev (k.handler ev) (s.handleOne rest v) ∨
          k.isRead = false ∧ s.handleOne rest v = (.nothing, { s with place := .scan rest' (some ev) })) := by
  cases rest with
  | nil => exact .inl ⟨rfl, rfl⟩
  | cons k rest =>
    obtain ⟨ev, hev⟩ := Option.ne_none_iff_exists'.mp (hudata k List.mem_cons_self)
    refine .inr ⟨k, rest, ev, rfl, hev, ?_⟩
    cases hread : k.isRead with
    | true => exact .inl ⟨rfl, handleOne_handles hev hread v s⟩
    | false => exact .inr ⟨rfl, handleOne_skips hev hread v s⟩

/-- The head of the loop returns from `kq_dispatch` or enters `kevent`. -/
theorem loopHead_cases (s : KqState) :
    s.loopHead = (.ret 1, { s with place := .main }) ∨ s.loopHead = (.nothing, { s with place := .wait }) := by
  unfold loopHead
  split
  · exact .inl rfl
  · exact .inr rfl

theorem loopHead_db (s : KqState) : s.loopHead.2.db = s.db := by
  rcases s.loopHead_cases with heq | heq
  · rw [heq]
  · rw [heq]

theorem loopHead_gone (s : KqState) : s.loopHead.2.gone = s.gone := by
  rcases s.loopHead_cases with heq | heq
  · rw [heq]
    rfl
  · rw [heq]
    rfl

theorem Handles.moves (h : s.Sound) (hh : Handles s rest ev cb r) : Moves s r.2 .keeps ∨
    ∃ e, s.db.entry (evsetOf ev) ev.sockfd = some e ∧ ev.evType &&& mclEvPersist = 0 ∧
      Moves s r.2 (.removes e) := by
  cases hh with
  | reads => exact .inl (h.moves_self rfl (.refl _))
  | calls => exact .inl (h.moves_self rfl (.refl _))
  | stays => exact .inl (h.moves_self rfl (.refl _))
  | dels hlive hfires =>
    have hsound : Sound { s with place := .scan rest (some ev) } := ⟨h.tables, h.owned⟩
    rcases (hsound.del_dels ev true).moves hsound with hm | ⟨e, he, hm⟩
    · exact .inl (hm.after rfl rfl)
    · exact .inr ⟨e, he, hfires, hm.after rfl rfl⟩

/-! The steps. -/

inductive Step (s : KqState) : KqStep → Shown × KqState → Prop where
  | add {ev : MclEvent} {ok : Bool} (huser : s.inUser = true) (hpass : s.passable ev = true)
      (hrel : ∀ e ∈ s.releasing, e.addr ≠ ev.addr) : Step s (.add ev ok) (s.add ev ok)
  | del {arg : MclEvent} (huser : s.inUser = true) (hpass : s.passable arg = true) :
      Step s (.del arg) (s.del arg false)
  | loopexit (huser : s.inUser = true) : Step s .loopexit (.nothing, { s with termFlag := true })
  | loop (tval : Option Timeval) (hplace : s.place = .main) (hdels : s.dels = []) :
      Step s (.loop tval) (s.loop tval)
  | resumed {frame : DelFrame} {dels : List DelFrame} (huser : s.inUser = true)
      (hdels : s.dels = frame :: dels) : Step s .ret ({ s with dels := dels }.delResume frame)
  | called {rest : List Kevent} {ev : MclEvent} (hplace : s.place = .callback rest ev)
      (hdels : s.dels = []) : Step s .ret (s.handleCalled rest ev)
  | failed (hplace : s.place = .wait) : Step s (.polled none) (.ret 0, { s with place := .main })
  | polled {batch : List Kevent} (hplace : s.place = .wait) (hbatch : ∀ k ∈ batch, s.reportable k = true) :
      Step s (.polled (some batch)) (.nothing, { s with place := .scan batch none })
  | handle {rest : List Kevent} {v : Option MclEvent} (hplace : s.place = .scan rest v)
      (hdels : s.dels = []) : Step s .handle (s.handleOne rest v)

theorem exec_inv (he : s.exec l = some r) : Step s l r := by
  cases l with
  | add ev ok =>
    simp only [exec, Option.ite_none_right_eq_some, Option.some.injEq] at he
    obtain ⟨⟨huser, hpass, hrel⟩, rfl⟩ := he
    exact .add huser hpass hrel
  | del arg =>
    simp only [exec, Option.ite_none_right_eq_some, Option.some.injEq] at he
    obtain ⟨⟨huser, hpass⟩, rfl⟩ := he
    exact .del huser hpass
  | loopexit =>
    simp only [exec, Option.ite_none_right_eq_some, Option.some.injEq] at he
    obtain ⟨huser, rfl⟩ := he
    exact .loopexit huser
  | loop tval =>
    simp only [exec, Option.ite_none_right_eq_some, Option.some.injEq] at he
    obtain ⟨⟨hplace, hdels⟩, rfl⟩ := he
    exact .loop tval hplace hdels
  | ret =>
    simp only [exec] at he
    split at he
    · next frame dels _ hdels =>
      simp only [Option.ite_none_right_eq_some, Option.some.injEq] at he
      obtain ⟨huser, rfl⟩ := he
      exact .resumed huser hdels
    · next rest ev hdels hplace =>
      obtain rfl := Option.some.inj he
      exact .called hplace hdels
    · exact absurd he (by simp)
  | polled batch =>
    simp only [exec, Option.ite_none_right_eq_some] at he
    obtain ⟨hplace, he⟩ := he
    cases batch with
    | none =>
      obtain rfl := Option.some.inj he
      exact .failed hplace
    | some batch =>
      simp only [Option.ite_none_right_eq_some, Option.some.injEq, List.all_eq_true] at he
      obtain ⟨hbatch, rfl⟩ := he
      exact .polled hplace hbatch
  | handle =>
    simp only [exec] at he
    split at he
    · next rest v hdels hplace =>
      obtain rfl := Option.some.inj he
      exact .handle hplace hdels
    · exact absurd he (by simp)

/-- The state in which a cleanup callback has returned. -/
def popped (dels : List DelFrame) (s : KqState) : KqState := { s with dels := dels }

theorem gone_popped (hdels : s.dels = frame :: dels) :
    s.gone = frame.inside.toList ++ (s.popped dels).gone := by
  simp only [gone, releasing, popped, hdels]
  cases hinside : frame.inside with
  | none => rw [List.filterMap_cons_none hinside]; rfl
  | some ev => rw [List.filterMap_cons_some hinside]; rfl

theorem gone_popped_none (hdels : s.dels = frame :: dels) (hinside : frame.inside = none) :
    (s.popped dels).gone = s.gone := by
  rw [gone_popped hdels, hinside]
  rfl

theorem Sound.popped_none (h : s.Sound) (hdels : s.dels = frame :: dels) (hinside : frame.inside = none) :
    (s.popped dels).Sound := by
  refine ⟨h.tables, ?_⟩
  rw [gone_popped_none hdels hinside]
  exact h.owned

theorem Sound.delResume_moves (h : s.Sound) (hdels : s.dels = frame :: dels) :
    Moves s ((s.popped dels).delResume frame).2 .keeps ∨
      ∃ ev, frame.inside = none ∧ s.db.entry (evsetOf frame.arg) frame.arg.sockfd = some ev ∧
        Moves s ((s.popped dels).delResume frame).2 (.removes ev) := by
  unfold delResume
  cases hinside : frame.inside with
  | some ev =>
    left
    dsimp only
    rw [delReturn_snd]
    refine h.moves_self rfl ((free_gone _ _ _).trans ?_)
    rw [gone_popped hdels, hinside]
    exact .refl _
  | none =>
    have hgone := gone_popped_none hdels hinside
    have hsound := h.popped_none hdels hinside
    rcases (hsound.delRest_removal frame.arg frame.byLoop).moves hsound with hm | ⟨ev, he, hm⟩
    · exact .inl (hm.after rfl hgone)
    · exact .inr ⟨ev, rfl, he, hm.after rfl hgone⟩

/-- A step that adds nothing. -/
def Leaves (s s' : KqState) : Prop := Moves s s' .keeps ∨ ∃ ev, Moves s s' (.removes ev)

theorem Handles.leaves (h : s.Sound) (hh : Handles s rest ev cb r) : Leaves s r.2 := by
  rcases hh.moves h with hm | ⟨e, -, -, hm⟩
  · exact .inl hm
  · exact .inr ⟨e, hm⟩

theorem Sound.loopHead_leaves (h : s.Sound) {t : KqState} (hdb : t.db = s.db) (hgone : t.gone = s.gone) :
    Leaves s t.loopHead.2 :=
  .inl (h.moves_self (congrArg Evdb.evset (t.loopHead_db.trans hdb)) (.of_eq (t.loopHead_gone.trans hgone)))

theorem Sound.step_leaves (h : s.Sound) (hst : Step s l r) (hl : ∀ ev ok, l ≠ .add ev ok) :
    Leaves s r.2 := by
  cases hst with
  | add => exact absurd rfl (hl _ _)
  | @del arg =>
    rcases (h.del_dels arg false).moves h with hm | ⟨ev, -, hm⟩
    · exact .inl hm
    · exact .inr ⟨ev, hm⟩
  | loopexit => exact .inl (h.moves_self rfl (.refl _))
  | loop tval => exact h.loopHead_leaves rfl rfl
  | resumed _ hdels =>
    rcases h.delResume_moves hdels with hm | ⟨ev, -, -, hm⟩
    · exact .inl hm
    · exact .inr ⟨ev, hm⟩
  | @called rest ev => exact (handleCalled_handles rest ev s).leaves h
  | failed => exact .inl (h.moves_self rfl (.refl _))
  | polled => exact .inl (h.moves_self rfl (.refl _))
  | @handle rest v hplace hdels =>
    cases rest with
    | nil => exact h.loopHead_leaves rfl rfl
    | cons k rest =>
      cases hudata : k.udata with
      | none =>
        rcases handleOne_noEvent hudata v s with heq | ⟨ev, -, hh⟩
        · rw [heq]
          exact .inl (h.moves_self rfl (.refl _))
        · exact hh.leaves h
      | some ev =>
        cases hread : k.isRead with
        | true => exact (handleOne_handles hudata hread v s).leaves h
        | false =>
          rw [handleOne_skips hudata hread]
          exact .inl (h.moves_self rfl (.refl _))

theorem Adds.moves {ok : Bool} (h : s.Sound) (ha : Adds s ev ok r) :
    Moves s r.2 .keeps ∨ Moves s r.2 (.adds ev) := by
  cases ha with
  | refused => exact .inl (h.moves_self rfl (.refl _))
  | unstored _ hmoves _ => exact .inl hmoves
  | stored _ hmoves _ => exact .inr hmoves

theorem Sound.exec_sound (h : s.Sound) (he : s.exec l = some r) : r.2.Sound := by
  have hst := exec_inv he
  by_cases hl : ∃ ev ok, l = .add ev ok
  · obtain ⟨ev, ok, rfl⟩ := hl
    cases hst with
    | add huser hpass hrel =>
      rcases (h.add_adds hpass hrel ok).moves h with hm | hm
      · exact hm.sound h
      · exact hm.sound h
  · rcases h.step_leaves hst fun ev ok hc => hl ⟨ev, ok, hc⟩ with hm | ⟨ev, hm⟩
    · exact hm.sound h
    · exact hm.sound h

theorem storedEvents_init : init.db.storedEvents = [] := by
  have hevents : ∀ x, init.db.events x = [] := fun x => by
    have hpairs : (init.db.evset x).pairs = [] := Hash.pairs_clear rfl
    rw [Evdb.events, hpairs]
    rfl
  simp only [Evdb.storedEvents, Evset.all, List.flatMap_cons, hevents]
  rfl

theorem sound_init : init.Sound := by
  apply Sound.mk Evdb.sound_kqInit
  rw [storedEvents_init]
  exact List.nodup_nil

end KqState

theorem Reach.sound {ok : KqState → KqStep → Prop} {h : List (KqStep × Shown)} {s : KqState}
    (hr : kqMachine.Reach ok h s) : s.Sound :=
  hr.invariant KqState.sound_init fun _ _ _ _ hs _ he => hs.exec_sound he

/-- An event without callbacks but the one that is called when it fires. -/
def plainEvent (addr : Addr) (sockfd evType : BitVec 32) : MclEvent :=
  ⟨addr, sockfd, evType, some 0, none, none, none⟩

end Mcl.Kqueue
