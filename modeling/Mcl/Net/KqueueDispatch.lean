import Mcl.Net.KqueueCalls

/-! `handle_events` keeps the pointers of a batch while callbacks delete events. -/
namespace Mcl.Kqueue
open Mcl.Library

/-- A `kq_del` of the loop reads its argument when the cleanup callback returns. -/
def DelFrame.awaits (frame : DelFrame) : Option MclEvent :=
  if frame.byLoop ∧ frame.inside = none then some frame.arg else none

def readEvents (batch : List Kevent) : List MclEvent := (batch.filter (·.isRead)).filterMap (·.udata)

namespace KqState

/-- The events that `handle_events` has still to read. -/
def pending (s : KqState) : List MclEvent :=
  s.place.called ++ readEvents s.place.rest ++ s.dels.filterMap DelFrame.awaits

/-- The events that a delete of the user has freed or is about to free. -/
def userGone (s : KqState) : List MclEvent :=
  (s.dels.filter fun frame => !frame.byLoop).filterMap (·.inside) ++ s.userFreed

/-- The event that a delete of the user takes out of its table. -/
def takes (s : KqState) : KqStep → Option MclEvent
  | .del arg => if arg.cleanupCb = none then s.db.entry (evsetOf arg) arg.sockfd else none
  | .ret =>
    match s.dels with
    | ⟨arg, none, false⟩ :: _ => s.db.entry (evsetOf arg) arg.sockfd
    | _ => none
  | _ => none

/-- No delete of the user takes out an event that `handle_events` has still to read. -/
def spares (s : KqState) (l : KqStep) : Bool :=
  (s.takes l).all fun e => s.pending.all fun p => p.addr != e.addr

/-- Every event of a batch is live when `kevent` returns. -/
def reportsLive (s : KqState) : KqStep → Bool
  | .polled (some batch) => batch.all fun k => k.udata.all fun ev => !s.isFreed ev
  | _ => true

/-- `handle_events` has not read an event that a callback has had freed. -/
def ReadsSafely (s : KqState) : Prop :=
  ∀ ev, s.place = .fault (.reads ev true) → ∀ e ∈ s.userFreed, e.addr ≠ ev.addr

structure Safe (s : KqState) : Prop where
  spared : ∀ p ∈ s.pending, ∀ e ∈ s.userGone, e.addr ≠ p.addr
  freed : ∀ e ∈ s.userFreed, e ∈ s.freed
  waits : s.place = .wait → s.dels = []
  udata : ∀ k ∈ s.place.rest, k.udata ≠ none
  fault : ∀ ev, s.place = .fault (.reads ev true) → ∀ e ∈ s.userGone, e.addr ≠ ev.addr

variable {s s' : KqState} {ev arg p e : MclEvent} {byLoop : Bool} {frame : DelFrame}
  {dels : List DelFrame} {batch : List Kevent} {k : Kevent} {cb : Option EventCb} {l : KqStep} {r : Shown × KqState}

theorem Safe.readsSafely (h : s.Safe) : s.ReadsSafely := fun ev hplace e he =>
  h.fault ev hplace e (List.mem_append_right _ he)

/-! What `handle_events` has still to read only gets less. -/

theorem mem_pending : p ∈ s.pending ↔
    (p ∈ s.place.called ∨ p ∈ readEvents s.place.rest) ∨ ∃ frame ∈ s.dels, frame.awaits = some p := by
  rw [pending, List.mem_append, List.mem_append, List.mem_filterMap]

theorem Removal.pending (hr : Removal s arg byLoop r) (hp : p ∈ r.2.pending) : p ∈ s.pending := by
  cases hr with
  | reads => exact List.mem_append_right _ hp
  | absent => rwa [delReturn_snd] at hp
  | waits =>
    rw [mem_pending] at hp ⊢
    refine hp.imp_right ?_
    rintro ⟨frame, hframe, hawaits⟩
    rcases List.mem_cons.mp hframe with rfl | hframe
    · exact absurd hawaits (by simp [DelFrame.awaits])
    · exact ⟨frame, hframe, hawaits⟩
  | frees =>
    rw [delReturn_snd] at hp
    exact hp

theorem Dels.pending (hd : Dels s arg byLoop r) (hp : p ∈ r.2.pending) :
    p ∈ s.pending ∨ byLoop = true ∧ p = arg := by
  cases hd with
  | goesOn hcall hr => exact .inl (hr.pending hp)
  | waits hcall =>
    rw [mem_pending] at hp ⊢
    rcases hp with hp | ⟨frame, hframe, hawaits⟩
    · exact .inl (.inl hp)
    · rcases List.mem_cons.mp hframe with rfl | hframe
      · cases byLoop with
        | true => exact .inr ⟨rfl, (Option.some.inj hawaits).symm⟩
        | false => exact absurd hawaits (by simp [DelFrame.awaits])
      · exact .inl (.inr ⟨frame, hframe, hawaits⟩)

/-- Behind the entry of `ev` there is nothing but `ev` and `rest` to read. -/
theorem Handles.pending {rest : List Kevent} (h : s.Sound) (hdels : s.dels = []) (hh : Handles s rest ev cb r)
    (hp : p ∈ r.2.pending) : p = ev ∨ p ∈ readEvents rest := by
  have hnone : ∀ t : KqState, p ∈ t.pending → t.dels = [] →
      p ∈ t.place.called ∨ p ∈ readEvents t.place.rest := by
    intro t hp ht
    refine (mem_pending.mp hp).resolve_right ?_
    rintro ⟨frame, hframe, -⟩
    rw [ht] at hframe
    exact absurd hframe List.not_mem_nil
  cases hh with
  | reads => exact absurd ((hnone _ hp hdels).elim id id) List.not_mem_nil
  | calls => exact (hnone _ hp hdels).imp_left List.mem_singleton.mp
  | stays => exact .inr ((hnone _ hp hdels).resolve_left List.not_mem_nil)
  | dels hlive hfires =>
    have hsound : Sound { s with place := .scan rest (some ev) } := ⟨h.tables, h.owned⟩
    rcases (hsound.del_dels ev true).pending hp with hp | ⟨-, hp⟩
    · exact .inr ((hnone _ hp hdels).resolve_left List.not_mem_nil)
    · exact .inl hp

/-! A delete of the user adds what it takes out to what the user has had freed. -/

theorem mem_userGone : e ∈ s.userGone ↔
    (∃ frame ∈ s.dels, frame.byLoop = false ∧ frame.inside = some e) ∨ e ∈ s.userFreed := by
  simp only [userGone, List.mem_append, List.mem_filterMap, List.mem_filter, Bool.not_eq_true', and_assoc]

theorem mem_userGone_free (he : e ∈ (s.free ev byLoop).userGone) :
    e ∈ s.userGone ∨ byLoop = false ∧ e = ev := by
  rw [mem_userGone] at he ⊢
  rcases he with he | he
  · exact .inl (.inl he)
  · cases byLoop with
    | true => exact .inl (.inr he)
    | false => exact (List.mem_cons.mp he).symm.imp .inr fun heq => ⟨rfl, heq⟩

theorem Removal.userGone (hr : Removal s arg byLoop r) (he : e ∈ r.2.userGone) :
    e ∈ s.userGone ∨ byLoop = false ∧ s.db.entry (evsetOf arg) arg.sockfd = some e := by
  cases hr with
  | reads => exact .inl he
  | absent =>
    rw [delReturn_snd] at he
    exact .inl he
  | waits hlive hentry =>
    rw [mem_userGone] at he ⊢
    rcases he with ⟨frame, hframe, hbyLoop, hinside⟩ | he
    · rcases List.mem_cons.mp hframe with rfl | hframe
      · obtain rfl := Option.some.inj hinside
        exact .inr ⟨hbyLoop, hentry⟩
      · exact .inl (.inl ⟨frame, hframe, hbyLoop, hinside⟩)
    · exact .inl (.inr he)
  | frees hlive hentry =>
    rw [delReturn_snd] at he
    refine (mem_userGone_free he).imp_right ?_
    rintro ⟨hbyLoop, rfl⟩
    exact ⟨hbyLoop, hentry⟩

theorem Dels.userGone (hd : Dels s arg byLoop r) (he : e ∈ r.2.userGone) :
    e ∈ s.userGone ∨
      byLoop = false ∧ arg.cleanupCb = none ∧ s.db.entry (evsetOf arg) arg.sockfd = some e := by
  cases hd with
  | waits hcall =>
    rw [mem_userGone] at he ⊢
    rcases he with ⟨frame, hframe, hbyLoop, hinside⟩ | he
    · rcases List.mem_cons.mp hframe with rfl | hframe
      · exact absurd hinside (by simp)
      · exact .inl (.inl ⟨frame, hframe, hbyLoop, hinside⟩)
    · exact .inl (.inr he)
  | goesOn hcall hr =>
    have hentry : (s.unregistered arg).db.entry = s.db.entry := Evdb.entry_of_evset rfl
    have hcases := hr.userGone he
    rw [hentry] at hcases
    exact hcases.imp_right fun hc => ⟨hc.1, Option.map_eq_none_iff.mp hcall, hc.2⟩

theorem Handles.userGone {rest : List Kevent} (h : s.Sound) (hh : Handles s rest ev cb r)
    (he : e ∈ r.2.userGone) : e ∈ s.userGone := by
  cases hh with
  | reads => exact he
  | calls => exact he
  | stays => exact he
  | dels hlive hfires =>
    have hsound : Sound { s with place := .scan rest (some ev) } := ⟨h.tables, h.owned⟩
    exact ((hsound.del_dels ev true).userGone he).resolve_right (by simp)

/-! Where a step leaves the loop. -/

theorem Removal.place (hr : Removal s arg byLoop r) :
    r.2.place = s.place ∨ s.isFreed arg = true ∧ r.2.place = .fault (.reads arg byLoop) := by
  cases hr with
  | reads hfreed => exact .inr ⟨hfreed, rfl⟩
  | absent =>
    rw [delReturn_snd]
    exact .inl rfl
  | waits => exact .inl rfl
  | frees =>
    rw [delReturn_snd]
    exact .inl rfl

theorem Dels.place (hd : Dels s arg byLoop r) :
    r.2.place = s.place ∨ s.isFreed arg = true ∧ r.2.place = .fault (.reads arg byLoop) := by
  cases hd with
  | waits hcall => exact .inl rfl
  | goesOn hcall hr => exact hr.place

theorem Handles.place {rest : List Kevent} (h : s.Sound) (hh : Handles s rest ev cb r) :
    r.2.place = .fault (.reads ev true) ∨ r.2.place = .callback rest ev ∨
      r.2.place = .scan rest (some ev) := by
  cases hh with
  | reads => exact .inl rfl
  | calls => exact .inr (.inl rfl)
  | stays => exact .inr (.inr rfl)
  | dels hlive hfires =>
    have hsound : Sound { s with place := .scan rest (some ev) } := ⟨h.tables, h.owned⟩
    rcases (hsound.del_dels ev true).place with hplace | ⟨hfreed, -⟩
    · exact .inr (.inr hplace)
    · exact absurd (hlive.symm.trans hfreed) (by simp)

/-! What the user has had freed is freed. -/

def UserFrees (s : KqState) : Prop := ∀ e ∈ s.userFreed, e ∈ s.freed

theorem UserFrees.free (h : s.UserFrees) (ev : MclEvent) (byLoop : Bool) : (s.free ev byLoop).UserFrees := by
  intro e he
  cases byLoop with
  | true => exact List.mem_cons_of_mem _ (h e he)
  | false =>
    rcases List.mem_cons.mp he with rfl | he
    · exact List.mem_cons_self
    · exact List.mem_cons_of_mem _ (h e he)

theorem Removal.userFrees (hr : Removal s arg byLoop r) (h : s.UserFrees) : r.2.UserFrees := by
  cases hr with
  | reads => exact h
  | absent =>
    rw [delReturn_snd]
    exact h
  | waits => exact h
  | frees =>
    rw [delReturn_snd]
    exact UserFrees.free (s := { s with db := _ }) h _ _

theorem Dels.userFrees (hd : Dels s arg byLoop r) (h : s.UserFrees) : r.2.UserFrees := by
  cases hd with
  | waits => exact h
  | goesOn hcall hr => exact hr.userFrees h

theorem Handles.userFrees {rest : List Kevent} (hsound : s.Sound) (h : s.UserFrees)
    (hh : Handles s rest ev cb r) : r.2.UserFrees := by
  cases hh with
  | reads => exact h
  | calls => exact h
  | stays => exact h
  | dels hlive hfires =>
    have hsound : Sound { s with place := .scan rest (some ev) } := ⟨hsound.tables, hsound.owned⟩
    exact (hsound.del_dels ev true).userFrees h

/-! The steps. -/

/-- The events of the batch that a step brings. -/
def reported : KqStep → List MclEvent
  | .polled (some batch) => readEvents batch
  | _ => []

/-- What a step makes of the events that are still to be read, and of those that the user has had
freed. -/
structure Spends (s s' : KqState) (l : KqStep) : Prop where
  pending : ∀ p ∈ s'.pending, p ∈ s.pending ∨ p ∈ reported l
  userGone : ∀ e ∈ s'.userGone, e ∈ s.userGone ∨ s.takes l = some e
  fault : ∀ ev, s'.place = .fault (.reads ev true) → ev ∈ s.pending
  waits : s'.place = .wait → s'.dels = []
  udata : ∀ k ∈ s'.place.rest, k.udata ≠ none
  freed : s'.UserFrees

/-- The user neither waits nor is it anywhere after a fault. -/
theorem inUser_place (huser : s.inUser = true) : s.place ≠ .wait ∧ ∀ f, s.place ≠ .fault f := by
  unfold inUser at huser
  constructor
  · intro hplace
    rw [hplace] at huser
    exact absurd huser (by simp)
  · intro f hplace
    rw [hplace] at huser
    exact absurd huser (by simp)

/-- A call of the user that stays where it is, or reads its own argument. -/
theorem Safe.spends_call (h : s.Safe) (huser : s.inUser = true)
    (hplace : s'.place = s.place ∨ ∃ f, s'.place = .fault f ∧ ∀ ev, f = .reads ev true → ev ∈ s.pending)
    (hpending : ∀ p ∈ s'.pending, p ∈ s.pending)
    (huserGone : ∀ e ∈ s'.userGone, e ∈ s.userGone ∨ s.takes l = some e) (hfreed : s'.UserFrees) :
    Spends s s' l := by
  obtain ⟨hwait, hfault⟩ := inUser_place huser
  apply Spends.mk (fun p hp => .inl (hpending p hp)) huserGone _ _ _ hfreed
  · intro ev hev
    rcases hplace with hplace | ⟨f, hplace, hf⟩
    · exact absurd (hplace.symm.trans hev) (hfault _)
    · exact hf ev (Place.fault.inj (hplace.symm.trans hev))
  · intro hs'
    rcases hplace with hplace | ⟨f, hplace, -⟩
    · exact absurd (hplace.symm.trans hs') hwait
    · exact absurd (hplace.symm.trans hs') (by simp)
  · intro k hk
    rcases hplace with hplace | ⟨f, hplace, -⟩
    · rw [hplace] at hk
      exact h.udata k hk
    · rw [hplace] at hk
      exact absurd hk List.not_mem_nil

theorem Safe.spends_handles {rest : List Kevent} (h : s.Sound) (hsafe : s.Safe) (hdels : s.dels = [])
    (hh : Handles s rest ev cb r) (hev : ev ∈ s.pending) (hrest : ∀ p ∈ readEvents rest, p ∈ s.pending)
    (hsub : ∀ k ∈ rest, k ∈ s.place.rest) : Spends s r.2 l := by
  have hplace := hh.place h
  apply Spends.mk _ (fun e he => .inl (hh.userGone h he)) _ _ _ (hh.userFrees h hsafe.freed)
  · intro p hp
    left
    rcases hh.pending h hdels hp with rfl | hp
    · exact hev
    · exact hrest p hp
  · intro e he
    rcases hplace with hplace | hplace | hplace
    · rw [hplace] at he
      obtain rfl := (Fault.reads.inj (Place.fault.inj he)).1
      exact hev
    · exact absurd (hplace.symm.trans he) (by simp)
    · exact absurd (hplace.symm.trans he) (by simp)
  · intro hwait
    rcases hplace with hplace | hplace | hplace <;> exact absurd (hplace.symm.trans hwait) (by simp)
  · intro k hk
    rcases hplace with hplace | hplace | hplace
    · rw [hplace] at hk
      exact absurd hk List.not_mem_nil
    · rw [hplace] at hk
      exact hsafe.udata k (hsub k hk)
    · rw [hplace] at hk
      exact hsafe.udata k (hsub k hk)

/-- A step of the loop to a place with nothing but a new batch to read. -/
theorem Safe.spends_goto (hsafe : s.Safe) (hdels : s'.dels = []) (huserFreed : s'.userFreed = s.userFreed)
    (hfreed : s'.freed = s.freed) (hcalled : s'.place.called = [])
    (hread : ∀ p ∈ readEvents s'.place.rest, p ∈ s.pending ∨ p ∈ reported l)
    (hudata : ∀ k ∈ s'.place.rest, k.udata ≠ none) (hfault : ∀ f, s'.place ≠ .fault f) : Spends s s' l := by
  apply Spends.mk _ _ (fun ev he => absurd he (hfault _)) (fun _ => hdels) hudata
  · intro e he
    rw [huserFreed] at he
    rw [hfreed]
    exact hsafe.freed e he
  · intro p hp
    rcases mem_pending.mp hp with (hp | hp) | ⟨frame, hframe, -⟩
    · rw [hcalled] at hp
      exact absurd hp List.not_mem_nil
    · exact hread p hp
    · rw [hdels] at hframe
      exact absurd hframe List.not_mem_nil
  · intro e he
    left
    rcases mem_userGone.mp he with ⟨frame, hframe, -⟩ | he
    · rw [hdels] at hframe
      exact absurd hframe List.not_mem_nil
    · exact mem_userGone.mpr (.inr (huserFreed ▸ he))

theorem Safe.spends_loopHead (hsafe : s.Safe) {t : KqState} (hdels : t.dels = [])
    (huserFreed : t.userFreed = s.userFreed) (hfreed : t.freed = s.freed) : Spends s t.loopHead.2 l := by
  rcases t.loopHead_cases with heq | heq
  · rw [heq]
    exact hsafe.spends_goto hdels huserFreed hfreed rfl (fun p hp => absurd hp List.not_mem_nil)
      (fun k hk => absurd hk List.not_mem_nil) (fun f hf => absurd hf (by simp))
  · rw [heq]
    exact hsafe.spends_goto hdels huserFreed hfreed rfl (fun p hp => absurd hp List.not_mem_nil)
      (fun k hk => absurd hk List.not_mem_nil) (fun f hf => absurd hf (by simp))

/-- A cleanup callback returns to a delete. -/
theorem Safe.spends_resumed (h : s.Sound) (hsafe : s.Safe) (huser : s.inUser = true)
    (hdels : s.dels = frame :: dels) : Spends s ((s.popped dels).delResume frame).2 .ret := by
  have hpop : ∀ p ∈ (s.popped dels).pending, p ∈ s.pending := by
    intro p hp
    rw [mem_pending] at hp ⊢
    refine hp.imp_right ?_
    rintro ⟨f, hf, hawaits⟩
    exact ⟨f, by rw [hdels]; exact List.mem_cons_of_mem _ hf, hawaits⟩
  have hgone : ∀ e ∈ (s.popped dels).userGone, e ∈ s.userGone := by
    intro e he
    rw [mem_userGone] at he ⊢
    refine he.imp_left ?_
    rintro ⟨f, hf, hbyLoop, hinside⟩
    exact ⟨f, by rw [hdels]; exact List.mem_cons_of_mem _ hf, hbyLoop, hinside⟩
  have hfreed : (s.popped dels).UserFrees := hsafe.freed
  obtain ⟨arg, inside, byLoop⟩ := frame
  unfold delResume
  cases inside with
  | some ev =>
    dsimp only
    rw [delReturn_snd]
    refine hsafe.spends_call huser (.inl rfl) hpop ?_ (hfreed.free ev byLoop)
    intro e he
    left
    rcases mem_userGone_free he with he | ⟨hbyLoop, rfl⟩
    · exact hgone e he
    · exact mem_userGone.mpr (.inl ⟨_, by rw [hdels]; exact List.mem_cons_self, hbyLoop, rfl⟩)
  | none =>
    have hr := (h.popped_none hdels rfl).delRest_removal arg byLoop
    apply hsafe.spends_call huser _ (fun p hp => hpop p (hr.pending hp)) _ (hr.userFrees hfreed)
    · rcases hr.place with hplace | ⟨-, hplace⟩
      · exact .inl hplace
      · refine .inr ⟨_, hplace, fun ev hev => ?_⟩
        obtain ⟨rfl, rfl⟩ := Fault.reads.inj hev
        exact mem_pending.mpr (.inr ⟨_, by rw [hdels]; exact List.mem_cons_self, rfl⟩)
    · intro e he
      refine (hr.userGone he).imp (hgone e) ?_
      rintro ⟨rfl, hentry⟩
      rw [takes, hdels]
      exact hentry

/-- `handle_events` comes to an entry, or to the end of the batch. -/
theorem Safe.spends_handle (h : s.Sound) (hsafe : s.Safe) {rest : List Kevent} {v : Option MclEvent}
    (hplace : s.place = .scan rest v) (hdels : s.dels = []) : Spends s (s.handleOne rest v).2 .handle := by
  have hudata : ∀ k ∈ rest, k.udata ≠ none := fun k hk => hsafe.udata k (by rw [hplace]; exact hk)
  have hrest : ∀ p ∈ readEvents rest, p ∈ s.pending := by
    intro p hp
    rw [mem_pending, hplace]
    exact .inl (.inr hp)
  rcases handleOne_cases hudata v s with ⟨rfl, heq⟩ | ⟨k, rest, ev, rfl, hev, ⟨hread, hh⟩ | ⟨hread, heq⟩⟩
  · rw [heq]
    exact hsafe.spends_loopHead hdels rfl rfl
  · have hsplit : readEvents (k :: rest) = ev :: readEvents rest := by
      rw [readEvents, List.filter_cons_of_pos hread, List.filterMap_cons_some hev]
      rfl
    rw [hsplit] at hrest
    apply hsafe.spends_handles h hdels hh (hrest ev List.mem_cons_self)
      (fun p hp => hrest p (List.mem_cons_of_mem _ hp))
    intro k' hk'
    rw [hplace]
    exact List.mem_cons_of_mem _ hk'
  · have hsplit : readEvents (k :: rest) = readEvents rest := by
      rw [readEvents, List.filter_cons_of_neg (by simp [hread])]
      rfl
    rw [hsplit] at hrest
    rw [heq]
    exact hsafe.spends_goto hdels rfl rfl rfl (fun p hp => .inl (hrest p hp))
      (fun k' hk' => hudata k' (List.mem_cons_of_mem _ hk')) (by simp)

theorem Safe.spends (h : s.Sound) (hsafe : s.Safe) (hst : Step s l r) : Spends s r.2 l := by
  cases hst with
  | @add ev ok huser hpass hrel =>
    have hsame : ∀ db : Evdb, Spends s { s with db := db } (.add ev ok) := fun db =>
      hsafe.spends_call huser (.inl rfl) (fun _ hp => hp) (fun _ he => .inl he) hsafe.freed
    obtain ⟨n, db, heq⟩ := (h.add_adds hpass hrel ok).outcome
    rw [heq]
    exact hsame db
  | @del arg huser hpass =>
    have hd := h.del_dels arg false
    apply hsafe.spends_call huser _ (fun p hp => (hd.pending hp).resolve_right (by simp)) _
      (hd.userFrees hsafe.freed)
    · refine hd.place.imp_right ?_
      rintro ⟨-, hplace⟩
      exact ⟨_, hplace, fun ev hev => absurd hev (by simp)⟩
    · intro e he
      refine (hd.userGone he).imp_right ?_
      rintro ⟨-, hcb, hentry⟩
      rw [takes, if_pos hcb]
      exact hentry
  | loopexit huser =>
    exact hsafe.spends_call huser (.inl rfl) (fun _ hp => hp) (fun _ he => .inl he) hsafe.freed
  | loop tval hplace hdels => exact hsafe.spends_loopHead hdels rfl rfl
  | resumed huser hdels => exact hsafe.spends_resumed h huser hdels
  | @called rest ev hplace hdels =>
    apply hsafe.spends_handles h hdels (handleCalled_handles rest ev s)
    · rw [mem_pending, hplace]
      exact .inl (.inl (List.mem_singleton_self ev))
    · intro p hp
      rw [mem_pending, hplace]
      exact .inl (.inr hp)
    · intro k hk
      rw [hplace]
      exact hk
  | failed hplace =>
    exact hsafe.spends_goto (hsafe.waits hplace) rfl rfl rfl (fun p hp => absurd hp List.not_mem_nil)
      (fun k hk => absurd hk List.not_mem_nil) (by simp)
  | @polled batch hplace hbatch =>
    refine hsafe.spends_goto (hsafe.waits hplace) rfl rfl rfl (fun p hp => .inr hp) ?_ (by simp)
    intro k hk hnone
    have hrep := hbatch k hk
    rw [reportable, hnone] at hrep
    exact absurd hrep (by simp)
  | handle hplace hdels => exact hsafe.spends_handle h hplace hdels

/-- One step, if no delete of the user takes out what `handle_events` has still to read. -/
theorem Safe.step (h : s.Sound) (hsafe : s.Safe) (hst : Step s l r) (hspares : s.spares l = true)
    (hlive : s.reportsLive l = true) : r.2.Safe := by
  have hsp := hsafe.spends h hst
  have htaken : ∀ p ∈ s.pending, ∀ e ∈ r.2.userGone, e.addr ≠ p.addr := by
    intro p hp e he
    rcases hsp.userGone e he with he | htakes
    · exact hsafe.spared p hp e he
    · rw [spares, htakes, Option.all_some, List.all_eq_true] at hspares
      have hne := hspares p hp
      rw [bne_iff_ne] at hne
      exact hne.symm
  refine ⟨?_, hsp.freed, hsp.waits, hsp.udata, fun ev hplace => htaken ev (hsp.fault ev hplace)⟩
  intro p hp e he
  rcases hsp.pending p hp with hold | hnew
  · exact htaken p hold e he
  · cases hst with
    | @polled batch hplace hbatch =>
      -- nothing runs while the loop waits, so what the user has had freed is freed
      have hdels := hsafe.waits hplace
      have hfreed : e ∈ s.freed := by
        rcases mem_userGone.mp he with ⟨frame, hframe, -⟩ | he
        · rw [show _ = s.dels from rfl, hdels] at hframe
          exact absurd hframe List.not_mem_nil
        · exact hsafe.freed e he
      obtain ⟨k, hk, hudata⟩ := List.mem_filterMap.mp hnew
      have hk := List.all_eq_true.mp hlive k (List.mem_filter.mp hk).1
      rw [hudata, Option.all_some, Bool.not_eq_true', isFreed, List.any_eq_false] at hk
      exact fun haddr => hk e hfreed (beq_iff_eq.mpr haddr)
    | _ => exact absurd hnew List.not_mem_nil

theorem safe_init : init.Safe := by
  have hnone : init.pending = [] := rfl
  constructor
  · intro p hp
    rw [hnone] at hp
    exact absurd hp List.not_mem_nil
  · exact fun e he => absurd he List.not_mem_nil
  · exact fun _ => rfl
  · exact fun k hk => absurd hk List.not_mem_nil
  · exact fun ev hplace => absurd hplace (by simp [init])

/-- In every run in which no delete of the user takes out what `handle_events` has still to read. -/
theorem kq_reads_safely {h : List (KqStep × Shown)} {s : KqState}
    (hr : kqMachine.Reach (fun s l => (s.reportsLive l && s.spares l) = true) h s) : s.ReadsSafely := by
  have hsafe : s.Sound ∧ s.Safe := by
    refine hr.invariant (P := fun s => s.Sound ∧ s.Safe) ⟨sound_init, safe_init⟩ ?_
    rintro s l shown s' ⟨h, hsafe⟩ hok he
    rw [Bool.and_eq_true] at hok
    exact ⟨h.exec_sound he, hsafe.step h (exec_inv he) hok.2 hok.1⟩
  exact hsafe.2.readsSafely

/-- Two events fire, and the callback of the first deletes a third. -/
theorem kq_reads_safely_third : ∃ s : KqState, s.place = .scan [] (some (plainEvent 2 4 mclEvWrite)) ∧
    s.userFreed = [plainEvent 3 5 mclEvRead] ∧ s.ReadsSafely := by
  obtain ⟨hist, s, hr, hplace, hfreed⟩ := kqMachine.exists_of_restrict
    (fun s l => s.reportsLive l && s.spares l)
    [.add (plainEvent 1 3 mclEvRead) true, .add (plainEvent 2 4 mclEvWrite) true,
      .add (plainEvent 3 5 mclEvRead) true, .loop none,
      .polled (some [⟨3, evfiltRead, false, some (plainEvent 1 3 mclEvRead)⟩,
        ⟨4, evfiltWrite, false, some (plainEvent 2 4 mclEvWrite)⟩]),
      .handle, .del (plainEvent 9 5 mclEvRead), .ret, .handle, .ret]
    (fun r => r.2.place = .scan [] (some (plainEvent 2 4 mclEvWrite)) ∧
      r.2.userFreed = [plainEvent 3 5 mclEvRead]) (by decide +kernel)
  exact ⟨s, hplace, hfreed, kq_reads_safely hr⟩

/-- A callback deletes its own event. -/
theorem kq_reads_unsafely : ¬ ∀ (h : List (KqStep × Shown)) (s : KqState),
    kqMachine.Reach (fun s l => s.reportsLive l = true) h s → s.ReadsSafely := by
  intro hall
  obtain ⟨hist, s, hr, hplace, hfreed⟩ := kqMachine.exists_of_restrict reportsLive
    [.add (plainEvent 1 3 mclEvRead) true, .loop none,
      .polled (some [⟨3, evfiltRead, false, some (plainEvent 1 3 mclEvRead)⟩]), .handle,
      .del (plainEvent 9 3 mclEvRead), .ret]
    (fun r => r.2.place = .fault (.reads (plainEvent 1 3 mclEvRead) true) ∧
      r.2.userFreed = [plainEvent 1 3 mclEvRead]) (by decide +kernel)
  have hsafe := hall hist s hr _ hplace
  rw [hfreed] at hsafe
  exact hsafe _ (List.mem_singleton_self _) rfl

end KqState
end Mcl.Kqueue
