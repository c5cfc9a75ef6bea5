import Mcl.Net.KqueueCoherence

/-! One batch of `handle_events`, with callbacks that do not call back into the library. -/
namespace Mcl.Kqueue
open Mcl.Library

/-- The type that `handle_events` calls back with for an entry of filter `EVFILT_READ` or `EVFILT_WRITE`. -/
def Kevent.evType (k : Kevent) : BitVec 32 :=
  if k.error then mclEvExp else if k.filter &&& evfiltRead ≠ 0 then mclEvRead else mclEvWrite

/-- The type of what has happened. -/
def Kevent.kind (k : Kevent) : BitVec 32 :=
  if k.error then mclEvExp else if k.filter = evfiltRead then mclEvRead else mclEvWrite

/-- The call for an entry, if its callback is set. -/
def Kevent.callAs (evType : Kevent → BitVec 32) (k : Kevent) : Option EventCall :=
  k.udata.bind fun ev => (k.handler ev).map fun cb => ⟨cb, k.ident, evType k, ev.uargs⟩

/-- The events of a batch that do not persist. -/
def firedOnce (batch : List Kevent) : List MclEvent :=
  (batch.filterMap (·.udata)).filter fun ev => ev.evType &&& mclEvPersist = 0

/-- A writable descriptor whose callback is called. -/
def Kevent.Writes (k : Kevent) : Prop :=
  k.filter = evfiltWrite ∧ k.error = false ∧ ∃ ev, k.udata = some ev ∧ ev.callback ≠ none

/-- The call for an entry, and those when its event goes: `kq_del` calls the cleanup callback, and then `event_ht_free`
does. -/
def Kevent.turn (k : Kevent) : List EventCall :=
  (k.callAs Kevent.evType).toList ++
    (firedOnce [k]).flatMap fun ev => ev.cleanupCall.toList ++ ev.cleanupCall.toList

/-- The calls but for those of cleanup callbacks. -/
def heard (shows : List Shown) : List EventCall :=
  (shows.flatMap Shown.calls).filter fun c => c.evType ≠ mclEvDel

namespace KqState

/-- The step of the loop of `handle_events`, or of a callback that only returns. -/
def goOn (s : KqState) : Option KqStep :=
  match s.dels, s.place with
  | [], .scan [] _ => none
  | [], .scan _ _ => some .handle
  | [], .callback .. => some .ret
  | [], _ => none
  | _ :: _, _ => some .ret

/-- `handle_events` is called with a batch. -/
def enters (batch : List Kevent) (s : KqState) : KqState := { s with place := .scan batch none, dels := [] }

/-- One call for each entry, of its own kind, and only the events that do not persist are removed. -/
def Delivers (s : KqState) (batch : List Kevent) : Prop :=
  ∃ shows t v,
    (∃ n, ∀ fuel, n ≤ fuel → kqMachine.drive goOn fuel (s.enters batch) = some (shows, t)) ∧
      t.place = .scan [] v ∧ heard shows = batch.filterMap (·.callAs Kevent.kind) ∧
      ∀ ev, ev ∈ t.db.storedEvents ↔ ev ∈ s.db.storedEvents ∧ ev ∉ firedOnce batch

/-- `handle_events` has come to `rest`. -/
structure Midway (rest : List Kevent) (t : KqState) : Prop where
  sound : t.Sound
  dels : t.dels = []
  place : ∃ v, t.place = .scan rest v

variable {s t u : KqState} {rest batch : List Kevent} {ev e : MclEvent} {v : Option MclEvent} {k : Kevent}
  {r : Shown × KqState} {gone : List MclEvent}

/-- `handle_events` has come from `t` to `rest`, and has taken `gone` out of the tables. -/
structure Comes (t : KqState) (rest : List Kevent) (gone : List MclEvent) (u : KqState) : Prop where
  midway : Midway rest u
  tspec : u.tspec = t.tspec
  stored : ∀ e, e ∈ u.db.storedEvents ↔ e ∈ t.db.storedEvents ∧ e ∉ gone

theorem Comes.stays (h : Midway rest u) (hevset : u.db.evset = t.db.evset) (htspec : u.tspec = t.tspec) :
    Comes t rest [] u := by
  refine ⟨h, htspec, fun e => ?_⟩
  rw [Evdb.storedEvents_of_evset hevset, and_iff_left List.not_mem_nil]

/-- Only the tables and the time to wait of the first state are looked at. -/
theorem Comes.same (h : Comes s rest gone u) (hevset : s.db.evset = t.db.evset) (htspec : s.tspec = t.tspec) :
    Comes t rest gone u := by
  refine ⟨h.midway, h.tspec.trans htspec, fun e => ?_⟩
  rw [h.stored, Evdb.storedEvents_of_evset hevset]

theorem exec_resumed {frame : DelFrame} (hdels : u.dels = [frame]) (hplace : u.place = .scan rest v) :
    u.exec .ret = some ((u.popped []).delResume frame) ∧ goOn u = some .ret := by
  constructor
  · simp only [exec, hdels]
    exact if_pos (by simp [inUser, hplace, hdels])
  · simp only [goOn, hdels]

/-- The event is freed. -/
theorem Midway.freed (h : Midway rest t) (hmoves : Moves t u (.removes ev)) (hdels : u.dels = [])
    (hplace : u.place = t.place) (htspec : u.tspec = t.tspec) : Comes t rest [ev] u := by
  obtain ⟨v, hv⟩ := h.place
  refine ⟨⟨hmoves.sound h.sound, hdels, v, hplace.trans hv⟩, htspec, fun e => ?_⟩
  rw [List.mem_singleton]
  exact hmoves.tables.mem_removes hmoves.shifts

theorem Removal.removed (hr : Removal t ev true r) (h : Midway rest t) (hev : ev ∈ t.db.storedEvents) :
    GoesOn kqMachine goOn (Comes t rest [ev]) ev.cleanupCall.toList r := by
  have hlive := h.sound.not_isFreed hev
  have hfound := h.sound.tables.mem_storedEvents.mp hev
  obtain ⟨v, hplace⟩ := h.place
  cases hr with
  | reads hfreed => exact absurd (hlive.symm.trans hfreed) (by simp)
  | absent _ hentry => exact absurd (hfound.symm.trans hentry) (by simp)
  | @waits db ev' call _ hentry _ hcall hmoves =>
    obtain rfl : ev = ev' := Option.some.inj (hfound.symm.trans hentry)
    obtain ⟨hret, hgo⟩ := exec_resumed
      (u := { t with db := db, dels := ⟨ev, some ev, true⟩ :: t.dels }) (by rw [h.dels]) hplace
    have hfreed : Moves t (({ t with db := db, dels := [] } : KqState).free ev true) (.removes ev) := by
      refine ⟨hmoves.tables, hmoves.shifts, ?_, hmoves.fresh⟩
      simp only [KqState.gone, releasing, h.dels]
      exact .refl _
    rw [hcall]
    exact .call hgo hret (.stays (h.freed hfreed rfl rfl rfl))
  | @frees db ev' _ hentry _ hcall hmoves =>
    obtain rfl : ev = ev' := Option.some.inj (hfound.symm.trans hentry)
    rw [hcall]
    exact .stays (h.freed hmoves h.dels rfl rfl)

/-- A stored event is deleted: its cleanup callback is called twice. -/
theorem Dels.removed (hd : Dels t ev true r) (h : Midway rest t) (hev : ev ∈ t.db.storedEvents) :
    GoesOn kqMachine goOn (Comes t rest [ev]) (ev.cleanupCall.toList ++ ev.cleanupCall.toList) r := by
  obtain ⟨v, hplace⟩ := h.place
  have hmid : Midway rest (t.unregistered ev) := ⟨h.sound.unregistered ev, h.dels, v, hplace⟩
  have hrest : ∀ r, Removal (t.unregistered ev) ev true r →
      GoesOn kqMachine goOn (Comes t rest [ev]) ev.cleanupCall.toList r :=
    fun r hr => (hr.removed hmid hev).mono fun u hu => hu.same rfl rfl
  cases hd with
  | goesOn hcall hr =>
    have hdone := hrest r hr
    rw [hcall] at hdone ⊢
    exact hdone
  | @waits call hcall =>
    obtain ⟨hret, hgo⟩ := exec_resumed
      (u := { t.unregistered ev with dels := ⟨ev, none, true⟩ :: t.dels }) (by rw [h.dels]) hplace
    have hpopped : popped [] { t.unregistered ev with dels := ⟨ev, none, true⟩ :: t.dels } = t.unregistered ev := by
      rw [popped, ← h.dels]
      rfl
    rw [hpopped] at hret
    have hdone := hrest _ (hmid.sound.delRest_removal ev true)
    rw [hcall] at hdone ⊢
    exact .call hgo hret hdone

theorem firedOnce_cons (k : Kevent) (rest : List Kevent) : firedOnce (k :: rest) = firedOnce [k] ++ firedOnce rest := by
  rw [firedOnce, firedOnce, firedOnce, ← List.filter_append, ← List.filterMap_append]
  rfl

theorem firedOnce_single (hudata : k.udata = some ev) :
    firedOnce [k] = if ev.evType &&& mclEvPersist = 0 then [ev] else [] := by
  rw [firedOnce, List.filterMap_cons_some hudata]
  simp [List.filter_cons]

theorem flatMap_firedOnce_single (hudata : k.udata = some ev) (f : MclEvent → List EventCall) :
    (firedOnce [k]).flatMap f = if ev.evType &&& mclEvPersist = 0 then f ev else [] := by
  rw [firedOnce_single hudata]
  split
  · exact List.flatMap_singleton f ev
  · rfl

/-- After the callback, if there was one. -/
theorem handleCalled_goesOn (hsound : t.Sound) (hdels : t.dels = []) (hev : ev ∈ t.db.storedEvents)
    (hudata : k.udata = some ev) : GoesOn kqMachine goOn (Comes t rest (firedOnce [k]))
      ((firedOnce [k]).flatMap fun ev => ev.cleanupCall.toList ++ ev.cleanupCall.toList) (t.handleCalled rest ev) := by
  have hmid : Midway rest { t with place := .scan rest (some ev) } :=
    ⟨⟨hsound.tables, hsound.owned⟩, hdels, some ev, rfl⟩
  unfold handleCalled
  rw [if_neg (by rw [hsound.not_isFreed hev]; exact Bool.false_ne_true), flatMap_firedOnce_single hudata,
    firedOnce_single hudata]
  dsimp only
  split
  · exact ((hmid.sound.del_dels ev true).removed hmid hev).mono fun u hu => hu.same rfl rfl
  · exact .stays (.stays hmid rfl rfl)

theorem handleOne_eq (hudata : k.udata = some ev) (hread : k.isRead = true) (v : Option MclEvent) (t : KqState) :
    t.handleOne (k :: rest) v = t.handleCall k rest ev (k.handler ev) k.evType := by
  unfold handleOne Kevent.handler Kevent.evType
  dsimp only
  rw [hudata]
  dsimp only
  split
  · rfl
  · next herror =>
    split
    · rfl
    · next hreadf =>
      split
      · rfl
      · next hwritef =>
        rw [not_not] at hreadf hwritef
        simp [Kevent.isRead, herror, hreadf, hwritef] at hread

theorem evType_ne (k : Kevent) : k.evType ≠ mclEvDel := by
  unfold Kevent.evType
  split_ifs <;> decide

/-- One entry. -/
theorem Midway.handle (h : Midway (k :: rest) t) (hread : k.isRead = true) (hudata : k.udata = some ev)
    (hev : ev ∈ t.db.storedEvents) :
    GoesOn kqMachine goOn (Comes t rest (firedOnce [k])) k.turn (t.handleOne (k :: rest) v) := by
  rw [handleOne_eq hudata hread]
  unfold handleCall Kevent.turn Kevent.callAs
  rw [if_neg (by rw [h.sound.not_isFreed hev]; exact Bool.false_ne_true), hudata, Option.bind_some]
  cases k.handler ev with
  | none => exact handleCalled_goesOn h.sound h.dels hev hudata
  | some cb =>
    have hret : exec { t with place := .callback rest ev } .ret =
        some ({ t with place := .callback rest ev }.handleCalled rest ev) := by
      simp only [exec, h.dels]
    have hgo : goOn { t with place := .callback rest ev } = some .ret := by simp only [goOn, h.dels]
    have hsound : Sound { t with place := .callback rest ev } := ⟨h.sound.tables, h.sound.owned⟩
    exact .call hgo hret ((handleCalled_goesOn hsound h.dels hev hudata).mono fun u hu => hu.same rfl rfl)

/-- The entries of a batch have distinct events, all of them stored. -/
structure Registered (t : KqState) (batch : List Kevent) : Prop where
  filters : ∀ k ∈ batch, k.filter = evfiltRead ∨ k.filter = evfiltWrite
  live : ∀ k ∈ batch, ∃ ev ∈ t.db.storedEvents, k.udata = some ev
  distinct : (batch.map (·.udata)).Nodup

instance (t : KqState) (batch : List Kevent) : Decidable (t.Registered batch) :=
  decidable_of_iff ((∀ k ∈ batch, k.filter = evfiltRead ∨ k.filter = evfiltWrite) ∧
      (∀ k ∈ batch, ∃ ev ∈ t.db.storedEvents, k.udata = some ev) ∧ (batch.map (·.udata)).Nodup)
    ⟨fun h => ⟨h.1, h.2.1, h.2.2⟩, fun h => ⟨h.filters, h.live, h.distinct⟩⟩

theorem isRead_of_filter (hfilter : k.filter = evfiltRead ∨ k.filter = evfiltWrite) : k.isRead = true := by
  rcases hfilter with hfilter | hfilter <;> simp [Kevent.isRead, hfilter, evfiltRead, evfiltWrite]

theorem Registered.tail (h : Registered t (k :: rest))
    (hstored : ∀ e, e ∈ u.db.storedEvents ↔ e ∈ t.db.storedEvents ∧ e ∉ firedOnce [k]) : Registered u rest := by
  refine ⟨fun k' hk' => h.filters k' (List.mem_cons_of_mem _ hk'), fun k' hk' => ?_,
    (List.nodup_cons.mp h.distinct).2⟩
  obtain ⟨ev, hev, hudata⟩ := h.live k' (List.mem_cons_of_mem _ hk')
  refine ⟨ev, (hstored ev).mpr ⟨hev, fun hmem => ?_⟩, hudata⟩
  obtain ⟨k₀, hk₀, hudata₀⟩ := List.mem_filterMap.mp (List.mem_filter.mp hmem).1
  obtain rfl := List.mem_singleton.mp hk₀
  exact (List.nodup_cons.mp h.distinct).1 (List.mem_map.mpr ⟨k', hk', hudata.trans hudata₀.symm⟩)

theorem Midway.run (h : Midway batch t) (hreg : Registered t batch) :
    ∃ shows u, kqMachine.Leads goOn t shows u ∧ shows.flatMap Shown.calls = batch.flatMap Kevent.turn ∧
      Comes t [] (firedOnce batch) u := by
  induction batch generalizing t with
  | nil => exact ⟨[], t, .refl t, rfl, .stays h rfl rfl⟩
  | cons k rest ih =>
    obtain ⟨v, hplace⟩ := h.place
    obtain ⟨ev, hev, hudata⟩ := hreg.live k List.mem_cons_self
    have hread := isRead_of_filter (hreg.filters k List.mem_cons_self)
    have hgo : goOn t = some .handle := by simp only [goOn, h.dels, hplace]
    have hexec : kqMachine.step t .handle = some (t.handleOne (k :: rest) v) := by
      simp only [kqMachine, exec, h.dels, hplace]
    obtain ⟨shows, u, hleads, hcalls, hu⟩ := (h.handle hread hudata hev).leads hgo hexec
    obtain ⟨shows', w, hleads', hcalls', hw⟩ := ih hu.midway (hreg.tail hu.stored)
    refine ⟨_, w, hleads.trans hleads', ?_, hw.midway, hw.tspec.trans hu.tspec, fun e => ?_⟩
    · rw [List.flatMap_append, hcalls, hcalls', List.flatMap_cons]
    · rw [hw.stored, hu.stored, firedOnce_cons k rest, List.mem_append, not_or, and_assoc]

/-- The calls for an entry, but for those of cleanup callbacks. -/
theorem filter_turn (k : Kevent) :
    k.turn.filter (fun c => c.evType ≠ mclEvDel) = (k.callAs Kevent.evType).toList := by
  have hcall : ∀ c ∈ (k.callAs Kevent.evType).toList, c.evType ≠ mclEvDel := by
    intro c hc
    obtain ⟨ev, -, hcb⟩ := Option.bind_eq_some_iff.mp (Option.mem_toList.mp hc)
    obtain ⟨cb, -, rfl⟩ := Option.map_eq_some_iff.mp hcb
    exact evType_ne k
  have hclean : ∀ c ∈ (firedOnce [k]).flatMap fun ev => ev.cleanupCall.toList ++ ev.cleanupCall.toList,
      c.evType = mclEvDel := by
    intro c hc
    obtain ⟨ev, -, hev⟩ := List.mem_flatMap.mp hc
    rw [List.mem_append, or_self, Option.mem_toList] at hev
    obtain ⟨cb, -, rfl⟩ := Option.map_eq_some_iff.mp hev
    rfl
  rw [Kevent.turn, List.filter_append, List.filter_eq_self.mpr fun c hc => decide_eq_true (hcall c hc),
    List.filter_eq_nil_iff.mpr fun c hc => by simp [hclean c hc], List.append_nil]

theorem filter_turns (batch : List Kevent) :
    (batch.flatMap Kevent.turn).filter (fun c => c.evType ≠ mclEvDel) =
      batch.filterMap (·.callAs Kevent.evType) := by
  rw [List.filter_flatMap]
  simp only [filter_turn]
  exact (List.filterMap_eq_flatMap_toList ..).symm

/-- Two lists of calls for the same entries, told apart by the types. -/
theorem filterMap_callAs_inj {f g : Kevent → BitVec 32} :
    batch.filterMap (·.callAs f) = batch.filterMap (·.callAs g) ↔
      ∀ k ∈ batch, ∀ ev, k.udata = some ev → k.handler ev ≠ none → f k = g k := by
  induction batch with
  | nil => simp
  | cons k rest ih =>
    rw [List.forall_mem_cons, ← ih, List.filterMap_cons, List.filterMap_cons]
    cases hudata : k.udata with
    | none => simp [Kevent.callAs, hudata]
    | some ev =>
      cases hcb : k.handler ev with
      | none => simp [Kevent.callAs, hudata, hcb]
      | some cb => simp [Kevent.callAs, hudata, hcb]

/-- The filters are -1 and -2, and the first test is of the bits of -1. -/
theorem evType_eq_kind_iff (hfilter : k.filter = evfiltRead ∨ k.filter = evfiltWrite) :
    k.evType = k.kind ↔ ¬ (k.filter = evfiltWrite ∧ k.error = false) := by
  unfold Kevent.evType Kevent.kind
  cases k.error with
  | true => simp
  | false =>
    rcases hfilter with hfilter | hfilter
    · rw [hfilter]
      decide
    · rw [hfilter]
      decide

theorem Sound.delivers_iff (h : s.Sound) (hreg : s.Registered batch) :
    s.Delivers batch ↔ ∀ k ∈ batch, ¬ k.Writes := by
  have hmid : Midway batch (s.enters batch) := by
    refine ⟨⟨h.tables, ?_⟩, rfl, none, rfl⟩
    have hsub : (s.enters batch).gone.Sublist s.gone := List.sublist_append_right _ _
    exact h.owned.sublist ((List.Sublist.append_left hsub _).map _)
  obtain ⟨shows, t, hleads, hcalls, hdone⟩ := hmid.run ⟨hreg.filters, hreg.live, hreg.distinct⟩
  obtain ⟨v, hplace⟩ := hdone.midway.place
  obtain ⟨n, hdrive⟩ := hleads.ends (by simp only [goOn, hdone.midway.dels, hplace])
  have hkinds : heard shows = batch.filterMap (·.callAs Kevent.kind) ↔ ∀ k ∈ batch, ¬ k.Writes := by
    rw [heard, hcalls, filter_turns, filterMap_callAs_inj]
    refine forall₂_congr fun k hk => ?_
    constructor
    · rintro hsame ⟨hwrite, herror, ev, hudata, hcb⟩
      have hhandler : k.handler ev ≠ none := by rwa [Kevent.handler, if_neg (by simp [herror])]
      exact (evType_eq_kind_iff (hreg.filters k hk)).mp (hsame ev hudata hhandler) ⟨hwrite, herror⟩
    · intro hno ev hudata hhandler
      refine (evType_eq_kind_iff (hreg.filters k hk)).mpr ?_
      rintro ⟨hwrite, herror⟩
      rw [Kevent.handler, if_neg (by simp [herror])] at hhandler
      exact hno ⟨hwrite, herror, ev, hudata, hhandler⟩
  rw [← hkinds]
  constructor
  · rintro ⟨shows', t', v', ⟨n', hdrive'⟩, -, hheard, -⟩
    have hsame := (hdrive (max n n') (le_max_left n n')).symm.trans (hdrive' (max n n') (le_max_right n n'))
    obtain ⟨rfl, -⟩ := Prod.mk.inj (Option.some.inj hsame)
    exact hheard
  · exact fun hheard => ⟨shows, t, v, ⟨n, hdrive⟩, hplace, hheard, hdone.stored⟩

/-- In every state, with any batch of entries for registered events. -/
theorem kq_delivers_iff {ops : List KqStep} {hist : List (KqStep × Shown)}
    (hrun : kqMachine.run ops = some (hist, s)) (hreg : s.Registered batch) :
    s.Delivers batch ↔ ∀ k ∈ batch, ¬ k.Writes :=
  (Reach.sound (Machine.reach_of_run hrun)).delivers_iff hreg

/-- A descriptor that has become writable. -/
theorem kq_delivers_write : ¬ ∀ (ops : List KqStep) (hist : List (KqStep × Shown)) (s : KqState)
    (batch : List Kevent), kqMachine.run ops = some (hist, s) → s.Registered batch → s.Delivers batch := by
  intro hall
  obtain ⟨hist, s, hrun, hreg⟩ := kqMachine.exists_of_run [.add (plainEvent 1 3 mclEvWrite) true]
    (fun r => r.2.Registered [⟨3, evfiltWrite, false, some (plainEvent 1 3 mclEvWrite)⟩]) (by decide +kernel)
  have hdelivers := hall _ hist s _ hrun hreg
  rw [(Reach.sound (Machine.reach_of_run hrun)).delivers_iff hreg] at hdelivers
  exact hdelivers _ (List.mem_singleton_self _) ⟨rfl, rfl, _, rfl, by simp [plainEvent]⟩

/-- An event that persists, a descriptor that has become readable and one with an error. -/
def mixedBatch : List Kevent :=
  [⟨4, evfiltRead, false, some (plainEvent 2 4 (mclEvRead ||| mclEvPersist))⟩,
    ⟨3, evfiltRead, false, some (plainEvent 1 3 mclEvRead)⟩,
    ⟨5, evfiltWrite, true, some { plainEvent 3 5 mclEvWrite with errorCb := some 9 }⟩]

theorem kq_delivers_iff_mixed :
    (∃ ops hist s, kqMachine.run ops = some (hist, s) ∧ s.db.storedEvents.length = 3 ∧ s.Delivers mixedBatch) ∧
      mixedBatch.filterMap (·.callAs Kevent.kind) =
        [⟨0, 4, mclEvRead, none⟩, ⟨0, 3, mclEvRead, none⟩, ⟨9, 5, mclEvExp, none⟩] ∧
      (firedOnce mixedBatch).map (·.addr) = [1, 3] := by
  refine ⟨?_, by decide, by decide⟩
  obtain ⟨hist, s, hrun, hlen, hreg⟩ := kqMachine.exists_of_run
    (mixedBatch.filterMap fun k => k.udata.map fun ev => .add ev true)
    (fun r => r.2.db.storedEvents.length = 3 ∧ r.2.Registered mixedBatch) (by decide +kernel)
  refine ⟨_, hist, s, hrun, hlen, (kq_delivers_iff hrun hreg).mpr fun k hk hwrites => ?_⟩
  have hread : ∀ k ∈ mixedBatch, ¬ (k.filter = evfiltWrite ∧ k.error = false) := by decide
  exact hread k hk ⟨hwrites.1, hwrites.2.1⟩

end KqState
end Mcl.Kqueue
