import Mcl.Net.KqueueLoop
import Mcl.Util.HashCursor
import Mcl.Util.HashRuns

/-! What the tables and the events of the kqueue backend always are, whatever the callbacks do. -/
namespace Mcl.Kqueue
open Mcl.Library Mcl.Hash

/-- A pair maps a descriptor to an event for it, of the table's types. -/
def StoredIn (x : Evset) (p : HashPair MclEvent) : Prop :=
  ∃ ev, p.key = .int ev.sockfd ∧ p.val = some ev ∧ evsetOf ev = x

structure TableSound (x : Evset) (ht : Hash MclEvent FreeFn) : Prop where
  wf : ht.WF
  keyType : ht.keyType = .int
  stored : ∀ i, ∀ p ∈ ht.bucket i, StoredIn x p

variable {x : Evset} {ht ht' : Hash MclEvent FreeFn} {i : ℕ} {p : HashPair MclEvent}
  {row : List (HashPair MclEvent)} {fd : BitVec 32} {ev arg : MclEvent}

theorem tableSound_new (x : Evset) : TableSound x (.new .int) := by
  apply TableSound.mk (wf_new .int) rfl
  intro i p hp
  simp [Hash.bucket, Hash.new] at hp

/-- One bucket exchanged for another. -/
theorem TableSound.becomes (h : TableSound x ht) (hb : Becomes ht ht' (Function.update ht.bucket i row))
    (hrow : ∀ p ∈ row, StoredIn x p) : TableSound x ht' := by
  apply TableSound.mk hb.wf (hb.keyType.trans h.keyType)
  rw [hb.bucket]
  exact (Function.forall_update_iff _ (p := fun _ (ps : List (HashPair MclEvent)) =>
    ∀ p ∈ ps, StoredIn x p)).mpr ⟨hrow, fun j _ => h.stored j⟩

/-- The pair that a lookup by descriptor finds. -/
theorem TableSound.of_stored (h : TableSound x ht) (hs : ht.stored (.int fd) = some p) :
    ∃ i ev, bucketOf (.int fd) = some i ∧ pairUnder (.int fd) (ht.bucket i) = some p ∧
      p ∈ ht.bucket i ∧ p.key = .int fd ∧ p.val = some ev ∧ ev.sockfd = fd ∧ evsetOf ev = x := by
  obtain ⟨i, hi, hu⟩ := mem_stored hs
  obtain ⟨hp, hsame⟩ := KeySame.mem_of_lookup hu
  obtain ⟨ev, hkey, hval, hx⟩ := h.stored i p hp
  have hcmp : keyCmp (.int fd) p.key = true := hsame
  rw [hkey] at hcmp
  have hfd : fd = ev.sockfd := of_decide_eq_true hcmp
  exact ⟨i, ev, hi, hu, hp, hfd ▸ hkey, hval, hfd.symm, hx⟩

/-- What `mcl_int_hash_find` finds for a descriptor. -/
def Evdb.entry (db : Evdb) (x : Evset) (fd : BitVec 32) : Option MclEvent :=
  (mclIntHashFind fd (db.evset x)).join

/-- The list of the event's table that its descriptor belongs to is not full. -/
def Evdb.hasRoom (db : Evdb) (ev : MclEvent) : Bool :=
  (bucketOf (.int ev.sockfd)).any fun i => ((db.evset (evsetOf ev)).bucket i).length < mclListMaxSize

/-- The change of the tables by a call. -/
inductive Change where
  | keeps
  | adds (ev : MclEvent)
  | removes (ev : MclEvent)

namespace Evdb

variable {db db' : Evdb}

def Sound (db : Evdb) : Prop := ∀ x, TableSound x (db.evset x)

theorem sound_kqInit : kqInit.Sound := tableSound_new

namespace Sound

theorem entry_eq (h : db.Sound) (x : Evset) (fd : BitVec 32) :
    db.entry x fd = ((db.evset x).stored (.int fd)).bind (·.val) := by
  have hfind : mclIntHashFind fd (db.evset x) = some (((db.evset x).stored (.int fd)).bind (·.val)) := by
    unfold mclIntHashFind
    rw [(h x).keyType]
    exact congrArg some ((h x).wf.hashFind_eq (.int fd))
  rw [entry, hfind, Option.join_some]

theorem stored_of_entry (h : db.Sound) (he : db.entry x fd = some ev) :
    ∃ p, (db.evset x).stored (.int fd) = some p ∧ p.val = some ev := by
  rw [h.entry_eq, Option.bind_eq_some_iff] at he
  exact he

theorem stored_of_vacant (h : db.Sound) (he : db.entry x fd = none) :
    (db.evset x).stored (.int fd) = none := by
  rw [h.entry_eq] at he
  exact ((h x).wf.stored_val (.int fd)).mp he

theorem of_entry (h : db.Sound) (he : db.entry x fd = some ev) : ev.sockfd = fd ∧ evsetOf ev = x := by
  obtain ⟨p, hs, hval⟩ := h.stored_of_entry he
  obtain ⟨i, ev', -, -, -, -, hval', hfd, hx⟩ := (h x).of_stored hs
  rw [hval] at hval'
  obtain rfl := Option.some.inj hval'
  exact ⟨hfd, hx⟩

theorem mem_events (h : db.Sound) : ev ∈ db.events x ↔ db.entry x ev.sockfd = some ev := by
  constructor
  · intro hev
    obtain ⟨p, hp, hval⟩ := List.mem_filterMap.mp hev
    obtain ⟨i, hp⟩ := (h x).wf.mem_pairs.mp hp
    obtain ⟨ev', hkey, hval', -⟩ := (h x).stored i p hp
    rw [hval] at hval'
    obtain rfl := Option.some.inj hval'
    have hu : pairUnder p.key ((db.evset x).bucket i) = some p := ((h x).wf.distinct i).lookup_of_mem hp
    rw [h.entry_eq, ← hkey, stored_of_bucketOf ((h x).wf.placed i p hp).bucketOf, hu]
    exact hval
  · intro he
    obtain ⟨p, hs, hval⟩ := h.stored_of_entry he
    obtain ⟨i, -, hi, -, hp, -⟩ := (h x).of_stored hs
    exact List.mem_filterMap.mpr ⟨p, (h x).wf.mem_pairs.mpr ⟨i, hp⟩, hval⟩

theorem mem_storedEvents (h : db.Sound) :
    ev ∈ db.storedEvents ↔ db.entry (evsetOf ev) ev.sockfd = some ev := by
  constructor
  · intro hev
    obtain ⟨x, -, hev⟩ := List.mem_flatMap.mp hev
    have he := h.mem_events.mp hev
    rwa [(h.of_entry he).2]
  · intro he
    refine List.mem_flatMap.mpr ⟨evsetOf ev, ?_, h.mem_events.mpr he⟩
    cases evsetOf ev <;> decide

end Sound

/-- How a change shows in the tables. -/
inductive Shifts (db db' : Evdb) : Change → Prop where
  | keeps (hentry : ∀ x fd, db'.entry x fd = db.entry x fd)
      (hstored : db'.storedEvents.Perm db.storedEvents) : Shifts db db' .keeps
  | adds {ev : MclEvent} (hvacant : db.entry (evsetOf ev) ev.sockfd = none)
      (hentry : ∀ x fd, db'.entry x fd =
        if x = evsetOf ev ∧ fd = ev.sockfd then some ev else db.entry x fd)
      (hstored : db'.storedEvents.Perm (ev :: db.storedEvents)) : Shifts db db' (.adds ev)
  | removes {ev : MclEvent} (hfound : db.entry (evsetOf ev) ev.sockfd = some ev)
      (hentry : ∀ x fd, db'.entry x fd =
        if x = evsetOf ev ∧ fd = ev.sockfd then none else db.entry x fd)
      (hstored : db.storedEvents.Perm (ev :: db'.storedEvents)) : Shifts db db' (.removes ev)

/-! The kernel has no part in what is stored. -/

theorem entry_of_evset (h : db'.evset = db.evset) : db'.entry = db.entry := by
  funext x fd
  rw [entry, entry, h]

theorem storedEvents_of_evset (h : db'.evset = db.evset) : db'.storedEvents = db.storedEvents :=
  List.flatMap_congr fun x _ => by rw [events, events, h]

theorem Sound.of_evset (hs : db.Sound) (h : db'.evset = db.evset) : db'.Sound := by
  intro x
  rw [h]
  exact hs x

theorem Shifts.of_evset (h : db'.evset = db.evset) : Shifts db db' .keeps :=
  .keeps (fun x fd => by rw [entry_of_evset h]) (by rw [storedEvents_of_evset h])

theorem Shifts.after {c : Change} (hs : Shifts db db' c) (db₀ : Evdb) (h : db.evset = db₀.evset) :
    Shifts db₀ db' c := by
  have hentry₀ := entry_of_evset h
  have hstored₀ := storedEvents_of_evset h
  cases hs with
  | keeps hentry hstored => exact .keeps (hentry₀ ▸ hentry) (hstored₀ ▸ hstored)
  | adds hvacant hentry hstored => exact .adds (hentry₀ ▸ hvacant) (hentry₀ ▸ hentry) (hstored₀ ▸ hstored)
  | removes hfound hentry hstored => exact .removes (hentry₀ ▸ hfound) (hentry₀ ▸ hentry) (hstored₀ ▸ hstored)

theorem evset_setEvset_of_ne {y : Evset} (hy : y ≠ x) : (db.setEvset x ht).evset y = db.evset y :=
  Function.update_of_ne hy _ _

theorem evset_setEvset_self : (db.setEvset x ht).evset x = ht := Function.update_self ..

theorem Sound.setEvset (h : db.Sound) (ht' : TableSound x ht) : (db.setEvset x ht).Sound := by
  intro y
  by_cases hy : y = x
  · subst hy
    rwa [evset_setEvset_self]
  · rw [evset_setEvset_of_ne hy]
    exact h y

/-- The lookups of a table that has changed at one descriptor. -/
theorem Sound.entry_setEvset (h : db.Sound) (ht' : TableSound x ht) {n : BitVec 32} {v : Option (HashPair MclEvent)}
    (hs : ∀ m, ht.stored (.int m) = if m = n then v else (db.evset x).stored (.int m)) (y : Evset)
    (fd : BitVec 32) : (db.setEvset x ht).entry y fd =
      if y = x ∧ fd = n then v.bind (·.val) else db.entry y fd := by
  rw [(h.setEvset ht').entry_eq, h.entry_eq]
  by_cases hy : y = x
  · subst hy
    rw [evset_setEvset_self, hs]
    by_cases hfd : fd = n
    · simp only [hfd, and_self, if_true]
    · simp only [hfd, and_false, if_false]
  · rw [evset_setEvset_of_ne hy, if_neg (fun hc => hy hc.1)]

theorem storedEvents_perm {l : List MclEvent} (hevents : (db'.events x).Perm (l ++ db.events x))
    (hother : ∀ y, y ≠ x → db'.events y = db.events y) :
    db'.storedEvents.Perm (l ++ db.storedEvents) := by
  simp only [storedEvents, Evset.all, List.flatMap_cons, List.flatMap_nil, List.append_nil]
  cases x with
  | rdevset =>
    rw [hother .wrevset (by simp), ← List.append_assoc l]
    exact hevents.append_right _
  | wrevset =>
    rw [hother .rdevset (by simp)]
    apply (List.Perm.append_left _ hevents).trans
    exact List.perm_append_comm_assoc ..

theorem events_setEvset_of_ne {y : Evset} (hy : y ≠ x) : (db.setEvset x ht).events y = db.events y := by
  rw [events, events, evset_setEvset_of_ne hy]

theorem pairEvents_cons (hval : p.val = some ev) (ps : List (HashPair MclEvent)) :
    (p :: ps).filterMap (·.val) = [ev] ++ ps.filterMap (·.val) :=
  List.filterMap_cons_some hval

/-! The calls. -/

theorem hasRoom_iff : db.hasRoom ev = true ↔
    ∃ i, bucketOf (.int ev.sockfd) = some i ∧ ((db.evset (evsetOf ev)).bucket i).length < mclListMaxSize := by
  rw [hasRoom, Option.any_eq_true]
  exact exists_congr fun i => and_congr_right fun _ => decide_eq_true_iff

theorem addEvent_of_insert {ht' : Hash MclEvent FreeFn} {ret : ℤ}
    (hins : hashInsert (.int ev.sockfd) (some ev) (db.evset (evsetOf ev)) false none = some (ret, ht', [])) :
    addEvent ev db = some (db.setEvset (evsetOf ev) ht') := by
  unfold addEvent mclIntHashInsertSafe
  rw [hins]
  rfl

/-- `add_event` stores an event whose descriptor is not in its table, if the list has room. -/
theorem Sound.addEvent_shifts (h : db.Sound) (ev : MclEvent) :
    ∃ db', addEvent ev db = some db' ∧ db'.kernel = db.kernel ∧ db'.Sound ∧
      (Shifts db db' .keeps ∧ ¬ (db.entry (evsetOf ev) ev.sockfd = none ∧ db.hasRoom ev = true) ∨
        Shifts db db' (.adds ev) ∧ db.hasRoom ev = true) := by
  have ht := h (evsetOf ev)
  have hvalid : (HashKey.int ev.sockfd).Valid := trivial
  have hother : ∀ ht', ∀ y, y ≠ evsetOf ev → (db.setEvset (evsetOf ev) ht').events y = db.events y :=
    fun ht' y hy => events_setEvset_of_ne hy
  rcases ht.wf.insertSafe_cases hvalid ht.keyType ev with
    ⟨ht', hins, hno, hb, -⟩ | ⟨ht', i, q, hins, hi, hroom, rfl, hb, -⟩
  · have ht'' : TableSound (evsetOf ev) ht' := by
      refine ht.becomes (i := 0) ?_ (ht.stored 0)
      rwa [Function.update_eq_self]
    refine ⟨db.setEvset (evsetOf ev) ht', addEvent_of_insert hins, rfl, h.setEvset ht'', .inl ⟨.keeps ?_ ?_, ?_⟩⟩
    · intro y fd
      rw [(h.setEvset ht'').entry_eq, h.entry_eq]
      by_cases hy : y = evsetOf ev
      · subst hy
        rw [evset_setEvset_self, stored_same hb]
      · rw [evset_setEvset_of_ne hy]
    · apply storedEvents_perm (l := []) (x := evsetOf ev) _ (hother ht')
      rw [events, events, evset_setEvset_self, pairs_of_bucket_eq hb.bucket]
      exact .refl _
    · rintro ⟨hvacant, hroom⟩
      obtain ⟨i, hi, hlt⟩ := hasRoom_iff.mp hroom
      have hnone := h.stored_of_vacant hvacant
      rw [stored_of_bucketOf hi] at hnone
      exact hno i hi (.inr ⟨hnone, hlt⟩)
  · obtain ⟨hnone, hlt⟩ := hroom.resolve_left (by simp)
    have hrow : ∀ q ∈ ⟨(db.evset (evsetOf ev)).brk, (HashKey.int ev.sockfd).copy, some ev⟩ ::
        (db.evset (evsetOf ev)).bucket i, StoredIn (evsetOf ev) q := by
      intro q hq
      rcases List.mem_cons.mp hq with rfl | hq
      · exact ⟨ev, rfl, rfl, rfl⟩
      · exact ht.stored i q hq
    have ht'' := ht.becomes hb hrow
    have hstored := storedInt_put (n := ev.sockfd) hb rfl hi hroom
    refine ⟨db.setEvset (evsetOf ev) ht', addEvent_of_insert hins, rfl, h.setEvset ht'',
      .inr ⟨.adds ?_ (h.entry_setEvset ht'' hstored) ?_, hasRoom_iff.mpr ⟨i, hi, hlt⟩⟩⟩
    · rw [h.entry_eq, stored_of_bucketOf hi, hnone]
      rfl
    · apply storedEvents_perm (l := [ev]) (x := evsetOf ev) _ (hother ht')
      obtain ⟨rest, hold, hnew⟩ := pairs_update (bucketOf_lt hi) hb.bucket
      have hpairs := hnew.trans (hold.symm.cons _)
      have hevents := hpairs.filterMap (·.val)
      rw [pairEvents_cons rfl] at hevents
      rwa [events, events, evset_setEvset_self]

/-- `del_event` takes out what it finds under the descriptor of its argument. -/
theorem Sound.delEvent_shifts (h : db.Sound) (arg : MclEvent) :
    (db.entry (evsetOf arg) arg.sockfd = none ∧ delEvent arg db = some (db, [])) ∨
      ∃ ev db', db.entry (evsetOf arg) arg.sockfd = some ev ∧
        delEvent arg db = some (db', [(.eventHtFree, ev)]) ∧ db'.kernel = db.kernel ∧ db'.Sound ∧
        Shifts db db' (.removes ev) := by
  have ht := h (evsetOf arg)
  have hmcl : mclIntHashDelete arg.sockfd (db.evset (evsetOf arg)) (some .eventHtFree) =
      some (hashDelete (calcHash (.int arg.sockfd)) (.int arg.sockfd) (db.evset (evsetOf arg))
        (some .eventHtFree)) := by
    unfold mclIntHashDelete
    rw [ht.keyType]
    rfl
  cases hentry : db.entry (evsetOf arg) arg.sockfd with
  | none =>
    refine .inl ⟨rfl, ?_⟩
    unfold delEvent
    rw [hmcl, ht.wf.hashDelete_absent (h.stored_of_vacant hentry)]
    exact congrArg (fun evset => some ({ db with evset := evset }, [])) (Function.update_eq_self _ _)
  | some ev =>
    obtain ⟨p, hs, hval⟩ := h.stored_of_entry hentry
    obtain ⟨i, ev', hi, hu, hp, hkey, hval', hfd, hx⟩ := ht.of_stored hs
    obtain rfl : ev = ev' := Option.some.inj (hval.symm.trans hval')
    obtain ⟨ht', hdel, hb⟩ := ht.wf.hashDelete_present hi hu (some FreeFn.eventHtFree)
    have ht'' : TableSound (evsetOf arg) ht' :=
      ht.becomes hb fun q hq => ht.stored i q (KeySame.mem_of_mem_drop hq)
    rw [← hkey] at hb
    have hstored := storedInt_remove ht.wf hb hp hkey
    refine .inr ⟨ev, db.setEvset (evsetOf arg) ht', rfl, ?_, rfl, h.setEvset ht'', .removes ?_ ?_ ?_⟩
    · unfold delEvent
      rw [hmcl, hdel]
      simp only [destroyPair, callFree, hval]
      rfl
    · rw [hx, hfd]
      exact hentry
    · rw [hx, hfd]
      exact h.entry_setEvset ht'' hstored
    · have hpairs := pairs_remove (bucketOf_lt hi) (by rwa [hkey]) hb.bucket
      apply storedEvents_perm (l := [ev]) (x := evsetOf arg) _ fun y hy => (events_setEvset_of_ne hy).symm
      rw [events, events, evset_setEvset_self, ← pairEvents_cons hval]
      exact hpairs.filterMap _

end Evdb
end Mcl.Kqueue
