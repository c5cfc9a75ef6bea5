import Mcl.Net.SelectLoop
import Mcl.Util.HashCursor

/-! What the tables and the events of the select backend always are, whatever the callbacks do. -/
namespace Mcl
open Mcl.Library Mcl.Hash

/-- A pair maps a descriptor to an event for it, of the table's side. -/
def StoredOn (side : Side) (p : HashPair SltHtNode) : Prop :=
  ∃ ev, p.key = .int ev.sockfd ∧ p.val = some ⟨ev⟩ ∧ getEvset ev = some side ∧
    ev.sockfd.slt 0 = false

structure TableSound (side : Side) (ht : Hash SltHtNode SltFreeFn) : Prop where
  wf : ht.WF
  keyType : ht.keyType = .int
  eraseFn : ht.eraseFn = some .eventHtFree
  stored : ∀ i, ∀ p ∈ ht.bucket i, StoredOn side p

/-- One bucket exchanged for another. -/
theorem TableSound.becomes {side : Side} {ht ht' : Hash SltHtNode SltFreeFn} {i : ℕ}
    {row : List (HashPair SltHtNode)} (h : TableSound side ht)
    (hb : Becomes ht ht' (Function.update ht.bucket i row)) (hrow : ∀ p ∈ row, StoredOn side p) :
    TableSound side ht' := by
  refine ⟨hb.wf, hb.keyType.trans h.keyType, hb.eraseFn.trans h.eraseFn, ?_⟩
  rw [hb.bucket]
  exact (Function.forall_update_iff _ (p := fun _ (ps : List (HashPair SltHtNode)) =>
    ∀ p ∈ ps, StoredOn side p)).mpr ⟨hrow, fun j _ => h.stored j⟩

/-- The pair of an event. -/
theorem TableSound.of_val {side : Side} {ht : Hash SltHtNode SltFreeFn} (h : TableSound side ht) {i : ℕ}
    {p : HashPair SltHtNode} {ev : MclEvent} (hp : p ∈ ht.bucket i) (hval : p.val = some ⟨ev⟩) :
    p.key = .int ev.sockfd ∧ getEvset ev = some side ∧ ev.sockfd.slt 0 = false := by
  obtain ⟨ev', hkey, hval', hside, hnneg⟩ := h.stored i p hp
  rw [hval] at hval'
  obtain rfl := SltHtNode.mk.inj (Option.some.inj hval')
  exact ⟨hkey, hside, hnneg⟩

/-- A lookup by descriptor. -/
theorem TableSound.stored_iff {side : Side} {ht : Hash SltHtNode SltFreeFn} (h : TableSound side ht)
    {fd : BitVec 32} {p : HashPair SltHtNode} :
    ht.stored (.int fd) = some p ↔ (∃ i, p ∈ ht.bucket i) ∧ p.key = .int fd := by
  constructor
  · intro hs
    obtain ⟨i, -, hu⟩ := mem_stored hs
    obtain ⟨hp, hsame⟩ := KeySame.mem_of_lookup hu
    obtain ⟨ev, hkey, -⟩ := h.stored i p hp
    have hcmp : keyCmp (.int fd) p.key = true := hsame
    rw [hkey] at hcmp ⊢
    exact ⟨⟨i, hp⟩, congrArg HashKey.int (of_decide_eq_true hcmp).symm⟩
  · rintro ⟨⟨i, hp⟩, hkey⟩
    have hi := (h.wf.placed i p hp).bucketOf
    have hu := (h.wf.distinct i).lookup_of_mem hp
    rw [hkey] at hi hu
    rw [stored_of_bucketOf hi]
    exact hu

theorem TableSound.of_mem_pairs {side : Side} {ht : Hash SltHtNode SltFreeFn} (h : TableSound side ht)
    {p : HashPair SltHtNode} (hp : p ∈ ht.pairs) : StoredOn side p := by
  obtain ⟨i, hp⟩ := h.wf.mem_pairs.mp hp
  exact h.stored i p hp

theorem ne_expEvs_of_getEvset {ev : MclEvent} {side : Side} (h : getEvset ev = some side) :
    side ≠ .expEvs := by
  rintro rfl
  unfold getEvset at h
  split_ifs at h <;> simp at h

/-- A read or write event has a bit of `MCL_EV_EXP`, so nothing is done for it in `exp_evs`. -/
theorem exp_of_getEvset {ev : MclEvent} {side : Side} (h : getEvset ev = some side) :
    ev.evType &&& mclEvExp ≠ 0 := by
  intro hexp
  have hread : ev.evType &&& mclEvRead = 0 := by
    have : mclEvRead = mclEvExp &&& mclEvRead := by decide
    rw [this, ← BitVec.and_assoc, hexp]
    exact BitVec.zero_and
  have hwrite : ev.evType &&& mclEvWrite = 0 := by
    have : mclEvWrite = mclEvExp &&& mclEvWrite := by decide
    rw [this, ← BitVec.and_assoc, hexp]
    exact BitVec.zero_and
  simp [getEvset, hread, hwrite] at h

/-- A delete that waits for a cleanup callback is one of a read or write event. -/
structure DelFrame.Sound (frame : DelFrame) : Prop where
  inExp : frame.inExp = false
  ret : frame.ret = 1
  exp : frame.arg.evType &&& mclEvExp ≠ 0

namespace SelectState

variable {s s' : SelectState} {side : Side} {ht' : Hash SltHtNode SltFreeFn} {fds' : FdSet}

theorem ht_of_evs (hevs : s'.db.evs = Function.update s.db.evs side ⟨ht', fds'⟩) :
    s'.ht = Function.update s.ht side ht' := by
  funext x
  by_cases hx : x = side
  · subst hx
    simp only [ht, hevs, Function.update_self]
  · simp only [ht, hevs, Function.update_of_ne hx]

theorem fds_of_evs (hevs : s'.db.evs = Function.update s.db.evs side ⟨ht', fds'⟩) :
    s'.fds = Function.update s.fds side fds' := by
  funext x
  by_cases hx : x = side
  · subst hx
    simp only [fds, hevs, Function.update_self]
  · simp only [fds, hevs, Function.update_of_ne hx]

/-- The change of the tables by a call: the event it adds to a side or removes from one. -/
inductive Change where
  | keeps
  | adds (side : Side) (ev : MclEvent)
  | removes (side : Side) (ev : MclEvent)

/-- How a change shows in the tables, the sets and the events that are gone. -/
inductive Effect (s s' : SelectState) : Change → Prop where
  | keeps {side : Side} {ht' : Hash SltHtNode SltFreeFn} {fds' : FdSet}
      (hevs : s'.db.evs = Function.update s.db.evs side ⟨ht', fds'⟩) (hfds : fds' ⊆ s.fds side)
      (hkept : ∀ fd ∈ s.fds side, (s.ht side).stored (.int fd) ≠ none → fd ∈ fds')
      (hb : Becomes (s.ht side) ht' (s.ht side).bucket) (hk : Keeps (s.ht side) ht')
      (hgone : s'.gone.Perm s.gone) : Effect s s' .keeps
  | adds {side : Side} {ht' : Hash SltHtNode SltFreeFn} {i : ℕ} {q : HashPair SltHtNode}
      {ev : MclEvent}
      (hevs : s'.db.evs = Function.update s.db.evs side ⟨ht', fdSet ev.sockfd (s.fds side)⟩)
      (hb : Becomes (s.ht side) ht' (Function.update (s.ht side).bucket i (q :: (s.ht side).bucket i)))
      (hputs : Puts (s.ht side) ht' i q) (hi : bucketOf (.int ev.sockfd) = some i)
      (hroom : Room false (.int ev.sockfd) ((s.ht side).bucket i))
      (hkey : q.key = .int ev.sockfd) (hval : q.val = some ⟨ev⟩) (hside : getEvset ev = some side)
      (hnneg : ev.sockfd.slt 0 = false)
      (hfresh : ∀ e ∈ s.storedEvents ++ s.gone, e.addr ≠ ev.addr)
      (hgone : s'.gone.Perm s.gone) : Effect s s' (.adds side ev)
  | removes {side : Side} {ht' : Hash SltHtNode SltFreeFn} {fds' : FdSet} {i : ℕ}
      {p : HashPair SltHtNode} {ev : MclEvent}
      (hevs : s'.db.evs = Function.update s.db.evs side ⟨ht', fds'⟩) (hfds : fds' ⊆ s.fds side)
      (hkept : ∀ fd ∈ s.fds side, fd ≠ ev.sockfd → fd ∈ fds')
      (hb : Becomes (s.ht side) ht'
        (Function.update (s.ht side).bucket i (dropUnder p.key ((s.ht side).bucket i))))
      (hrem : Removes (s.ht side) ht' i p) (hp : p ∈ (s.ht side).bucket i) (hval : p.val = some ⟨ev⟩)
      (hgone : s'.gone.Perm (ev :: s.gone)) : Effect s s' (.removes side ev)

/-- The same, seen from any side `x`. -/
inductive EffectAt (s s' : SelectState) (x : Side) (c : Change) : Prop where
  | keeps (hfds : s'.fds x ⊆ s.fds x)
      (hkept : ∀ fd ∈ s.fds x, (s.ht x).stored (.int fd) ≠ none → fd ∈ s'.fds x)
      (hb : Becomes (s.ht x) (s'.ht x) (s.ht x).bucket) (hk : Keeps (s.ht x) (s'.ht x))
  | adds {i : ℕ} {q : HashPair SltHtNode} {ev : MclEvent} (hc : c = .adds x ev)
      (hfds : s'.fds x = fdSet ev.sockfd (s.fds x))
      (hb : Becomes (s.ht x) (s'.ht x) (Function.update (s.ht x).bucket i (q :: (s.ht x).bucket i)))
      (hputs : Puts (s.ht x) (s'.ht x) i q) (hi : bucketOf (.int ev.sockfd) = some i)
      (hroom : Room false (.int ev.sockfd) ((s.ht x).bucket i)) (hkey : q.key = .int ev.sockfd)
      (hval : q.val = some ⟨ev⟩) (hstored : StoredOn x q)
  | removes {i : ℕ} {p : HashPair SltHtNode} {ev : MclEvent} (hc : c = .removes x ev)
      (hfds : s'.fds x ⊆ s.fds x) (hkept : ∀ fd ∈ s.fds x, fd ≠ ev.sockfd → fd ∈ s'.fds x)
      (hb : Becomes (s.ht x) (s'.ht x)
        (Function.update (s.ht x).bucket i (dropUnder p.key ((s.ht x).bucket i))))
      (hrem : Removes (s.ht x) (s'.ht x) i p) (hp : p ∈ (s.ht x).bucket i) (hval : p.val = some ⟨ev⟩)
      (hgone : ev ∈ s'.gone)

/-- The invariant of the backend. -/
structure Sound (s : SelectState) : Prop where
  tables : ∀ side, TableSound side (s.ht side)
  owned : ((s.storedEvents ++ s.gone).map (·.addr)).Nodup
  frames : ∀ frame ∈ s.dels, frame.Sound

theorem storedEvents_perm {l : List MclEvent} (hside : (s'.events side).Perm (l ++ s.events side))
    (hother : ∀ x, x ≠ side → s'.events x = s.events x) :
    s'.storedEvents.Perm (l ++ s.storedEvents) := by
  simp only [storedEvents, Side.all, List.flatMap_cons, List.flatMap_nil, List.append_nil]
  cases side with
  | inEvs =>
    rw [hother .outEvs (by simp), hother .expEvs (by simp), ← List.append_assoc l]
    exact hside.append_right _
  | outEvs =>
    rw [hother .inEvs (by simp), hother .expEvs (by simp)]
    refine (List.Perm.append_left _ (hside.append_right _)).trans ?_
    rw [List.append_assoc]
    exact List.perm_append_comm_assoc ..
  | expEvs =>
    rw [hother .inEvs (by simp), hother .outEvs (by simp)]
    refine (List.Perm.append_left _ (List.Perm.append_left _ hside)).trans ?_
    refine (List.Perm.append_left _ (List.perm_append_comm_assoc ..)).trans ?_
    exact List.perm_append_comm_assoc ..

theorem pairEvents_cons {q : HashPair SltHtNode} {ev : MclEvent} (hval : q.val = some ⟨ev⟩)
    (ps : List (HashPair SltHtNode)) :
    (q :: ps).filterMap (fun p => p.val.map (·.ev)) = [ev] ++ ps.filterMap fun p => p.val.map (·.ev) :=
  List.filterMap_cons_some (by rw [hval]; rfl)

theorem events_of_ht {x : Side} (hht : s'.ht x = s.ht x) : s'.events x = s.events x := by
  rw [events, events, hht]

theorem mem_events {ev : MclEvent} {i : ℕ} {p : HashPair SltHtNode} (h : (s.ht side).WF)
    (hp : p ∈ (s.ht side).bucket i) (hval : p.val = some ⟨ev⟩) : ev ∈ s.storedEvents := by
  have hev : ev ∈ s.events side := List.mem_filterMap.mpr ⟨p, h.mem_pairs.mpr ⟨i, hp⟩, by simp [hval]⟩
  refine List.mem_flatMap.mpr ⟨side, ?_, hev⟩
  cases side <;> simp [Side.all]

/-- What a change makes of the events in the tables and of those that are gone. -/
inductive Moves (s s' : SelectState) : Change → Prop where
  | keeps (hevents : ∀ x, (s'.events x).Perm (s.events x)) (hgone : s'.gone.Perm s.gone) :
      Moves s s' .keeps
  | adds {side : Side} {ev : MclEvent} (hside : getEvset ev = some side)
      (hnneg : ev.sockfd.slt 0 = false) (hfresh : ∀ e ∈ s.storedEvents ++ s.gone, e.addr ≠ ev.addr)
      (hevents : (s'.events side).Perm (ev :: s.events side))
      (hother : ∀ x, x ≠ side → s'.events x = s.events x) (hgone : s'.gone.Perm s.gone) :
      Moves s s' (.adds side ev)
  | removes {side : Side} {ev : MclEvent} (hevents : (s.events side).Perm (ev :: s'.events side))
      (hother : ∀ x, x ≠ side → s'.events x = s.events x) (hgone : s'.gone.Perm (ev :: s.gone)) :
      Moves s s' (.removes side ev)

namespace Moves

variable {ev : MclEvent}

theorem stored_keeps (hm : Moves s s' .keeps) : s'.storedEvents.Perm s.storedEvents := by
  cases hm with
  | keeps hevents hgone => exact List.Perm.flatMap (.refl _) fun x _ => hevents x

theorem stored_adds (hm : Moves s s' (.adds side ev)) : s'.storedEvents.Perm (ev :: s.storedEvents) := by
  cases hm with
  | adds _ _ _ hevents hother hgone => exact storedEvents_perm (l := [ev]) hevents hother

theorem stored_removes (hm : Moves s s' (.removes side ev)) :
    s.storedEvents.Perm (ev :: s'.storedEvents) := by
  cases hm with
  | removes hevents hother hgone =>
    exact storedEvents_perm (l := [ev]) hevents fun x hx => (hother x hx).symm

/-- Every event has one owner, before and after. -/
theorem owned {c : Change} (hm : Moves s s' c)
    (h : ((s.storedEvents ++ s.gone).map (·.addr)).Nodup) :
    ((s'.storedEvents ++ s'.gone).map (·.addr)).Nodup := by
  cases c with
  | keeps =>
    have hstored := hm.stored_keeps
    cases hm with
    | keeps hevents hgone => exact ((hstored.append hgone).map _).nodup_iff.mpr h
  | adds side ev =>
    have hstored := hm.stored_adds
    cases hm with
    | adds hside hnneg hfresh hevents hother hgone =>
      apply ((hstored.append hgone).map _).nodup_iff.mpr
      refine List.nodup_cons.mpr ⟨fun hmem => ?_, h⟩
      obtain ⟨e, he, haddr⟩ := List.mem_map.mp hmem
      exact hfresh e he haddr
  | removes side ev =>
    have hstored := hm.stored_removes
    cases hm with
    | removes hevents hother hgone =>
      have hperm : (s.storedEvents ++ s.gone).Perm (s'.storedEvents ++ s'.gone) :=
        (hstored.append_right _).trans (List.perm_middle.symm.trans (List.Perm.append_left _ hgone.symm))
      exact (hperm.map _).nodup_iff.mp h

end Moves

namespace Sound

/-- The invariant does not look at the sets, nor at the place but for its node. -/
theorem of_eq {t : SelectState} (h : s.Sound) (hht : t.ht = s.ht) (hdels : t.dels = s.dels)
    (hgone : t.gone.Sublist s.gone) : t.Sound := by
  refine ⟨fun side => hht ▸ h.tables side, ?_, hdels ▸ h.frames⟩
  have hstored : t.storedEvents = s.storedEvents := by
    exact List.flatMap_congr fun x _ => events_of_ht (congrFun hht x)
  rw [hstored]
  exact h.owned.sublist ((List.Sublist.append_left hgone _).map _)

/-- A stored event is none of those on their way out. -/
theorem addr_ne_of_stored (h : s.Sound) {ev e : MclEvent} (hev : ev ∈ s.storedEvents) (he : e ∈ s.gone) :
    e.addr ≠ ev.addr := by
  have hnd := h.owned
  rw [List.map_append, List.nodup_append] at hnd
  exact fun haddr => hnd.2.2 _ (List.mem_map_of_mem hev) _ (List.mem_map_of_mem he) haddr.symm

/-- The pair that holds an event of a table. -/
theorem exists_pair (h : s.Sound) {ev : MclEvent} (hev : ev ∈ s.events side) :
    ∃ i p, p ∈ (s.ht side).bucket i ∧ p.val = some ⟨ev⟩ ∧ p.key = .int ev.sockfd ∧
      getEvset ev = some side := by
  obtain ⟨p, hp, hval⟩ := List.mem_filterMap.mp hev
  obtain ⟨i, hp⟩ := (h.tables side).wf.mem_pairs.mp hp
  obtain ⟨ev', hkey, hval', hside, -⟩ := (h.tables side).stored i p hp
  obtain rfl : ev' = ev := by simpa [hval'] using hval
  exact ⟨i, p, hp, hval', hkey, hside⟩

theorem not_isFreed (h : s.Sound) {ev : MclEvent} (hev : ev ∈ s.storedEvents) :
    s.isFreed ev = false := by
  rw [isFreed, List.any_eq_false]
  intro e he hc
  exact h.addr_ne_of_stored hev (List.mem_append_right _ he) (beq_iff_eq.mp hc)

theorem effectAt (h : s.Sound) {c : Change} (he : Effect s s' c) (x : Side) : EffectAt s s' x c := by
  have hstay : s'.ht x = s.ht x → s'.fds x = s.fds x → EffectAt s s' x c := fun hht hfds => by
    refine .keeps (hfds ▸ Finset.Subset.refl _) (fun fd hfd _ => hfds ▸ hfd) ?_ ?_
    · rw [hht]
      exact (h.tables x).wf.keep
    · rw [hht]
      exact .refl _
  cases he with
  | @keeps side ht' fds' hevs hfds hkept hb hk hgone =>
    rw [ht_of_evs hevs, fds_of_evs hevs] at hstay
    by_cases hx : x = side
    · subst hx
      refine .keeps ?_ ?_ ?_ ?_ <;> simp only [ht_of_evs hevs, fds_of_evs hevs, Function.update_self]
      · exact hfds
      · exact hkept
      · exact hb
      · exact hk
    · exact hstay (Function.update_of_ne hx _ _) (Function.update_of_ne hx _ _)
  | @adds side ht' i q ev hevs hb hputs hi hroom hkey hval hgetEvset hnneg hfresh hgone =>
    rw [ht_of_evs hevs, fds_of_evs hevs] at hstay
    by_cases hx : x = side
    · subst hx
      have hht : s'.ht x = ht' := by rw [ht_of_evs hevs, Function.update_self]
      refine .adds rfl ?_ (hht ▸ hb) (hht ▸ hputs) hi hroom hkey hval ⟨ev, hkey, hval, hgetEvset, hnneg⟩
      rw [fds_of_evs hevs, Function.update_self]
    · exact hstay (Function.update_of_ne hx _ _) (Function.update_of_ne hx _ _)
  | @removes side ht' fds' i p ev hevs hfds hkept hb hrem hp hval hgone =>
    rw [ht_of_evs hevs, fds_of_evs hevs] at hstay
    by_cases hx : x = side
    · subst hx
      have hht : s'.ht x = ht' := by rw [ht_of_evs hevs, Function.update_self]
      have hfdsx : s'.fds x = fds' := by rw [fds_of_evs hevs, Function.update_self]
      exact .removes rfl (hfdsx ▸ hfds) (hfdsx ▸ hkept) (hht ▸ hb) (hht ▸ hrem) hp hval
        (hgone.mem_iff.mpr List.mem_cons_self)
    · exact hstay (Function.update_of_ne hx _ _) (Function.update_of_ne hx _ _)

theorem tableSound_effect (h : s.Sound) {c : Change} (he : Effect s s' c) (x : Side) :
    TableSound x (s'.ht x) := by
  have ht := h.tables x
  cases h.effectAt he x with
  | keeps _ _ hb _ =>
    refine ht.becomes (i := 0) ?_ (ht.stored 0)
    rwa [Function.update_eq_self]
  | adds _ _ hb _ _ _ _ _ hstored =>
    refine ht.becomes hb fun p hp => ?_
    rcases List.mem_cons.mp hp with rfl | hp
    · exact hstored
    · exact ht.stored _ p hp
  | removes _ _ _ hb _ _ _ _ =>
    exact ht.becomes hb fun q hq => ht.stored _ q (KeySame.mem_of_mem_drop hq)

theorem effect_moves (h : s.Sound) {c : Change} (he : Effect s s' c) : Moves s s' c := by
  cases he with
  | @keeps side ht' fds' hevs hfds hkept hb hk hgone =>
    refine .keeps (fun x => ?_) hgone
    by_cases hx : x = side
    · subst hx
      rw [events, ht_of_evs hevs, Function.update_self, pairs_of_bucket_eq hb.bucket]
      exact .refl _
    · have hsame : s'.events x = s.events x :=
        events_of_ht (by rw [ht_of_evs hevs, Function.update_of_ne hx])
      exact hsame ▸ .refl _
  | @adds side ht' i q ev hevs hb hputs hi hroom hkey hval hside hnneg hfresh hgone =>
    have hother : ∀ x, x ≠ side → s'.events x = s.events x := fun x hx =>
      events_of_ht (by rw [ht_of_evs hevs, Function.update_of_ne hx])
    refine .adds hside hnneg hfresh ?_ hother hgone
    obtain ⟨rest, hold, hnew⟩ := pairs_update (bucketOf_lt hi) hb.bucket
    have hpairs : ht'.pairs.Perm (q :: (s.ht side).pairs) := hnew.trans (hold.symm.cons q)
    rw [events, events, ht_of_evs hevs, Function.update_self, ← List.singleton_append, ← pairEvents_cons hval]
    exact hpairs.filterMap _
  | @removes side ht' fds' i p ev hevs hfds hkept hb hrem hp hval hgone =>
    have ht := h.tables side
    have hother : ∀ x, x ≠ side → s'.events x = s.events x := fun x hx =>
      events_of_ht (by rw [ht_of_evs hevs, Function.update_of_ne hx])
    refine .removes ?_ hother hgone
    have hi := bucketOf_lt (ht.wf.placed i p hp).bucketOf
    have hpairs := pairs_remove hi ((ht.wf.distinct i).lookup_of_mem hp) hb.bucket
    rw [events, events, ht_of_evs hevs, Function.update_self, ← List.singleton_append, ← pairEvents_cons hval]
    exact hpairs.filterMap _

theorem effect (h : s.Sound) {c : Change} (he : Effect s s' c)
    (hframes : ∀ frame ∈ s'.dels, frame.Sound) : s'.Sound :=
  ⟨h.tableSound_effect he, (h.effect_moves he).owned h.owned, hframes⟩

end Sound
end SelectState
end Mcl
