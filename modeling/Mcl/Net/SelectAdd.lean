import Mcl.Net.SelectDelete

/-! What `select_add` returns, and what it leaves when it returns 0. -/
namespace Mcl
open Mcl.Library Mcl.Hash

/-- The tables, the sets and `n_maxfdn` are as they were; `malloc` may have been called. -/
structure SltEvdb.Unchanged (db db' : SltEvdb) : Prop where
  nMaxfdn : db'.nMaxfdn = db.nMaxfdn
  fds : ∀ side, (db'.evs side).fds = (db.evs side).fds
  ht : ∀ side, (db'.evs side).ht = { (db.evs side).ht with brk := (db'.evs side).ht.brk }

namespace SelectState

/-- The event is in the table of its side. -/
def Stores (s : SelectState) (ev : MclEvent) : Prop := ∃ side, getEvset ev = some side ∧ ev ∈ s.events side

/-- The table of its side has nothing under its descriptor, and room in the list. -/
def Takes (s : SelectState) (ev : MclEvent) : Prop :=
  ∃ side i, getEvset ev = some side ∧ ev.sockfd.slt 0 = false ∧ bucketOf (.int ev.sockfd) = some i ∧
    Room false (.int ev.sockfd) ((s.ht side).bucket i)

/-- `select_add` stores the event and returns 1, or returns 0 and changes nothing. -/
def AddsTruly (s : SelectState) (ev : MclEvent) : Prop :=
  ∃ ret db, selectAdd ev s.db = some (ret, db) ∧ (ret = 0 ∨ ret = 1) ∧
    (ret = 1 ↔ { s with db := db }.Stores ev ∧ ¬ s.Stores ev) ∧ (ret = 0 → s.db.Unchanged db)

variable {s : SelectState} {side : Side} {ev : MclEvent} {db : SltEvdb}

theorem unchanged_setEvset {ht' : Hash SltHtNode SltFreeFn} (hht : ht' = { s.ht side with brk := ht'.brk }) :
    s.db.Unchanged (s.db.setEvset side ⟨ht', s.fds side⟩) := by
  refine ⟨rfl, fun x => ?_, fun x => ?_⟩
  · by_cases hx : x = side
    · subst hx
      simp only [SltEvdb.setEvset, Function.update_self]
      rfl
    · simp only [SltEvdb.setEvset, Function.update_of_ne hx]
  · by_cases hx : x = side
    · subst hx
      simp only [SltEvdb.setEvset, Function.update_self]
      exact hht
    · simp only [SltEvdb.setEvset, Function.update_of_ne hx]

theorem events_of_unchanged {t : SelectState} (hdb : s.db.Unchanged t.db) (side : Side) :
    t.events side = s.events side := by
  rw [events, ht, hdb.ht side]
  rfl

theorem stores_of_unchanged (hdb : s.db.Unchanged db) : { s with db := db }.Stores ev ↔ s.Stores ev := by
  simp only [Stores, events_of_unchanged (t := { s with db := db }) hdb]

theorem Sound.not_stores_of_takes (h : s.Sound) (htakes : s.Takes ev) : ¬ s.Stores ev := by
  obtain ⟨side, i, hside, -, hi, hroom⟩ := htakes
  rintro ⟨side', hside', hev⟩
  obtain rfl := Option.some.inj (hside.symm.trans hside')
  have hmem : ev ∈ s.storedEvents := List.mem_flatMap.mpr ⟨side, by cases side <;> simp [Side.all], hev⟩
  obtain ⟨side', i', p, hside', hi', hp⟩ := h.stored_of_mem hmem
  obtain rfl := Option.some.inj (hside.symm.trans hside')
  obtain rfl := Option.some.inj (hi.symm.trans hi')
  rw [(hroom.resolve_left (by simp)).1] at hp
  exact absurd hp (by simp)

theorem Sound.selectAdd_refused (h : s.Sound) (hno : ¬ s.Takes ev) :
    ∃ db, selectAdd ev s.db = some (0, db) ∧ s.db.Unchanged db := by
  have hsame : s.db.Unchanged s.db := ⟨rfl, fun _ => rfl, fun _ => rfl⟩
  cases hside : getEvset ev with
  | none => exact ⟨s.db, by simp only [selectAdd, hside], hsame⟩
  | some side =>
    rw [selectAdd_eq hside]
    cases hneg : ev.sockfd.slt 0 with
    | true =>
      have hadd : addEvent ev side s.db = some (0, s.db) := by rw [addEvent, if_pos hneg]
      exact ⟨s.db, by rw [hadd]; rfl, hsame⟩
    | false =>
      have ht := h.tables side
      have hvalid : (HashKey.int ev.sockfd).Valid := trivial
      rcases ht.wf.insertSafe_cases hvalid ht.keyType ⟨ev⟩ with
        ⟨ht', hins, -, -, -⟩ | ⟨ht', i, q, -, hi, hroom, -, -, -⟩
      · refine ⟨s.db.setEvset side ⟨ht', s.fds side⟩, ?_, unchanged_setEvset (hashInsert_zero hins)⟩
        rw [addEvent_of_insert hneg hins]
        rfl
      · exact absurd ⟨side, i, hside, hneg, hi, hroom⟩ hno

/-- What comes back is the descriptor, and 0 is one. -/
theorem Sound.selectAdd_takes (h : s.Sound) (htakes : s.Takes ev) :
    ∃ db, selectAdd ev s.db = some (if ev.sockfd = 0 then 0 else 1, db) ∧ { s with db := db }.Stores ev := by
  obtain ⟨side, i, hside, hneg, hi, hroom⟩ := htakes
  have ht := h.tables side
  have hvalid : (HashKey.int ev.sockfd).Valid := trivial
  rcases ht.wf.insertSafe_cases hvalid ht.keyType ⟨ev⟩ with
    ⟨ht', -, hno, -, -⟩ | ⟨ht', j, q, hins, hj, -, hq, hb, -⟩
  · exact absurd hroom (hno i hi)
  · have hadd := addEvent_of_insert hneg hins
    rw [if_neg (by simp)] at hadd
    rw [selectAdd_eq hside, hadd]
    have hstores : ∀ db : SltEvdb, db.evs = (s.db.setEvset side ⟨ht', fdSet ev.sockfd (s.fds side)⟩).evs →
        { s with db := db }.Stores ev := by
      intro db hevs
      have hq' : q ∈ ht'.bucket j := by
        rw [hb.bucket, Function.update_self]
        exact List.mem_cons_self
      refine ⟨side, hside, List.mem_filterMap.mpr ⟨q, ?_, ?_⟩⟩
      · rw [ht_of_evs (s := s) hevs, Function.update_self]
        exact hb.wf.mem_pairs.mpr ⟨j, hq'⟩
      · rw [hq]
        rfl
    by_cases hfd : ev.sockfd = 0
    · rw [if_pos hfd]
      exact ⟨_, congrArg some (if_pos hfd), hstores _ rfl⟩
    · rw [if_neg hfd]
      exact ⟨_, congrArg some (if_neg hfd), hstores _ rfl⟩

/-- The event has been stored and `select_add` returns 0. -/
theorem Sound.not_addsTruly (h : s.Sound) (htakes : s.Takes ev) (hfd : ev.sockfd = 0) : ¬ s.AddsTruly ev := by
  obtain ⟨db, hadd, hstores⟩ := h.selectAdd_takes htakes
  rw [if_pos hfd] at hadd
  rintro ⟨ret, db', hadd', -, -, hsame⟩
  obtain ⟨rfl, rfl⟩ := Prod.mk.inj (Option.some.inj (hadd.symm.trans hadd'))
  exact h.not_stores_of_takes htakes ((stores_of_unchanged (hsame rfl)).mp hstores)

/-- For any descriptor and any type. -/
theorem select_add_iff (hs : s.Reachable) (ev : MclEvent) :
    s.AddsTruly ev ↔ ¬ (ev.sockfd = 0 ∧ s.Takes ev) := by
  have h := hs.sound
  by_cases htakes : s.Takes ev
  · by_cases hfd : ev.sockfd = 0
    · exact iff_of_false (h.not_addsTruly htakes hfd) fun hc => hc ⟨hfd, htakes⟩
    · obtain ⟨db, hadd, hstores⟩ := h.selectAdd_takes htakes
      rw [if_neg hfd] at hadd
      refine iff_of_true ⟨1, db, hadd, .inr rfl, ?_, fun hc => absurd hc (by simp)⟩ fun hc => hfd hc.1
      exact iff_of_true rfl ⟨hstores, h.not_stores_of_takes htakes⟩
  · obtain ⟨db, hadd, hsame⟩ := h.selectAdd_refused htakes
    refine iff_of_true ⟨0, db, hadd, .inl rfl, ?_, fun _ => hsame⟩ fun hc => htakes hc.2
    rw [stores_of_unchanged hsame]
    exact iff_of_false (by simp) fun hc => hc.2 hc.1

/-- The first event, on descriptor 0. -/
theorem select_add_zero : ¬ ∀ (s : SelectState) (ev : MclEvent), s.Reachable → s.AddsTruly ev := by
  intro hall
  have htakes : init.Takes (readEvent 1 0) :=
    ⟨.inEvs, 0, by decide, by decide, by decide, .inr ⟨by decide, by decide⟩⟩
  exact sound_init.not_addsTruly htakes rfl (hall init (readEvent 1 0) ⟨[], [], rfl⟩)

theorem select_add_iff_three : init.AddsTruly (readEvent 1 3) :=
  (select_add_iff ⟨[], [], rfl⟩ (readEvent 1 3)).mpr fun hc => absurd hc.1 (by decide)

end SelectState
end Mcl
