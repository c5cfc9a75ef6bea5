import Mcl.Net.KqueueCoherence
import Mcl.Net.SelectMoves

/-! The two backends behind `mcl_evops`, side by side: `mcl_event_add` and `mcl_event_del` on fresh
bases, before any dispatch. -/
namespace Mcl
open Mcl.Library Mcl.Hash

/-- A call through `mcl_evops`. -/
inductive EvOp where
  | add (ev : MclEvent)
  | del (arg : MclEvent)

def EvOp.event : EvOp → MclEvent
  | .add ev | .del ev => ev

/-- The side of a kqueue table. -/
def Kqueue.Evset.side : Kqueue.Evset → Side
  | .rdevset => .inEvs
  | .wrevset => .outEvs

/-- A read or write event on a descriptor above 0 and below `FD_SETSIZE`. -/
def isPlain (ev : MclEvent) : Bool :=
  Kqueue.KqState.isReadOrWrite ev && (0 : BitVec 32).slt ev.sockfd && ev.sockfd.slt 1024

namespace SelectState

/-- A call to its end. -/
def call (s : SelectState) : EvOp → Option (Option ℤ × SelectState)
  | .add ev => (s.exec (.add ev)).map (settle selectMachine .ret 2)
  | .del arg => (s.exec (.del arg)).map (settle selectMachine .ret 2)

/-- The event in a table for a descriptor. -/
def entry (s : SelectState) (side : Side) (fd : BitVec 32) : Option MclEvent :=
  ((mclIntHashFind fd (s.ht side)).join).map (·.ev)

end SelectState

namespace Kqueue.KqState

/-- The kernel takes every descriptor. -/
def call (s : KqState) : EvOp → Option (Option ℤ × KqState)
  | .add ev => (s.exec (.add ev true)).map (settle kqMachine .ret 2)
  | .del arg => (s.exec (.del arg)).map (settle kqMachine .ret 2)

end Kqueue.KqState

open Kqueue (KqState Evset evsetOf)

/-- Both backends given the same calls, with what each returns. -/
def backends : Machine (SelectState × KqState) EvOp (Option ℤ × Option ℤ) :=
  ⟨(.init, .init), fun x op => do
    let (ret, s) ← x.1.call op
    let (ret', k) ← x.2.call op
    some ((ret, ret'), (s, k))⟩

/-- The same events are stored for the same descriptors and sides. -/
def SameStored (s : SelectState) (k : KqState) : Prop :=
  ∀ x fd, s.entry (Evset.side x) fd = k.db.entry x fd

/-- No call is for a persistent read event, an add finds its descriptor and side free, and a delete
finds there an event that is not its argument. -/
def alike (s : SelectState) (op : EvOp) : Bool :=
  op.event.evType != (mclEvRead ||| mclEvPersist) &&
    match op with
    | .add ev => s.entry (sideOf ev) ev.sockfd == none
    | .del arg => (s.entry (sideOf arg) arg.sockfd).any fun ev => arg.addr != ev.addr

section Types

variable {ev : MclEvent}

theorem getEvset_of_isPlain (h : isPlain ev = true) : getEvset ev = some (sideOf ev) := by
  simp only [isPlain, KqState.isReadOrWrite, Bool.and_eq_true, decide_eq_true_eq, List.mem_cons,
    List.not_mem_nil, or_false] at h
  obtain ⟨⟨htype | htype | htype | htype, -⟩, -⟩ := h
  all_goals
    unfold getEvset sideOf
    rw [htype]
    rfl

theorem toNat_of_isPlain (h : isPlain ev = true) :
    ev.sockfd.slt 0 = false ∧ ev.sockfd ≠ 0 ∧ ev.sockfd.toNat < 1024 := by
  simp only [isPlain, Bool.and_eq_true] at h
  obtain ⟨⟨-, hpos⟩, hlt⟩ := h
  rw [BitVec.slt_iff_toInt_lt] at hpos hlt
  have hzero : (0 : BitVec 32).toInt = 0 := rfl
  have hsize : (1024 : BitVec 32).toInt = 1024 := rfl
  have hcond := BitVec.toInt_eq_toNat_cond ev.sockfd
  rw [hzero] at hpos
  rw [hsize] at hlt
  refine ⟨?_, ?_, ?_⟩
  · rw [← Bool.not_eq_true, BitVec.slt_iff_toInt_lt, hzero]
    omega
  · rintro h0
    rw [h0, hzero] at hpos
    exact absurd hpos (Int.lt_irrefl _)
  · split at hcond <;> omega

/-- The tables are chosen alike, unless the event is a persistent read event. -/
theorem side_evsetOf (h : isPlain ev = true) (htype : ev.evType ≠ mclEvRead ||| mclEvPersist) :
    (evsetOf ev).side = sideOf ev := by
  simp only [isPlain, KqState.isReadOrWrite, Bool.and_eq_true, decide_eq_true_eq, List.mem_cons,
    List.not_mem_nil, or_false] at h
  obtain ⟨⟨hread | hwrite | hpersistent | hwritep, -⟩, -⟩ := h
  · unfold evsetOf sideOf
    rw [hread]
    rfl
  · unfold evsetOf sideOf
    rw [hwrite]
    rfl
  · exact absurd hpersistent htype
  · unfold evsetOf sideOf
    rw [hwritep]
    rfl

theorem evsetOf_persistent (h : ev.evType = mclEvRead ||| mclEvPersist) : evsetOf ev = .wrevset := by
  unfold evsetOf
  rw [h]
  rfl

theorem sideOf_persistent (h : ev.evType = mclEvRead ||| mclEvPersist) : sideOf ev = .inEvs := by
  unfold sideOf
  rw [h]
  decide

theorem bucketOf_of_isPlain (h : isPlain ev = true) : ∃ i, bucketOf (.int ev.sockfd) = some i := by
  have hneg := (toNat_of_isPlain h).1
  rw [← Bool.not_eq_true, BitVec.slt_iff_toInt_lt] at hneg
  have hav : availableHashValue (calcHash (.int ev.sockfd)) = true := by
    apply (available_calHashInt ev.sockfd).mpr
    left
    exact Int.not_lt.mp hneg
  exact ⟨_, if_pos hav⟩

end Types
/-- The lookups are the same but for one descriptor of one table. -/
def SetsAt {ι : Type} [DecidableEq ι] (e e' : ι → BitVec 32 → Option MclEvent) (x : ι) (fd : BitVec 32)
    (v : Option MclEvent) : Prop :=
  ∀ y m, e' y m = if y = x ∧ m = fd then v else e y m

/-! The select backend. -/

namespace SelectState

variable {s s' t : SelectState} {side : Side} {fd n : BitVec 32} {ev arg : MclEvent} {a : Option ℤ}
  {l : SelectStep} {r : Shown × SelectState}

theorem Sound.entry_eq (h : s.Sound) (side : Side) (fd : BitVec 32) :
    s.entry side fd = (((s.ht side).stored (.int fd)).bind (·.val)).map (·.ev) := by
  rw [entry, mclIntHashFind_eq h, Option.join_some]

theorem Sound.entry_eq_none (h : s.Sound) :
    s.entry side fd = none ↔ (s.ht side).stored (.int fd) = none := by
  rw [h.entry_eq, Option.map_eq_none_iff]
  exact (h.tables side).wf.stored_val _

theorem Sound.entry_eq_some (h : s.Sound) :
    s.entry side fd = some ev ↔ ∃ p, (s.ht side).stored (.int fd) = some p ∧ p.val = some ⟨ev⟩ := by
  rw [h.entry_eq, Option.map_eq_some_iff]
  constructor
  · rintro ⟨⟨e⟩, hnode, rfl⟩
    exact Option.bind_eq_some_iff.mp hnode
  · exact fun hp => ⟨⟨ev⟩, Option.bind_eq_some_iff.mpr hp, rfl⟩

theorem Sound.setsAt (h : s.Sound) (h' : s'.Sound) {ht' : Hash SltHtNode SltFreeFn}
    {v : Option (HashPair SltHtNode)} (hht : s'.ht = Function.update s.ht side ht')
    (hs : ∀ m, ht'.stored (.int m) = if m = fd then v else (s.ht side).stored (.int m)) :
    SetsAt s.entry s'.entry side fd ((v.bind (·.val)).map (·.ev)) := by
  intro y m
  rw [h'.entry_eq, h.entry_eq, hht]
  by_cases hy : y = side
  · subst hy
    rw [Function.update_self, hs]
    by_cases hm : m = fd
    · simp only [hm, and_self, if_true]
    · simp only [hm, and_false, if_false]
  · rw [Function.update_of_ne hy, if_neg (fun hc => hy hc.1)]

/-- Outside the loop, before any dispatch, with descriptors below `FD_SETSIZE` only. -/
structure AtMain (s : SelectState) : Prop where
  unpolled : s.Unpolled
  main : s.place = .main
  below : ∀ ev ∈ s.storedEvents, ev.sockfd.toNat < 1024

theorem AtMain.exec (h : s.AtMain) (he : s.exec l = some r) (hpoll : ∀ r left, l ≠ .polled r left)
    (hadd : ∀ ev, l = .add ev → ev.sockfd.toNat < 1024) (hmain : r.2.place = .main) : r.2.AtMain := by
  have hround : s.Round False True := by
    unfold Round
    rw [h.main]
    trivial
  refine ⟨h.unpolled.exec he hpoll, hmain, fun e hmem => ?_⟩
  exact (h.unpolled.sound.exec_stored hround he hmem).elim (h.below e) (hadd e)

theorem AtMain.room (h : s.AtMain) (side : Side) (i : ℕ) : ((s.ht side).bucket i).length < mclListMaxSize := by
  have ht := h.unpolled.sound.tables side
  apply ht.wf.length_lt_of_keys
  intro p hp
  obtain ⟨ev, hkey, hval, -, -⟩ := ht.stored i p hp
  exact ⟨ev.sockfd, hkey, h.below ev (mem_events ht.wf hp hval)⟩

theorem AtMain.call_add (h : s.AtMain) (hdels : s.dels = []) (hplain : isPlain ev = true)
    (he : s.call (.add ev) = some (a, s')) :
    s'.AtMain ∧ s'.dels = [] ∧
      (s.entry (sideOf ev) ev.sockfd = none ∧ a = some 1 ∧
          SetsAt s.entry s'.entry (sideOf ev) ev.sockfd (some ev) ∨
        s.entry (sideOf ev) ev.sockfd ≠ none ∧ a = some 0 ∧ s'.entry = s.entry) := by
  obtain ⟨r, hr, hsettle⟩ := Option.map_eq_some_iff.mp he
  have hside := getEvset_of_isPlain hplain
  obtain ⟨hneg, hne, hlt⟩ := toNat_of_isPlain hplain
  have hs := h.unpolled.sound
  have ht := hs.tables (sideOf ev)
  have hvalid : (HashKey.int ev.sockfd).Valid := trivial
  have hr' : r = s.add ev := by
    rcases exec_inv hr with hstep | hstep
    · cases hstep with
      | add => rfl
    · cases hstep
  -- what the call returns, and where
  have hdone : ∀ ret t, s.add ev = (.ret ret, t) → t.place = .main → t.dels = [] →
      a = some ret ∧ s' = t ∧ s'.AtMain ∧ s'.dels = [] := by
    rintro ret t hadd hmain hdels'
    rw [hr', hadd] at hr hsettle
    obtain ⟨rfl, rfl⟩ := Prod.mk.inj hsettle
    refine ⟨rfl, rfl, h.exec hr (by simp) ?_ hmain, hdels'⟩
    intro e hadd
    obtain rfl := SelectStep.add.inj hadd
    exact hlt
  rcases ht.wf.insertSafe_cases hvalid ht.keyType ⟨ev⟩ with
    ⟨ht', hins, hno, hb, -⟩ | ⟨ht', i, q, hins, hi, hroom, rfl, hb, -⟩
  · have hadd := addEvent_of_insert hneg hins
    rw [if_pos rfl] at hadd
    obtain ⟨rfl, rfl, hmain, hdels'⟩ := hdone 0 _ (add_zero hside hadd) h.main hdels
    refine ⟨hmain, hdels', .inr ⟨?_, rfl, ?_⟩⟩
    · intro hnone
      obtain ⟨i, hi⟩ := bucketOf_of_isPlain hplain
      have hvacant := hs.entry_eq_none.mp hnone
      rw [stored_of_bucketOf hi] at hvacant
      exact hno i hi (.inr ⟨hvacant, h.room _ i⟩)
    · funext y m
      rw [hmain.unpolled.sound.entry_eq, hs.entry_eq, ht_of_evs (s := s) rfl]
      by_cases hy : y = sideOf ev
      · subst hy
        rw [Function.update_self, stored_same hb]
      · rw [Function.update_of_ne hy]
  · have hadd := addEvent_of_insert hneg hins
    rw [if_neg (by simp)] at hadd
    have hret := add_sockfd hside hadd
    rw [if_neg hne] at hret
    obtain ⟨rfl, rfl, hmain, hdels'⟩ := hdone 1 _ hret h.main hdels
    refine ⟨hmain, hdels', .inl ⟨?_, rfl, ?_⟩⟩
    · apply hs.entry_eq_none.mpr
      rw [stored_of_bucketOf hi]
      exact (hroom.resolve_left (by simp)).1
    · exact hs.setsAt hmain.unpolled.sound (ht_of_evs (s := s) rfl) (storedInt_put hb rfl hi hroom)

/-- A delete of a descriptor that is not stored there. -/
theorem AtMain.settle_del_vacant (h : s.AtMain) (hdels : s.dels = []) (hplain : isPlain arg = true)
    (hpass : s.passable arg = true) (hr : s.exec (.del arg) = some (s.del arg))
    (hsettle : settle selectMachine .ret 2 (s.del arg) = (a, s')) (hentry : s.entry (sideOf arg) arg.sockfd = none) :
    a = some 0 ∧ s'.AtMain ∧ s'.dels = [] ∧ s'.entry = s.entry := by
  have hside := getEvset_of_isPlain hplain
  obtain ⟨hneg, -, -⟩ := toNat_of_isPlain hplain
  have hs := h.unpolled.sound
  have hvacant := hs.entry_eq_none.mp hentry
  by_cases hset : arg.sockfd ∈ s.fds (sideOf arg)
  · rw [hs.del_absent hside hpass hneg hset hvacant] at hr hsettle
    obtain ⟨rfl, rfl⟩ := Prod.mk.inj hsettle
    have hmain := h.exec hr (by simp) (by simp) h.main
    refine ⟨rfl, hmain, hdels, ?_⟩
    funext y m
    rw [hmain.unpolled.sound.entry_eq, hs.entry_eq, ht_of_evs (s := s) rfl, Function.update_eq_self]
  · rw [del_notSet hside hpass (.inr hset)] at hsettle
    obtain ⟨rfl, rfl⟩ := Prod.mk.inj hsettle
    exact ⟨rfl, h, hdels, rfl⟩

/-- A delete of a descriptor that is stored there: of the stored event, or of a copy of it. -/
theorem AtMain.settle_del_stored (h : s.AtMain) (hdels : s.dels = []) (hplain : isPlain arg = true)
    (hpass : s.passable arg = true) (hr : s.exec (.del arg) = some (s.del arg))
    (hsettle : settle selectMachine .ret 2 (s.del arg) = (a, s')) (hentry : s.entry (sideOf arg) arg.sockfd = some ev) :
    arg.addr = ev.addr ∧ a = none ∨
      arg.addr ≠ ev.addr ∧ a = some 1 ∧ s'.AtMain ∧ s'.dels = [] ∧
        SetsAt s.entry s'.entry (sideOf arg) arg.sockfd none := by
  have hside := getEvset_of_isPlain hplain
  obtain ⟨hneg, -, -⟩ := toNat_of_isPlain hplain
  have hs := h.unpolled.sound
  have ht := hs.tables (sideOf arg)
  have hexp := exp_of_getEvset hside
  have hlive := not_isFreed_of_passable hpass
  obtain ⟨p, hstored, hval⟩ := hs.entry_eq_some.mp hentry
  have hset : arg.sockfd ∈ s.fds (sideOf arg) := h.unpolled.armed _ _ (by simp [hstored])
  obtain ⟨ht', i, ev', hval', hfd, hp, hb, -, hdel⟩ := hs.del_stored hside hneg hset hstored
  obtain rfl : ev = ev' := SltHtNode.mk.inj (Option.some.inj (hval.symm.trans hval'))
  have hkey : p.key = .int arg.sockfd := hfd ▸ (ht.of_val hp hval).1
  -- the state in which the delete has freed the event
  have hsets : ∀ u : SelectState, u.Sound → u.db = (s.taken arg (sideOf arg) ht').db →
      SetsAt s.entry u.entry (sideOf arg) arg.sockfd none := fun u hu hdb =>
    hs.setsAt hu (ht_of_evs (congrArg SltEvdb.evs hdb)) (storedInt_remove ht.wf hb hp hkey)
  rw [hdel] at hr hsettle
  cases hcall : eventHtFreeCall ⟨ev⟩ with
  | none =>
    rw [hcall] at hr hsettle
    dsimp only at hr hsettle
    rw [delRest_free (s := s.taken arg (sideOf arg) ht') hexp hlive] at hr hsettle
    by_cases haddr : arg.addr = ev.addr
    · rw [if_pos haddr] at hsettle
      exact .inl ⟨haddr, (Prod.mk.inj hsettle).1.symm⟩
    · rw [if_neg haddr] at hr hsettle
      obtain ⟨rfl, rfl⟩ := Prod.mk.inj hsettle
      have hmain := h.exec hr (by simp) (by simp) h.main
      exact .inr ⟨haddr, rfl, hmain, hdels, hsets _ hmain.unpolled.sound rfl⟩
  | some call =>
    rw [hcall] at hr hsettle
    dsimp only at hr hsettle
    have hwait := h.exec hr (by simp) (by simp) h.main
    have huser : inUser { s.taken arg (sideOf arg) ht' with
        dels := ⟨arg, 1, ⟨ev⟩, false⟩ :: s.dels } = true := by
      simp only [inUser, taken, h.main]
    have hret := exec_ret hexp huser hlive rfl
    rw [settle_call hret] at hsettle
    by_cases haddr : arg.addr = ev.addr
    · rw [if_pos haddr] at hsettle
      exact .inl ⟨haddr, (Prod.mk.inj hsettle).1.symm⟩
    · rw [if_neg haddr] at hret hsettle
      obtain ⟨rfl, rfl⟩ := Prod.mk.inj hsettle
      have hmain := hwait.exec hret (by simp) (by simp) h.main
      exact .inr ⟨haddr, rfl, hmain, hdels, hsets _ hmain.unpolled.sound rfl⟩

theorem AtMain.call_del (h : s.AtMain) (hdels : s.dels = []) (hplain : isPlain arg = true)
    (he : s.call (.del arg) = some (a, s')) :
    (s.entry (sideOf arg) arg.sockfd = none ∧ a = some 0 ∧ s'.AtMain ∧ s'.dels = [] ∧ s'.entry = s.entry) ∨
      ∃ ev, s.entry (sideOf arg) arg.sockfd = some ev ∧
        (arg.addr = ev.addr ∧ a = none ∨
          arg.addr ≠ ev.addr ∧ a = some 1 ∧ s'.AtMain ∧ s'.dels = [] ∧
            SetsAt s.entry s'.entry (sideOf arg) arg.sockfd none) := by
  obtain ⟨r, hr, hsettle⟩ := Option.map_eq_some_iff.mp he
  have hpass : s.passable arg = true ∧ r = s.del arg := by
    rcases exec_inv hr with hstep | hstep
    · cases hstep with
      | del _ hpass => exact ⟨hpass, rfl⟩
    · cases hstep
  obtain ⟨hpass, rfl⟩ := hpass
  cases hentry : s.entry (sideOf arg) arg.sockfd with
  | none => exact .inl ⟨rfl, h.settle_del_vacant hdels hplain hpass hr hsettle hentry⟩
  | some ev => exact .inr ⟨ev, rfl, h.settle_del_stored hdels hplain hpass hr hsettle hentry⟩

end SelectState
/-! The kqueue backend. -/

namespace Kqueue.KqState

variable {s s' t : KqState} {ev arg : MclEvent} {a : Option ℤ} {l : KqStep} {r : Shown × KqState} {c : Change}

/-- Outside the loop, with descriptors below `FD_SETSIZE` only. -/
structure AtMain (s : KqState) : Prop where
  sound : s.Sound
  main : s.place = .main
  below : ∀ ev ∈ s.db.storedEvents, ev.sockfd.toNat < 1024

theorem AtMain.hasRoom (h : s.AtMain) (hplain : isPlain ev = true) : s.db.hasRoom ev = true := by
  have ht := h.sound.tables (evsetOf ev)
  obtain ⟨i, hi⟩ := bucketOf_of_isPlain hplain
  refine Evdb.hasRoom_iff.mpr ⟨i, hi, ht.wf.length_lt_of_keys fun p hp => ?_⟩
  obtain ⟨e, hkey, hval, hx⟩ := ht.stored i p hp
  refine ⟨e.sockfd, hkey, h.below e ?_⟩
  apply h.sound.tables.mem_storedEvents.mpr
  rw [hx]
  apply h.sound.tables.mem_events.mp
  exact List.mem_filterMap.mpr ⟨p, ht.wf.mem_pairs.mpr ⟨i, hp⟩, hval⟩

theorem AtMain.moves (h : s.AtMain) (hm : Moves s s' c) (hmain : s'.place = .main)
    (hadd : ∀ ev, c = .adds ev → ev.sockfd.toNat < 1024) : s'.AtMain := by
  refine ⟨hm.sound h.sound, hmain, fun e he => ?_⟩
  cases hm.shifts with
  | keeps _ hstored => exact h.below e (hstored.mem_iff.mp he)
  | @adds ev _ _ hstored =>
    rcases List.mem_cons.mp (hstored.mem_iff.mp he) with rfl | he
    · exact hadd e rfl
    · exact h.below e he
  | removes _ _ hstored => exact h.below e (hstored.mem_iff.mpr (List.mem_cons_of_mem _ he))

theorem AtMain.call_add (h : s.AtMain) (hdels : s.dels = []) (hplain : isPlain ev = true)
    (he : s.call (.add ev) = some (a, s')) :
    s'.AtMain ∧ s'.dels = [] ∧ a = some 1 ∧
      (s.db.entry (evsetOf ev) ev.sockfd = none ∧
          SetsAt s.db.entry s'.db.entry (evsetOf ev) ev.sockfd (some ev) ∨
        s.db.entry (evsetOf ev) ev.sockfd ≠ none ∧ s'.db.entry = s.db.entry) := by
  obtain ⟨r, hr, hsettle⟩ := Option.map_eq_some_iff.mp he
  cases exec_inv hr with
  | add huser hpass hrel =>
    have hadds := h.sound.add_adds hpass hrel true
    generalize s.add ev true = r at hadds hsettle
    cases hadds with
    | @unstored db _ hmoves hfull =>
      obtain ⟨rfl, rfl⟩ := Prod.mk.inj hsettle
      refine ⟨h.moves hmoves h.main (by simp), hdels, rfl, .inr ⟨?_, ?_⟩⟩
      · exact fun hnone => hfull ⟨hnone, h.hasRoom hplain⟩
      · cases hmoves.shifts with
        | keeps hentry _ => exact funext fun x => funext (hentry x)
    | @stored db _ hmoves _ =>
      obtain ⟨rfl, rfl⟩ := Prod.mk.inj hsettle
      refine ⟨h.moves hmoves h.main ?_, hdels, rfl, .inl ?_⟩
      · intro e hc
        obtain rfl := Change.adds.inj hc
        exact (toNat_of_isPlain hplain).2.2
      · cases hmoves.shifts with
        | adds hvacant hentry _ => exact ⟨hvacant, hentry⟩

/-- A delete that goes on after the cleanup callback of its argument. -/
theorem Removal.settle (h : s.AtMain) (hdels : s.dels = []) (hlive : s.isFreed arg = false)
    (hr : Removal s arg false r) (n : ℕ) :
    ∃ t, Mcl.settle kqMachine .ret (n + 1) r = (some 1, t) ∧ t.AtMain ∧ t.dels = [] ∧
      SetsAt s.db.entry t.db.entry (evsetOf arg) arg.sockfd none := by
  have hsets : ∀ {u : KqState} {ev : MclEvent}, s.db.entry (evsetOf arg) arg.sockfd = some ev →
      Moves s u (.removes ev) → SetsAt s.db.entry u.db.entry (evsetOf arg) arg.sockfd none := by
    intro u ev hfound hm
    obtain ⟨hfd, hx⟩ := h.sound.tables.of_entry hfound
    cases hm.shifts with
    | removes _ hentry _ =>
      rw [hfd, hx] at hentry
      exact hentry
  cases hr with
  | reads hfreed => exact absurd (hlive.symm.trans hfreed) (by simp)
  | absent _ hentry =>
    refine ⟨s, rfl, h, hdels, fun y m => ?_⟩
    split
    · next hat => rw [hat.1, hat.2, hentry]
    · rfl
  | @waits db ev call _ hentry _ hcall hmoves =>
    have hfree : ({ s with db := db, dels := ⟨arg, some ev, false⟩ :: s.dels } : KqState).exec .ret =
        some (.ret 1, { s with db := db }.free ev false) := by
      simp only [KqState.exec, inUser, h.main, if_true]
      rfl
    have hdone : Moves s ({ s with db := db }.free ev false) (.removes ev) := by
      refine ⟨hmoves.tables, hmoves.shifts, ?_, fun _ hc => absurd hc (by simp)⟩
      exact free_gone ev false { s with db := db }
    exact ⟨{ s with db := db }.free ev false, (settle_call hfree).trans (settle_ret ..),
      h.moves hdone h.main (by simp), hdels, hsets hentry hdone⟩
  | @frees db ev _ hentry _ hcall hmoves =>
    exact ⟨_, rfl, h.moves hmoves h.main (by simp), hdels, hsets hentry hmoves⟩

theorem AtMain.call_del (h : s.AtMain) (hdels : s.dels = []) (he : s.call (.del arg) = some (a, s')) :
    s'.AtMain ∧ s'.dels = [] ∧ a = some 1 ∧
      SetsAt s.db.entry s'.db.entry (evsetOf arg) arg.sockfd none := by
  obtain ⟨r, hr, hsettle⟩ := Option.map_eq_some_iff.mp he
  cases exec_inv hr with
  | del huser hpass =>
    have hlive : (s.unregistered arg).isFreed arg = false := not_isFreed_of_passable hpass
    have hmain : (s.unregistered arg).AtMain := by
      refine ⟨h.sound.unregistered arg, h.main, fun e hmem => h.below e ?_⟩
      rwa [show s.db.storedEvents = (s.unregistered arg).db.storedEvents from (Evdb.storedEvents_of_evset rfl).symm]
    have hentry : (s.unregistered arg).db.entry = s.db.entry := Evdb.entry_of_evset rfl
    have hd := h.sound.del_dels arg false
    generalize s.del arg false = r at hd hsettle
    cases hd with
    | @waits call hcall =>
      have hret : ({ s.unregistered arg with dels := ⟨arg, none, false⟩ :: s.dels } : KqState).exec .ret =
          some ((s.unregistered arg).delRest arg false) := by
        have huser' : inUser { s.unregistered arg with dels := ⟨arg, none, false⟩ :: s.dels } = true := by
          simp only [inUser, KqState.unregistered, h.main]
        exact if_pos huser'
      obtain ⟨t, hdone, hmain', hdels', hsets⟩ :=
        ((h.sound.unregistered arg).delRest_removal arg false).settle hmain hdels hlive 0
      rw [settle_call hret, hdone] at hsettle
      obtain ⟨rfl, rfl⟩ := Prod.mk.inj hsettle
      exact ⟨hmain', hdels', rfl, hentry ▸ hsets⟩
    | goesOn hcall hr =>
      obtain ⟨t, hdone, hmain', hdels', hsets⟩ := hr.settle hmain hdels hlive 1
      rw [hdone] at hsettle
      obtain ⟨rfl, rfl⟩ := Prod.mk.inj hsettle
      exact ⟨hmain', hdels', rfl, hentry ▸ hsets⟩

end Kqueue.KqState
/-! Side by side. -/

section Agreement

variable {s s' : SelectState} {k k' : KqState} {op : EvOp} {ans : Option ℤ × Option ℤ}
  {x : SelectState × KqState}

/-- Both backends before a call. -/
structure Abreast (s : SelectState) (k : KqState) : Prop where
  select : s.AtMain
  selectDels : s.dels = []
  kqueue : k.AtMain
  kqueueDels : k.dels = []
  same : SameStored s k

/-- A change of both at one descriptor. -/
theorem SameStored.setsAt (h : SameStored s k) {y : Evset} {fd : BitVec 32} {v : Option MclEvent}
    (hs : SetsAt s.entry s'.entry (Evset.side y) fd v) (hk : SetsAt k.db.entry k'.db.entry y fd v) :
    SameStored s' k' := by
  have hside : ∀ z : Evset, z.side = y.side ↔ z = y := by
    intro z
    cases z <;> cases y <;> simp [Evset.side]
  intro z m
  rw [hs, hk, h z m]
  simp only [hside]

theorem SetsAt.self {ι : Type} [DecidableEq ι] {e e' : ι → BitVec 32 → Option MclEvent} {y : ι}
    {fd : BitVec 32} {v : Option MclEvent} (h : SetsAt e e' y fd v) : e' y fd = v :=
  (h y fd).trans (if_pos ⟨rfl, rfl⟩)

/-- The other table is not touched. -/
theorem SetsAt.rdevset {e e' : Evset → BitVec 32 → Option MclEvent} {fd : BitVec 32} {v : Option MclEvent}
    (h : SetsAt e e' .wrevset fd v) (m : BitVec 32) : e' .rdevset m = e .rdevset m :=
  (h .rdevset m).trans (if_neg (by simp))

/-- What one call does, alike or not. -/
structure Answers (s : SelectState) (op : EvOp) (ans : Option ℤ × Option ℤ) (s' : SelectState) (k' : KqState) :
    Prop where
  abreast : alike s op = true → ans.1 = ans.2 ∧ Abreast s' k'
  apart : ans.1 = ans.2 ∧ SameStored s' k' → alike s op = true

variable {ev arg : MclEvent}

theorem Abreast.answers_add (h : Abreast s k) (hplain : isPlain ev = true)
    (hs : s.call (.add ev) = some (ans.1, s')) (hk : k.call (.add ev) = some (ans.2, k')) :
    Answers s (.add ev) ans s' k' := by
  obtain ⟨hmain, hdels, hsel⟩ := h.select.call_add h.selectDels hplain hs
  obtain ⟨hmain', hdels', hret', hkq⟩ := h.kqueue.call_add h.kqueueDels hplain hk
  have hside := side_evsetOf hplain
  have hentry : ev.evType ≠ mclEvRead ||| mclEvPersist →
      s.entry (sideOf ev) ev.sockfd = k.db.entry (evsetOf ev) ev.sockfd := by
    intro htype
    rw [← hside htype]
    exact h.same _ _
  constructor
  · intro halike
    rw [alike, Bool.and_eq_true, bne_iff_ne, beq_iff_eq] at halike
    obtain ⟨htype, hnone⟩ := halike
    rcases hsel with ⟨-, hret, hsets⟩ | ⟨hsome, -⟩
    · rcases hkq with ⟨-, hsets'⟩ | ⟨hsome', -⟩
      · rw [← hside htype] at hsets
        exact ⟨hret.trans hret'.symm, hmain, hdels, hmain', hdels', h.same.setsAt hsets hsets'⟩
      · exact absurd ((hentry htype).symm.trans hnone) hsome'
    · exact absurd hnone hsome
  · rintro ⟨hsame, hstored⟩
    rcases hsel with ⟨hnone, -, hsets⟩ | ⟨-, hret, -⟩
    · rw [alike, Bool.and_eq_true, bne_iff_ne, beq_iff_eq]
      refine ⟨fun htype : ev.evType = _ => ?_, hnone⟩
      -- the kqueue backend stores it on the other side
      have hread := sideOf_persistent htype
      have hwrite := evsetOf_persistent htype
      have hother : k'.db.entry .rdevset ev.sockfd = k.db.entry .rdevset ev.sockfd := by
        rcases hkq with ⟨-, hsets'⟩ | ⟨-, heq⟩
        · rw [hwrite] at hsets'
          exact hsets'.rdevset _
        · rw [heq]
      rw [hread] at hnone hsets
      have hnew : s'.entry .inEvs ev.sockfd = some ev := hsets.self
      have hsame' : s'.entry .inEvs ev.sockfd = k'.db.entry .rdevset ev.sockfd := hstored .rdevset _
      have hold : s.entry .inEvs ev.sockfd = k.db.entry .rdevset ev.sockfd := h.same .rdevset _
      rw [hnew, hother, ← hold, hnone] at hsame'
      exact absurd hsame' (by simp)
    · rw [hret, hret'] at hsame
      exact absurd hsame (by simp)

theorem Abreast.answers_del (h : Abreast s k) (hplain : isPlain arg = true)
    (hs : s.call (.del arg) = some (ans.1, s')) (hk : k.call (.del arg) = some (ans.2, k')) :
    Answers s (.del arg) ans s' k' := by
  have hsel := h.select.call_del h.selectDels hplain hs
  obtain ⟨hmain', hdels', hret', hsets'⟩ := h.kqueue.call_del h.kqueueDels hk
  have hside := side_evsetOf hplain
  constructor
  · intro halike
    rw [alike, Bool.and_eq_true, bne_iff_ne] at halike
    obtain ⟨htype, hother⟩ := halike
    rcases hsel with ⟨hnone, -⟩ | ⟨ev, hsome, hsel⟩
    · rw [hnone] at hother
      exact absurd hother (by simp)
    · rw [hsome, Option.any_some, bne_iff_ne] at hother
      obtain ⟨-, hret, hmain, hdels, hsets⟩ := hsel.resolve_left fun hc => hother hc.1
      rw [← hside htype] at hsets
      exact ⟨hret.trans hret'.symm, hmain, hdels, hmain', hdels', h.same.setsAt hsets hsets'⟩
  · rintro ⟨hsame, hstored⟩
    rcases hsel with ⟨-, hret, -⟩ | ⟨ev, hsome, ⟨-, hret⟩ | ⟨haddr, -, -, -, hsets⟩⟩
    · rw [hret, hret'] at hsame
      exact absurd hsame (by simp)
    · rw [hret, hret'] at hsame
      exact absurd hsame (by simp)
    · rw [alike, Bool.and_eq_true, bne_iff_ne]
      refine ⟨fun htype : arg.evType = _ => ?_, by rw [hsome, Option.any_some, bne_iff_ne]; exact haddr⟩
      have hread := sideOf_persistent htype
      have hwrite := evsetOf_persistent htype
      rw [hwrite] at hsets'
      rw [hread] at hsome hsets
      have hnew : s'.entry .inEvs arg.sockfd = none := hsets.self
      have hsame' : s'.entry .inEvs arg.sockfd = k'.db.entry .rdevset arg.sockfd := hstored .rdevset _
      have hold : s.entry .inEvs arg.sockfd = k.db.entry .rdevset arg.sockfd := h.same .rdevset _
      rw [hnew, hsets'.rdevset, ← hold, hsome] at hsame'
      exact absurd hsame' (by simp)

theorem Abreast.answers (h : Abreast s k) (hplain : isPlain op.event = true) {x' : SelectState × KqState}
    (he : backends.step (s, k) op = some (ans, x')) : Answers s op ans x'.1 x'.2 := by
  obtain ⟨⟨ret, s'⟩, hs, he⟩ := Option.bind_eq_some_iff.mp he
  obtain ⟨⟨ret', k'⟩, hk, he⟩ := Option.bind_eq_some_iff.mp he
  obtain ⟨rfl, rfl⟩ := Prod.mk.inj (Option.some.inj he)
  cases op with
  | add ev => exact h.answers_add hplain hs hk
  | del arg => exact h.answers_del hplain hs hk

theorem abreast_init : Abreast .init .init := by
  have hnone : SelectState.init.storedEvents = [] := by decide +kernel
  refine ⟨⟨SelectState.unpolled_init, rfl, ?_⟩, rfl, ⟨KqState.sound_init, rfl, ?_⟩, rfl, ?_⟩
  · rw [hnone]
    exact fun ev hev => absurd hev List.not_mem_nil
  · rw [KqState.storedEvents_init]
    exact fun ev hev => absurd hev List.not_mem_nil
  · intro y fd
    have hselect : SelectState.init.entry y.side fd = none := by
      apply SelectState.sound_init.entry_eq_none.mpr
      rw [Option.eq_none_iff_forall_ne_some]
      intro p hp
      obtain ⟨⟨i, hi⟩, -⟩ := (SelectState.tableSound_init y.side).stored_iff.mp hp
      exact absurd hi List.not_mem_nil
    rw [hselect]
    cases hentry : KqState.init.db.entry y fd with
    | none => rfl
    | some ev =>
      have hx := (KqState.sound_init.tables.of_entry hentry)
      rw [← hx.1, ← hx.2] at hentry
      have hmem := KqState.sound_init.tables.mem_storedEvents.mpr hentry
      rw [KqState.storedEvents_init] at hmem
      exact absurd hmem List.not_mem_nil

/-- The backends agree along every sequence of alike calls, and on no other call after one. -/
theorem backends_agree {h : List (EvOp × (Option ℤ × Option ℤ))}
    (hr : backends.Reach (fun x op => isPlain op.event = true ∧ alike x.1 op = true) h x) :
    (∀ p ∈ h, p.2.1 = p.2.2) ∧ SameStored x.1 x.2 ∧
      ∀ op ans x', isPlain op.event = true → backends.step x op = some (ans, x') →
        (ans.1 = ans.2 ∧ SameStored x'.1 x'.2 ↔ alike x.1 op = true) := by
  suffices hboth : Abreast x.1 x.2 ∧ ∀ p ∈ h, p.2.1 = p.2.2 by
    obtain ⟨habreast, hanswers⟩ := hboth
    refine ⟨hanswers, habreast.same, fun op ans x' hplain he => ?_⟩
    have hans := habreast.answers hplain he
    exact ⟨hans.apart, fun halike => (hans.abreast halike).imp_right Abreast.same⟩
  induction hr with
  | init => exact ⟨abreast_init, fun p hp => absurd hp List.not_mem_nil⟩
  | step hr hok he ih =>
    obtain ⟨hsame, habreast⟩ := (ih.1.answers hok.1 he).abreast hok.2
    refine ⟨habreast, fun p hp => ?_⟩
    rcases List.mem_append.mp hp with hp | hp
    · exact ih.2 p hp
    · rw [List.mem_singleton.mp hp]
      exact hsame

/-- A read and a write event on one descriptor, and the delete of the first. -/
theorem backends_agree_pair : ∃ (h : List (EvOp × (Option ℤ × Option ℤ))) (x : SelectState × KqState),
    h.map (·.2.1) = [some 1, some 1, some 1] ∧ (∀ p ∈ h, p.2.1 = p.2.2) ∧ SameStored x.1 x.2 := by
  obtain ⟨hist, x, hr, hanswers⟩ := backends.exists_of_restrict
    (fun x op => isPlain op.event && alike x.1 op)
    [.add { Kqueue.plainEvent 1 3 mclEvRead with cleanupCb := some 7 },
      .add (Kqueue.plainEvent 2 3 (mclEvWrite ||| mclEvPersist)),
      .del (Kqueue.plainEvent 3 3 mclEvRead)]
    (fun r => r.1.map (·.2.1) = [some 1, some 1, some 1]) (by decide +kernel)
  have hr' := hr.mono fun x op hok => (Bool.and_eq_true _ _).mp hok
  exact ⟨hist, x, hanswers, (backends_agree hr').1, (backends_agree hr').2.1⟩

/-- Two adds of one descriptor and side, and the delete of a descriptor that is not registered. -/
theorem backends_differ : ¬ ∀ (h : List (EvOp × (Option ℤ × Option ℤ))) (x : SelectState × KqState),
    backends.Reach (fun _ op => isPlain op.event = true) h x →
      (∀ p ∈ h, p.2.1 = p.2.2) ∧ SameStored x.1 x.2 := by
  intro hall
  obtain ⟨hist, x, hr, hanswers⟩ := backends.exists_of_restrict (fun _ op => isPlain op.event)
    [.add (Kqueue.plainEvent 1 3 mclEvRead), .add (Kqueue.plainEvent 2 3 mclEvRead),
      .del (Kqueue.plainEvent 3 4 mclEvRead)]
    (fun r => r.1.map (·.2) = [(some 1, some 1), (some 0, some 1), (some 0, some 1)]) (by decide +kernel)
  have hsame := (hall hist x hr).1
  have hmem : (some 0, some 1) ∈ hist.map (·.2) := by
    rw [hanswers]
    simp
  obtain ⟨p, hp, heq⟩ := List.mem_map.mp hmem
  have hne := hsame p hp
  rw [heq] at hne
  exact absurd hne (by simp)

end Agreement
end Mcl
