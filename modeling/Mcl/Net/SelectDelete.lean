import Mcl.Net.SelectRuns

/-! When `mcl_event_del` works: `del_event` asks the set, which `select` overwrites. -/
namespace Mcl
open Mcl.Library Mcl.Hash

/-- The side of a read or write event. -/
def sideOf (ev : MclEvent) : Side := if ev.evType &&& mclEvRead ≠ 0 then .inEvs else .outEvs

theorem sideOf_eq {ev : MclEvent} {side : Side} (h : getEvset ev = some side) : sideOf ev = side := by
  unfold getEvset at h
  unfold sideOf
  split at h
  · next hread => rw [if_pos hread, ← Option.some.inj h]
  · next hread =>
    split at h
    · rw [if_neg hread, ← Option.some.inj h]
    · exact absurd h (by simp)

namespace SelectState

/-- A call `mcl_event_del(arg)` takes the event `ev` out of its table, frees it once and returns 1.
Where `ev` has a cleanup callback, that is when the callback has returned, which must not itself
have `arg` freed. -/
def Deletes (s : SelectState) (arg ev : MclEvent) : Prop :=
  ∃ shown s', s.exec (.del arg) = some (shown, s') ∧
    mclIntHashFind arg.sockfd (s'.ht (sideOf arg)) = some none ∧
    match eventHtFreeCall ⟨ev⟩ with
    | none => shown = .ret 1 ∧ (s'.freed.map (·.addr)).count ev.addr = 1
    | some call => shown = .call call ∧ ∃ frame, s'.dels = frame :: s.dels ∧
      ∀ t : SelectState, t.Reachable → t.inUser = true → t.dels = frame :: s.dels →
        t.isFreed arg = false → ∃ t', t.exec .ret = some (.ret 1, t') ∧ t'.dels = s.dels ∧
          (t'.freed.map (·.addr)).count ev.addr = 1

variable {s t : SelectState} {side : Side} {arg ev : MclEvent}

theorem mclIntHashFind_eq (h : s.Sound) (fd : BitVec 32) (side : Side) :
    mclIntHashFind fd (s.ht side) = some (((s.ht side).stored (.int fd)).bind (·.val)) := by
  have ht := h.tables side
  unfold mclIntHashFind
  rw [ht.keyType]
  exact congrArg some (ht.wf.hashFind_eq (.int fd))

theorem Sound.notMem_freed_of_stored (h : s.Sound) (hev : ev ∈ s.storedEvents) :
    ev.addr ∉ s.freed.map (·.addr) := by
  have hnd := h.owned
  rw [gone, ← List.append_assoc, List.map_append, List.nodup_append] at hnd
  intro hm
  exact hnd.2.2 ev.addr (List.mem_map_of_mem (List.mem_append_left _ hev)) ev.addr hm rfl

theorem Sound.notMem_freed_of_releasing (h : s.Sound) {node : SltHtNode} (hnode : node ∈ s.releasing) :
    node.ev.addr ∉ s.freed.map (·.addr) := by
  have hnd := h.owned
  rw [gone, ← List.append_assoc, List.map_append, List.nodup_append] at hnd
  intro hm
  exact hnd.2.2 node.ev.addr
    (List.mem_map_of_mem (List.mem_append_right _ (List.mem_map_of_mem hnode))) node.ev.addr hm rfl

theorem count_free (hnot : ev.addr ∉ s.freed.map (·.addr)) :
    ((s.free ⟨ev⟩).freed.map (·.addr)).count ev.addr = 1 := by
  simp only [free, List.map_cons, List.count_cons_self, List.count_eq_zero_of_not_mem hnot]

theorem isFreed_free {node : SltHtNode} :
    (s.free node).isFreed arg = (node.ev.addr == arg.addr || s.isFreed arg) := rfl

/-- Whether the rest of a delete reads what has just been freed. -/
theorem delRest_free (hexp : arg.evType &&& mclEvExp ≠ 0) (hfree : s.isFreed arg = false) :
    (s.free ⟨ev⟩).delRest arg 1 =
      if arg.addr = ev.addr then (s.free ⟨ev⟩).fault .eventAddOrDel else (.ret 1, s.free ⟨ev⟩) := by
  rw [delRest_eq hexp, isFreed_free, hfree, Bool.or_false]
  by_cases haddr : arg.addr = ev.addr
  · simp [haddr]
  · simp [haddr, Ne.symm haddr]

/-- A waiting delete, when its callback returns. -/
theorem exec_ret (hexp : arg.evType &&& mclEvExp ≠ 0) (huser : t.inUser = true)
    (hfree : t.isFreed arg = false) {dels : List DelFrame}
    (hdels : t.dels = ⟨arg, 1, ⟨ev⟩, false⟩ :: dels) :
    t.exec .ret = some (if arg.addr = ev.addr
      then ({ t with dels := dels }.free ⟨ev⟩).fault .eventAddOrDel
      else (.ret 1, { t with dels := dels }.free ⟨ev⟩)) := by
  have hresume : { t with dels := dels }.delResume ⟨arg, 1, ⟨ev⟩, false⟩ = _ :=
    delRest_free (s := { t with dels := dels }) hexp hfree
  rw [← hresume]
  unfold SelectState.exec
  rw [hdels]
  simp only [huser, if_true]

theorem Sound.find_removed (h : s.Sound) {ht' : Hash SltHtNode SltFreeFn} {i : ℕ} {p : HashPair SltHtNode}
    (hb : Becomes (s.ht side) ht'
      (Function.update (s.ht side).bucket i (dropUnder p.key ((s.ht side).bucket i))))
    (hp : p ∈ (s.ht side).bucket i) (hkey : p.key = .int arg.sockfd) :
    mclIntHashFind arg.sockfd ht' = some none := by
  have ht := h.tables side
  have hnone := storedInt_remove ht.wf hb hp hkey arg.sockfd
  rw [if_pos rfl] at hnone
  unfold mclIntHashFind
  rw [hb.keyType, ht.keyType]
  refine (congrArg some (hb.wf.hashFind_eq (.int arg.sockfd))).trans ?_
  rw [hnone]
  rfl

theorem exec_del (huser : s.inUser = true) (hpass : s.passable arg = true) :
    s.exec (.del arg) = some (s.del arg) := if_pos ⟨huser, hpass⟩

theorem not_deletes_of_stays (he : s.exec (.del arg) = some (.ret 0, s))
    (hfind : mclIntHashFind arg.sockfd (s.ht (sideOf arg)) = some (some ⟨ev⟩)) : ¬ s.Deletes arg ev := by
  rintro ⟨shown, s', he', hgone, -⟩
  rw [he] at he'
  obtain ⟨rfl, rfl⟩ := Prod.mk.inj (Option.some.inj he')
  rw [hfind] at hgone
  exact absurd hgone (by simp)

/-- The event has no cleanup callback, and `t` is the state in which it is freed. -/
theorem deletes_iff_of_freed (hcall : eventHtFreeCall ⟨ev⟩ = none)
    (he : s.exec (.del arg) = some (if arg.addr = ev.addr
      then (t.free ⟨ev⟩).fault .eventAddOrDel else (.ret 1, t.free ⟨ev⟩)))
    (hnone : mclIntHashFind arg.sockfd (t.ht (sideOf arg)) = some none)
    (hnot : ev.addr ∉ t.freed.map (·.addr)) : s.Deletes arg ev ↔ arg.addr ≠ ev.addr := by
  unfold Deletes
  rw [hcall]
  constructor
  · rintro ⟨shown, s', he', -, rfl, -⟩ haddr
    rw [he, if_pos haddr] at he'
    exact absurd (congrArg Prod.fst (Option.some.inj he')) (by simp [fault])
  · intro hne
    rw [if_neg hne] at he
    exact ⟨.ret 1, t.free ⟨ev⟩, he, hnone, rfl, count_free hnot⟩

/-- The cleanup callback starts in the state `t`. -/
theorem deletes_iff_of_waits {call : EventCall} (hcall : eventHtFreeCall ⟨ev⟩ = some call)
    (hs : s.Reachable) (he : s.exec (.del arg) = some (.call call, t))
    (hdels : t.dels = ⟨arg, 1, ⟨ev⟩, false⟩ :: s.dels) (hexp : arg.evType &&& mclEvExp ≠ 0)
    (huser : t.inUser = true) (hfree : t.isFreed arg = false)
    (hnone : mclIntHashFind arg.sockfd (t.ht (sideOf arg)) = some none) :
    s.Deletes arg ev ↔ arg.addr ≠ ev.addr := by
  unfold Deletes
  rw [hcall]
  constructor
  · rintro ⟨shown, s', he', -, -, frame, hframe, hret⟩ haddr
    rw [he] at he'
    obtain ⟨-, rfl⟩ := Prod.mk.inj (Option.some.inj he')
    -- the callback may return at once
    obtain ⟨t', hdone, -⟩ := hret t (hs.exec he) huser hframe hfree
    rw [exec_ret hexp huser hfree hdels, if_pos haddr] at hdone
    exact absurd (congrArg Prod.fst (Option.some.inj hdone)) (by simp [fault])
  · intro hne
    refine ⟨.call call, t, he, hnone, rfl, _, hdels, fun u hu huser' hdels' hfree' => ?_⟩
    have hnode : (⟨ev⟩ : SltHtNode) ∈ u.releasing := by simp [releasing, hdels']
    refine ⟨{ u with dels := s.dels }.free ⟨ev⟩, ?_, rfl,
      count_free (s := { u with dels := s.dels }) (hu.sound.notMem_freed_of_releasing hnode)⟩
    rw [exec_ret hexp huser' hfree' hdels', if_neg hne]

/-- A delete that finds the bit of its descriptor. -/
theorem deletes_iff_of_set (hs : s.Reachable) (huser : s.inUser = true) (hpass : s.passable arg = true)
    (hside : getEvset arg = some side) (hset : arg.sockfd ∈ s.fds side) {p : HashPair SltHtNode}
    (hstored : (s.ht side).stored (.int arg.sockfd) = some p) (hval : p.val = some ⟨ev⟩) :
    s.Deletes arg ev ↔ arg.addr ≠ ev.addr := by
  have h := hs.sound
  have ht := h.tables side
  obtain ⟨⟨j, hj⟩, hkey⟩ := ht.stored_iff.mp hstored
  have hneg : arg.sockfd.slt 0 = false := by
    obtain ⟨hkey', -, hnneg⟩ := ht.of_val hj hval
    rw [hkey] at hkey'
    rwa [HashKey.int.inj hkey']
  obtain ⟨ht', i, ev', hval', -, hp, hb, -, hdel⟩ := h.del_stored hside hneg hset hstored
  obtain rfl : ev = ev' := SltHtNode.mk.inj (Option.some.inj (hval.symm.trans hval'))
  have hexp := exp_of_getEvset hside
  have hfree : s.isFreed arg = false := not_isFreed_of_passable hpass
  have hnone : mclIntHashFind arg.sockfd ((s.taken arg side ht').ht (sideOf arg)) = some none := by
    rw [sideOf_eq hside, ht_of_evs (s := s) rfl, Function.update_self]
    exact h.find_removed hb hp hkey
  have he := exec_del huser hpass
  rw [hdel] at he
  cases hcall : eventHtFreeCall ⟨ev⟩ with
  | none =>
    rw [hcall] at he
    apply deletes_iff_of_freed (t := s.taken arg side ht') hcall _ hnone
    · exact h.notMem_freed_of_stored (mem_events ht.wf hj hval)
    · rw [he]
      exact congrArg some (delRest_free hexp hfree)
  | some call =>
    rw [hcall] at he
    exact deletes_iff_of_waits hcall hs he rfl hexp huser hfree hnone

/-- In every state in which code of the user runs, and for every descriptor in a table. -/
theorem select_del_iff (hs : s.Reachable) (huser : s.inUser = true) (hpass : s.passable arg = true)
    (hfind : mclIntHashFind arg.sockfd (s.ht (sideOf arg)) = some (some ⟨ev⟩)) :
    s.Deletes arg ev ↔
      getEvset arg ≠ none ∧ fdIsset arg.sockfd (s.fds (sideOf arg)) = true ∧ arg.addr ≠ ev.addr := by
  have he := exec_del huser hpass
  cases hside : getEvset arg with
  | none =>
    have hstays : s.del arg = (.ret 0, s) := by simp only [del, hside]
    rw [hstays] at he
    exact iff_of_false (not_deletes_of_stays he hfind) fun hc => hc.1 rfl
  | some side =>
    by_cases hset : arg.sockfd ∈ s.fds side
    · have hisset : fdIsset arg.sockfd (s.fds (sideOf arg)) = true := by
        rw [sideOf_eq hside]
        exact decide_eq_true hset
      rw [sideOf_eq hside, mclIntHashFind_eq hs.sound, Option.some.injEq, Option.bind_eq_some_iff] at hfind
      obtain ⟨p, hstored, hval⟩ := hfind
      rw [deletes_iff_of_set hs huser hpass hside hset hstored hval]
      simp [hisset]
    · rw [del_notSet hside hpass (.inr hset)] at he
      refine iff_of_false (not_deletes_of_stays he hfind) fun hc => hset ?_
      rw [sideOf_eq hside] at hc
      exact of_decide_eq_true hc.2.1

/-- With two registered descriptors, of which the poll reports the other one. -/
def unreportedOps : List SelectStep :=
  [.add (readEvent 1 3), .add (readEvent 2 4), .loop none, .polled (readable {3}) ⟨0, 0⟩, .handle]

theorem select_del_unreported :
    ¬ ∀ (s : SelectState) (arg ev : MclEvent), s.Reachable → s.inUser = true → s.passable arg = true →
      mclIntHashFind arg.sockfd (s.ht (sideOf arg)) = some (some ⟨ev⟩) → s.Deletes arg ev := by
  intro hall
  obtain ⟨hist, s, hrun, huser, hpass, hfind, hdel⟩ := selectMachine.exists_of_run unreportedOps (fun r =>
    r.2.inUser = true ∧ r.2.passable (readEvent 5 4) = true ∧
      mclIntHashFind 4 (r.2.ht .inEvs) = some (some ⟨readEvent 2 4⟩) ∧
      (r.2.exec (.del (readEvent 5 4))).map (fun r => mclIntHashFind 4 (r.2.ht .inEvs)) =
        some (some (some ⟨readEvent 2 4⟩))) (by decide +kernel)
  obtain ⟨shown, s', he, hgone, -⟩ := hall s (readEvent 5 4) (readEvent 2 4) ⟨_, _, hrun⟩ huser hpass hfind
  rw [he] at hdel
  have hstill : mclIntHashFind 4 (s'.ht .inEvs) = some (some ⟨readEvent 2 4⟩) := Option.some.inj hdel
  have hnone : mclIntHashFind 4 (s'.ht .inEvs) = some none := hgone
  rw [hstill] at hnone
  exact absurd hnone (by simp)

theorem select_del_iff_reported :
    ∃ s : SelectState, s.Reachable ∧ s.Deletes (readEvent 5 3) (readEvent 1 3) := by
  obtain ⟨hist, s, hrun, huser, hpass, hset, hfind⟩ := selectMachine.exists_of_run unreportedOps (fun r =>
    r.2.inUser = true ∧ r.2.passable (readEvent 5 3) = true ∧ fdIsset 3 (r.2.fds .inEvs) = true ∧
      mclIntHashFind 3 (r.2.ht .inEvs) = some (some ⟨readEvent 1 3⟩)) (by decide +kernel)
  exact ⟨s, ⟨_, _, hrun⟩, (select_del_iff ⟨_, _, hrun⟩ huser hpass hfind).mpr
    ⟨by decide, hset, by decide⟩⟩

/-! Before the first poll every descriptor in a table is in its set. -/

def Armed (s : SelectState) : Prop :=
  ∀ side fd, (s.ht side).stored (.int fd) ≠ none → fd ∈ s.fds side

theorem Armed.calls (ha : s.Armed) (h : s.Sound) {c : Change} (hc : Calls s t c) : t.Armed := by
  intro x fd hstored
  have ht := h.tables x
  cases h.effectAt hc.effect x with
  | keeps _ hkept hb _ =>
    rw [stored_same hb] at hstored
    exact hkept fd (ha x fd hstored) hstored
  | @adds i q ev _ hfds hb _ hi hroom hkey _ _ =>
    rw [storedInt_put hb hkey hi hroom] at hstored
    rw [hfds]
    by_cases hfd : fd = ev.sockfd
    · exact Finset.mem_insert.mpr (.inl hfd)
    · rw [if_neg hfd] at hstored
      exact Finset.mem_insert_of_mem (ha x fd hstored)
  | @removes i p ev _ _ hkept hb _ hp hval _ =>
    rw [storedInt_remove ht.wf hb hp (ht.of_val hp hval).1] at hstored
    by_cases hfd : fd = ev.sockfd
    · exact absurd (if_pos hfd) hstored
    · rw [if_neg hfd] at hstored
      exact hkept fd (ha x fd hstored) hfd

/-- `init_fds` arms what is in the tables, and a loop that ends leaves the sets as they are. -/
theorem Armed.loopHead (ha : s.Armed) (h : s.Sound) :
    s.loopHead.2.Armed ∧ (s.loopHead.2.place = .main ∨ s.loopHead.2.place = .poll) := by
  unfold SelectState.loopHead
  split
  · exact ⟨ha, .inl rfl⟩
  · obtain ⟨s₁, hinit, hset⟩ := h.initAll_spec
    simp only [hinit]
    refine ⟨fun side fd hstored => (hset side fd).mpr ?_, .inr trivial⟩
    rwa [← (initAll_ht hinit).1]

/-- Nothing has been polled yet. -/
structure Unpolled (s : SelectState) : Prop where
  sound : s.Sound
  armed : s.Armed
  place : s.place = .main ∨ s.place = .poll ∨ ∃ f, s.place = .fault f

theorem unpolled_init : init.Unpolled := by
  refine ⟨sound_init, fun side fd hstored => absurd ?_ hstored, .inl rfl⟩
  rw [Option.eq_none_iff_forall_ne_some]
  intro p hp
  obtain ⟨⟨i, hi⟩, -⟩ := (tableSound_init side).stored_iff.mp hp
  exact absurd hi List.not_mem_nil

theorem Unpolled.loopStep (hs : s.Unpolled) {l : SelectStep} {r : Shown × SelectState}
    (hstep : LoopStep s l r) (hpoll : ∀ r left, l ≠ .polled r left) :
    r.2.Armed ∧ (r.2.place = .main ∨ r.2.place = .poll ∨ ∃ f, r.2.place = .fault f) := by
  have hplace := hs.place
  cases hstep with
  | loop tval hmain =>
    obtain ⟨harmed, hplace'⟩ := Armed.loopHead
      (s := { s with tval := tval.getD s.tval, timed := tval.isSome }) hs.armed
      (hs.sound.of_eq rfl rfl (.refl _))
    exact ⟨harmed, hplace'.imp_right .inl⟩
  | called hcalled => simp [hcalled] at hplace
  | cleaned hcleaned => simp [hcleaned] at hplace
  | polled r left => exact absurd rfl (hpoll r left)
  | handle hscan => simp [hscan] at hplace

theorem Unpolled.exec (hs : s.Unpolled) {l : SelectStep} {r : Shown × SelectState}
    (he : s.exec l = some r) (hpoll : ∀ r left, l ≠ .polled r left) : r.2.Unpolled := by
  have hsound := hs.sound.exec he
  rcases hs.sound.exec_cases he with ⟨s', c, hcalls, -, hyields⟩ | hstep
  · have harmed := hs.armed.calls hs.sound hcalls
    rcases hyields with hyields | hyields
    · rw [hyields] at hsound ⊢
      exact ⟨hsound, harmed, hcalls.place ▸ hs.place⟩
    · rw [hyields] at hsound ⊢
      exact ⟨hsound, harmed, .inr (.inr ⟨_, rfl⟩)⟩
  · obtain ⟨harmed, hplace⟩ := hs.loopStep hstep hpoll
    exact ⟨hsound, harmed, hplace⟩

end SelectState
end Mcl
