import Mcl.Net.SelectMoves

/-! What `select` is called with. -/
namespace Mcl
open Mcl.Library Mcl.Hash

namespace SelectState

/-- The descriptors that are keys of a table. -/
def keys (s : SelectState) (side : Side) : List HashKey := (s.ht side).pairs.map (·.key)

/-- `select` is called with what the tables hold. -/
def Polls (s : SelectState) : Prop :=
  ∀ side fd, (fd ∈ s.fds side ↔ .int fd ∈ s.keys side) ∧
    (fd ∈ s.fds side → fd.slt (s.db.nMaxfdn + 1) = true)

/-- Descriptors are below `FD_SETSIZE`. -/
def InSetsize (setsize : BitVec 32) : SelectState → SelectStep → Prop
  | _, .add ev => ev.sockfd.slt setsize = true
  | _, .del arg => arg.sockfd.slt setsize = true
  | _, _ => True

instance (setsize : BitVec 32) (s : SelectState) (l : SelectStep) : Decidable (s.InSetsize setsize l) := by
  cases l with
  | add ev => exact inferInstanceAs (Decidable (ev.sockfd.slt setsize = true))
  | del arg => exact inferInstanceAs (Decidable (arg.sockfd.slt setsize = true))
  | _ => exact .isTrue trivial

variable {s s' : SelectState} {side : Side} {it : HashIter SltHtNode} {sockfd fd : BitVec 32}
  {ev : MclEvent} {l : SelectStep} {r : Shown × SelectState}

theorem Sound.mem_keys (h : s.Sound) :
    .int fd ∈ s.keys side ↔ (s.ht side).stored (.int fd) ≠ none := by
  rw [Option.ne_none_iff_exists']
  simp only [(h.tables side).stored_iff, keys, List.mem_map, (h.tables side).wf.mem_pairs]

/-- The key of a table is the descriptor of one of its events. -/
theorem Sound.exists_of_mem_keys (h : s.Sound) (hfd : .int fd ∈ s.keys side) :
    ∃ ev ∈ s.storedEvents, ev.sockfd = fd := by
  obtain ⟨p, hp, hkey⟩ := List.mem_map.mp hfd
  obtain ⟨i, hp⟩ := (h.tables side).wf.mem_pairs.mp hp
  obtain ⟨ev, hkey', hval, -, -⟩ := (h.tables side).stored i p hp
  exact ⟨ev, mem_events (h.tables side).wf hp hval, HashKey.int.inj (hkey'.symm.trans hkey)⟩

/-! The sets: `init_fds` rebuilds them right before `select`. -/

def SetsFilled (s : SelectState) : Prop := ∀ side fd, fd ∈ s.fds side ↔ .int fd ∈ s.keys side

theorem Sound.filled_loopHead (h : s.Sound) (hplace : s.loopHead.2.place = .poll) :
    s.loopHead.2.SetsFilled := by
  have hsound := h.loopHead
  unfold SelectState.loopHead at hplace hsound ⊢
  split at hplace
  · exact absurd hplace (by simp)
  · next hterm =>
    obtain ⟨s₁, hinit, hset⟩ := h.initAll_spec
    simp only [hterm, hinit, Bool.false_eq_true, if_false] at hsound ⊢
    intro side fd
    rw [hsound.mem_keys]
    have hht : s₁.ht = s.ht := (initAll_ht hinit).1
    exact (hset side fd).trans (by rw [← hht]; rfl)

/-- Where a pass over the tables comes to: it neither polls nor reads an event that a delete has freed. -/
def InPass : Place → Prop
  | .main | .poll | .fault .eventAddOrDel => False
  | _ => True

theorem InPass.ne_poll {place : Place} (h : InPass place) : place ≠ .poll := by
  rintro rfl
  exact h

theorem InPass.ne_fault {place : Place} (h : InPass place) : place ≠ .fault .eventAddOrDel := by
  rintro rfl
  exact h

theorem handleEvents_place (side : Side) : InPass (s.handleEvents side).2.place := by
  unfold SelectState.handleEvents
  split <;> trivial

theorem handleNext_place : InPass (s.handleNext side it).2.place := by
  unfold SelectState.handleNext
  split <;> trivial

theorem handleErase_place : InPass (s.handleErase side it sockfd).2.place := by
  unfold SelectState.handleErase
  split
  · trivial
  · trivial
  · dsimp only
    unfold eventHtFree
    split
    · trivial
    · split <;> trivial

theorem handleCalled_place (err : Bool) : InPass (s.handleCalled side it sockfd ev err).2.place := by
  unfold SelectState.handleCalled
  split
  · trivial
  · split
    · exact handleErase_place
    · exact handleNext_place

/-- The pass of a side ends with that of the next, or with the head of the loop. -/
theorem handleOne_place (side : Side) (it : HashIter SltHtNode) (s : SelectState) :
    InPass (s.handleOne side it).2.place ∨ s.handleOne side it = s.loopHead := by
  unfold SelectState.handleOne
  split
  · cases side with
    | inEvs => exact .inl (handleEvents_place _)
    | outEvs => exact .inl (handleEvents_place _)
    | expEvs => exact .inr rfl
  · left
    split
    · trivial
    · split
      · split
        · dsimp only
          split
          · trivial
          · split
            · trivial
            · exact handleCalled_place false
        · exact handleNext_place
      · trivial

theorem Sound.filled_handleOne (h : s.Sound) (hplace : (s.handleOne side it).2.place = .poll) :
    (s.handleOne side it).2.SetsFilled := by
  rcases handleOne_place side it s with hpass | hhead
  · exact absurd hplace hpass.ne_poll
  · rw [hhead] at hplace ⊢
    exact h.filled_loopHead hplace

theorem Sound.filled_exec (h : s.Sound) (he : s.exec l = some r) (hplace : r.2.place = .poll) :
    r.2.SetsFilled := by
  rcases exec_inv he with hs | hs
  · obtain ⟨s', c, hcalls, -, hyields⟩ := h.user_calls hs
    rcases hyields with hyields | hyields
    · rw [hyields, hcalls.place] at hplace
      have huser := hs.inUser
      simp [inUser, hplace] at huser
    · rw [hyields] at hplace
      simp [fault] at hplace
  · cases hs with
    | loop tval hmain =>
      exact (h.of_eq (t := { s with tval := tval.getD s.tval, timed := tval.isSome })
        rfl rfl (.refl _)).filled_loopHead hplace
    | called => exact absurd hplace (handleCalled_place _).ne_poll
    | cleaned => simp [SelectState.handleErased] at hplace
    | polled r left =>
      have htval : (if s.timed then { s with tval := left } else s).Sound := by
        split
        · exact h.of_eq rfl rfl (.refl _)
        · exact h
      unfold SelectState.polled at hplace ⊢
      cases r with
      | ready sets => exact absurd hplace (handleEvents_place _).ne_poll
      | timeout => exact (htval.of_eq (t := setFds (fun _ => ∅) _) rfl rfl (.refl _)).filled_loopHead hplace
      | error => simp at hplace
    | handle => exact h.filled_handleOne hplace

/-! `n_maxfdn` is never below a registered descriptor. -/

structure Bounded (s : SelectState) : Prop where
  nonneg : 0 ≤ s.db.nMaxfdn.toInt
  small : s.db.nMaxfdn.toInt < 2 ^ 31 - 1
  stored : ∀ ev ∈ s.storedEvents, ev.sockfd.toInt ≤ s.db.nMaxfdn.toInt

theorem Bounded.raise (hb : s.Bounded) {setsize : BitVec 32} (hsmall : ev.sockfd.slt setsize = true) :
    s.db.nMaxfdn.toInt ≤ (raised ev s.db.nMaxfdn).toInt ∧ (raised ev s.db.nMaxfdn).toInt < 2 ^ 31 - 1 ∧
      ev.sockfd.toInt ≤ (raised ev s.db.nMaxfdn).toInt := by
  have hnonneg := hb.nonneg
  have hmax := hb.small
  have hset : setsize.toInt < 2 ^ 31 := by
    have := BitVec.toInt_lt (x := setsize)
    simpa using this
  rw [BitVec.slt_iff_toInt_lt] at hsmall
  unfold raised
  split
  · next hzero =>
    have hfd : ev.sockfd.toInt = 0 := by rw [hzero]; rfl
    exact ⟨le_refl _, hmax, hfd ▸ hnonneg⟩
  · split
    · next hlt =>
      rw [BitVec.slt_iff_toInt_lt] at hlt
      exact ⟨hlt.le, by omega, le_refl _⟩
    · next hge =>
      rw [BitVec.slt_iff_toInt_lt] at hge
      exact ⟨le_refl _, hmax, by omega⟩

theorem Bounded.keep (hb : s.Bounded) (hmax : s'.db.nMaxfdn = s.db.nMaxfdn)
    (hstored : ∀ ev ∈ s'.storedEvents, ev ∈ s.storedEvents) : s'.Bounded := by
  constructor
  · rw [hmax]
    exact hb.nonneg
  · rw [hmax]
    exact hb.small
  · intro ev hev
    rw [hmax]
    exact hb.stored ev (hstored ev hev)

/-- The only place where `n_maxfdn` is raised is enough. -/
theorem Bounded.exec (hb : s.Bounded) (h : s.Sound) (hround : s.Round False True)
    {setsize : BitVec 32} (hok : s.InSetsize setsize l) (he : s.exec l = some r) : r.2.Bounded := by
  by_cases hadd : ∃ ev, l = .add ev
  · obtain ⟨ev, rfl⟩ := hadd
    obtain ⟨hpass, hrel, rfl⟩ := exec_add he
    obtain ⟨ret, s', c, heq, hcalls, hc⟩ := h.add_calls hpass hrel
    have hmoves := h.effect_moves hcalls.effect
    rw [heq]
    rcases hc with ⟨rfl, -, hmax⟩ | ⟨side, -, rfl, -, hmax⟩
    · exact hb.keep hmax fun e he => hmoves.stored_keeps.mem_iff.mp he
    · obtain ⟨hle, hsmall, hev⟩ := hb.raise hok
      refine ⟨?_, ?_, ?_⟩
      · rw [hmax]
        exact hb.nonneg.trans hle
      · rw [hmax]
        exact hsmall
      · intro e he
        rw [hmax]
        rcases List.mem_cons.mp (hmoves.stored_adds.mem_iff.mp he) with rfl | he
        · exact hev
        · exact (hb.stored e he).trans hle
  · push Not at hadd
    apply hb.keep (h.exec_max hround he hadd)
    exact fun ev hev => (h.exec_stored hround he hev).resolve_right (hadd ev)

theorem bounded_init : init.Bounded := by
  refine ⟨by decide, by decide, ?_⟩
  intro ev hev
  have hnone : init.storedEvents = [] := by decide +kernel
  rw [hnone] at hev
  exact absurd hev List.not_mem_nil

theorem bounded_of_reach {setsize : BitVec 32} {hist : List (SelectStep × Shown)}
    (hr : selectMachine.Reach (InSetsize setsize) hist s) : s.Bounded := by
  induction hr with
  | init => exact bounded_init
  | step hr hok he ih =>
    have hround : _ ∧ Round False True _ :=
      round_of_reach (fun hreports => hreports.elim) (fun hd => absurd trivial hd) hr
    obtain ⟨hsound, hround⟩ := hround
    exact ih.exec hsound hround hok he

/-- In every run, whatever the callbacks do. -/
theorem select_polls_registered {setsize : BitVec 32} {hist : List (SelectStep × Shown)}
    (hr : selectMachine.Reach (InSetsize setsize) hist s) (hplace : s.place = .poll) : s.Polls := by
  have hbounded := bounded_of_reach hr
  have hfilled : s.SetsFilled := by
    cases hr with
    | init => exact absurd hplace (by decide)
    | step hr hok he => exact (sound_of_reach hr).filled_exec he hplace
  intro side fd
  refine ⟨hfilled side fd, fun hfd => ?_⟩
  obtain ⟨ev, hev, rfl⟩ := (sound_of_reach hr).exists_of_mem_keys ((hfilled side fd).mp hfd)
  have hle := hbounded.stored ev hev
  have hnonneg := hbounded.nonneg
  have hsmall := hbounded.small
  rw [BitVec.slt_iff_toInt_lt, BitVec.toInt_add]
  have hone : (1 : BitVec 32).toInt = 1 := by decide
  rw [hone, Int.bmod_eq_of_le (by omega) (by omega)]
  omega

theorem select_polls_registered_two :
    ∃ s : SelectState, s.place = .poll ∧ 7 ∈ s.fds .inEvs ∧ s.Polls := by
  obtain ⟨hist, s, hr, hplace, hset⟩ := selectMachine.exists_of_restrict
    (fun s l => decide (s.InSetsize 1024 l)) [.add (readEvent 1 3), .add (readEvent 2 7), .loop none]
    (fun r => r.2.place = .poll ∧ 7 ∈ r.2.fds .inEvs) (by decide +kernel)
  have hr' := hr.mono fun s l hok => of_decide_eq_true hok
  exact ⟨s, hplace, hset, select_polls_registered hr' hplace⟩

/-! `exp_evs`: "All event added in will be added to exception evset". -/

def WatchesExceptions (s : SelectState) : Prop :=
  ∀ fd, .int fd ∈ s.keys .inEvs ∨ .int fd ∈ s.keys .outEvs → .int fd ∈ s.keys .expEvs

/-- Every read or write event has a bit of `MCL_EV_EXP`, which is the test for not adding it. -/
theorem Sound.keys_exp (h : s.Sound) : s.keys .expEvs = [] := by
  have hpairs : (s.ht .expEvs).pairs = [] := by
    rw [List.eq_nil_iff_forall_not_mem]
    intro p hp
    obtain ⟨ev, -, -, hside, -⟩ := (h.tables .expEvs).of_mem_pairs hp
    exact ne_expEvs_of_getEvset hside rfl
  rw [keys, hpairs]
  rfl

theorem select_exceptions_iff (hs : s.Reachable) :
    s.WatchesExceptions ↔ s.keys .inEvs = [] ∧ s.keys .outEvs = [] := by
  have h := hs.sound
  have hint : ∀ side, ∀ k ∈ s.keys side, ∃ fd, k = .int fd := by
    intro side k hk
    obtain ⟨p, hp, rfl⟩ := List.mem_map.mp hk
    obtain ⟨ev, hkey, -⟩ := (h.tables side).of_mem_pairs hp
    exact ⟨_, hkey⟩
  unfold WatchesExceptions
  rw [h.keys_exp]
  constructor
  · intro hwatch
    constructor
    · rw [List.eq_nil_iff_forall_not_mem]
      intro k hk
      obtain ⟨fd, rfl⟩ := hint .inEvs k hk
      exact absurd (hwatch fd (.inl hk)) List.not_mem_nil
    · rw [List.eq_nil_iff_forall_not_mem]
      intro k hk
      obtain ⟨fd, rfl⟩ := hint .outEvs k hk
      exact absurd (hwatch fd (.inr hk)) List.not_mem_nil
  · rintro ⟨hin, hout⟩ fd (hfd | hfd)
    · rwa [hin] at hfd
    · rwa [hout] at hfd

theorem select_exceptions_missing : ¬ ∀ s : SelectState, s.Reachable → s.WatchesExceptions := by
  intro hall
  obtain ⟨hist, s, hrun, hin, hexp⟩ := selectMachine.exists_of_run [.add (readEvent 1 3)]
    (fun r => r.2.keys .inEvs = [.int 3] ∧ r.2.keys .expEvs = []) (by decide +kernel)
  have hwatch := hall s ⟨_, _, hrun⟩ 3 (.inl (by rw [hin]; exact List.mem_singleton_self _))
  rw [hexp] at hwatch
  exact absurd hwatch List.not_mem_nil

/-- While an event is registered, and after it has been deleted again. -/
theorem select_exceptions_iff_deleted :
    (∃ s : SelectState, s.Reachable ∧ s.storedEvents = [readEvent 1 3] ∧ ¬ s.WatchesExceptions) ∧
      ∃ s : SelectState, s.Reachable ∧ s.freed = [readEvent 1 3] ∧ s.WatchesExceptions := by
  constructor
  · obtain ⟨hist, s, hrun, hstored, hin⟩ := selectMachine.exists_of_run [.add (readEvent 1 3)]
      (fun r => r.2.storedEvents = [readEvent 1 3] ∧ r.2.keys .inEvs = [.int 3]) (by decide +kernel)
    refine ⟨s, ⟨_, _, hrun⟩, hstored, fun hwatch => ?_⟩
    have hnone := ((select_exceptions_iff ⟨_, _, hrun⟩).mp hwatch).1
    rw [hin] at hnone
    exact absurd hnone (by simp)
  · obtain ⟨hist, s, hrun, hfreed, hkeys⟩ := selectMachine.exists_of_run
      [.add (readEvent 1 3), .del (readEvent 2 3)] (fun r => r.2.freed = [readEvent 1 3] ∧
        r.2.keys .inEvs = [] ∧ r.2.keys .outEvs = []) (by decide +kernel)
    exact ⟨s, ⟨_, _, hrun⟩, hfreed, (select_exceptions_iff ⟨_, _, hrun⟩).mpr hkeys⟩

end SelectState
end Mcl
