import Mcl.Net.SelectAdd
import Mcl.Net.SelectPoll

/-! The descriptors that the backend hands to `FD_SET`, `FD_CLR` and `FD_ISSET`, step by step. -/
namespace Mcl
open Mcl.Library Mcl.Hash

/-- `FD_SETSIZE` of the platform. -/
def fdSetsize : ℤ := 1024

/-- A `fd_set` has a bit for the descriptor. -/
def InFdSet (fd : BitVec 32) : Prop := 0 ≤ fd.toInt ∧ fd.toInt < fdSetsize

instance (fd : BitVec 32) : Decidable (InFdSet fd) := inferInstanceAs (Decidable (_ ∧ _))

/-- `FD_SET` in `add_event`. -/
def addEventFds (ev : MclEvent) (side : Side) (db : SltEvdb) : List (BitVec 32) :=
  if ev.sockfd.slt 0 then []
  else
    match mclIntHashInsertSafe ev.sockfd (some ⟨ev⟩) (db.evs side).ht with
    | none => []
    | some (htRet, _, _) => if htRet = 0 then [] else [ev.sockfd]

/-- `FD_ISSET` and `FD_CLR` in `del_event`. -/
def delEventFds (ev : MclEvent) (side : Side) (db : SltEvdb) : List (BitVec 32) :=
  if ev.sockfd.slt 0 then []
  else if !fdIsset ev.sockfd (db.evs side).fds then [ev.sockfd]
  else [ev.sockfd, ev.sockfd]

def selectAddFds (ev : MclEvent) (db : SltEvdb) : List (BitVec 32) :=
  match getEvset ev with
  | none => []
  | some side =>
    addEventFds ev side db ++
      match addEvent ev side db with
      | none => []
      | some (ret, db) => if ret ≠ 0 ∧ ev.evType &&& mclEvExp = 0 then addEventFds ev .expEvs db else []

/-- `FD_SET` in `init_fds`. -/
def initFdsFds (evset : EvSet) : List (BitVec 32) :=
  ((foreachKeys evset.ht).getD []).filterMap fun
    | some (.int sockfd) => some sockfd
    | _ => none

namespace SelectState

/-- `event_add_or_del` after `del_event` has returned. -/
def delRestFds (arg : MclEvent) (s : SelectState) : List (BitVec 32) :=
  if s.isFreed arg then []
  else if arg.evType &&& mclEvExp = 0 then delEventFds arg .expEvs s.db
  else []

def delFds (arg : MclEvent) (s : SelectState) : List (BitVec 32) :=
  match getEvset arg with
  | none => []
  | some side =>
    delEventFds arg side s.db ++
      match delEvent arg side s.db with
      | none => []
      | some (_, db, []) => { s with db := db }.delRestFds arg
      | some (_, db, (_, node) :: _) =>
        if s.isFreed node.ev ∨ eventHtFreeCall node ≠ none then []
        else ({ s with db := db }.free node).delRestFds arg

def delResumeFds (frame : DelFrame) (s : SelectState) : List (BitVec 32) :=
  if frame.inExp then [] else (s.free frame.node).delRestFds frame.arg

def loopHeadFds (s : SelectState) : List (BitVec 32) :=
  if s.termFlag then [] else Side.all.flatMap fun side => initFdsFds (s.db.evs side)

def handleReturnFds (side : Side) (s : SelectState) : List (BitVec 32) :=
  match side with
  | .expEvs => s.loopHeadFds
  | _ => []

/-- `FD_CLR` after the erase, unless a cleanup callback runs first. -/
def handleEraseFds (side : Side) (it : HashIter SltHtNode) (sockfd : BitVec 32) (s : SelectState) :
    List (BitVec 32) :=
  match defHashIterErase it (s.ht side) with
  | none => []
  | some (_, _, []) => [sockfd]
  | some (_, _, (_, node) :: _) =>
    if s.isFreed node.ev ∨ eventHtFreeCall node ≠ none then [] else [sockfd]

def handleCalledFds (side : Side) (it : HashIter SltHtNode) (sockfd : BitVec 32) (ev : MclEvent)
    (err : Bool) (s : SelectState) : List (BitVec 32) :=
  if s.isFreed ev then []
  else if ev.evType &&& mclEvPersist = 0 ∨ err then s.handleEraseFds side it sockfd
  else []

/-- `FD_ISSET` in `handle_events`, and what follows it. -/
def handleOneFds (side : Side) (it : HashIter SltHtNode) (s : SelectState) : List (BitVec 32) :=
  if it.isNull then s.handleReturnFds side
  else if !holds (s.ht side) it then []
  else
    match mclHashIterKey it, mclHashIterVal it with
    | some (some (.int sockfd)), some (some valptr) =>
      sockfd ::
        if fdIsset sockfd (s.fds side) ∧ s.isFreed valptr.ev = false ∧ handler side valptr.ev = none then
          s.handleCalledFds side it sockfd valptr.ev false
        else []
    | _, _ => []

/-- The arguments of the macros in a step. -/
def fdArgs (s : SelectState) : SelectStep → List (BitVec 32)
  | .add ev => selectAddFds ev s.db
  | .del arg => s.delFds arg
  | .loopexit => []
  | .loop _ => s.loopHeadFds
  | .ret =>
    match s.dels, s.place with
    | frame :: dels, _ => { s with dels := dels }.delResumeFds frame
    | [], .callback side it sockfd ev => s.handleCalledFds side it sockfd ev (side = .expEvs)
    | [], .cleanup _ _ sockfd _ => [sockfd]
    | [], _ => []
  | .polled r _ =>
    match r with
    | .timeout => s.loopHeadFds
    | _ => []
  | .handle =>
    match s.place with
    | .scan side it => s.handleOneFds side it
    | _ => []

/-- The variable `sockfd` of `handle_events` while a callback runs. -/
def heldFd (s : SelectState) : Option (BitVec 32) :=
  match s.place with
  | .callback _ _ sockfd _ | .cleanup _ _ sockfd _ => some sockfd
  | _ => none

/-- A descriptor that the backend may come back to. -/
def Known (s : SelectState) (fd : BitVec 32) : Prop :=
  s.heldFd = some fd ∨ ∃ ev ∈ s.storedEvents, ev.sockfd = fd

variable {s : SelectState} {side : Side} {it : HashIter SltHtNode} {sockfd fd : BitVec 32}
  {ev arg : MclEvent} {l : SelectStep} {r : Shown × SelectState}

/-! The steps of the loop hand over what is in the tables, or in the variable. -/

theorem Sound.known_loopHead (h : s.Sound) (hfd : fd ∈ s.loopHeadFds) : s.Known fd := by
  unfold loopHeadFds at hfd
  split at hfd
  · exact absurd hfd List.not_mem_nil
  · obtain ⟨side, -, hfd⟩ := List.mem_flatMap.mp hfd
    have hkeys : foreachKeys (s.db.evs side).ht = _ := foreachKeys_eq (h.tables side)
    rw [initFdsFds, hkeys, Option.getD_some] at hfd
    obtain ⟨key, hkey, hint⟩ := List.mem_filterMap.mp hfd
    obtain ⟨p, hp, rfl⟩ := List.mem_map.mp hkey
    apply Or.inr
    refine h.exists_of_mem_keys (List.mem_map.mpr ⟨p, hp, ?_⟩)
    cases hpkey : p.key with
    | int n =>
      rw [hpkey] at hint
      exact congrArg HashKey.int (Option.some.inj hint)
    | str str =>
      rw [hpkey] at hint
      exact absurd hint (by simp)

theorem heldFd_handleErase (hheld : (s.handleErase side it sockfd).2.heldFd = some fd) : fd = sockfd := by
  unfold handleErase at hheld
  split at hheld
  · exact absurd hheld (by simp [fault, heldFd])
  · exact absurd hheld (by simp [handleErased, heldFd])
  · dsimp only [eventHtFree] at hheld
    split at hheld
    · exact absurd hheld (by simp [fault, heldFd])
    · split at hheld
      · exact (Option.some.inj hheld).symm
      · exact absurd hheld (by simp [handleErased, heldFd])

theorem mem_handleEraseFds (hfd : fd ∈ s.handleEraseFds side it sockfd) : fd = sockfd := by
  unfold handleEraseFds at hfd
  split at hfd
  · exact absurd hfd List.not_mem_nil
  · exact List.mem_singleton.mp hfd
  · split at hfd
    · exact absurd hfd List.not_mem_nil
    · exact List.mem_singleton.mp hfd

theorem heldFd_handleNext : (s.handleNext side it).2.heldFd = none := by
  unfold handleNext
  split <;> rfl

theorem heldFd_handleCalled {err : Bool} (hheld : (s.handleCalled side it sockfd ev err).2.heldFd = some fd) :
    fd = sockfd := by
  unfold handleCalled at hheld
  split at hheld
  · exact absurd hheld (by simp [fault, heldFd])
  · split at hheld
    · exact heldFd_handleErase hheld
    · rw [heldFd_handleNext] at hheld
      exact absurd hheld (by simp)

theorem mem_handleCalledFds {err : Bool} (hfd : fd ∈ s.handleCalledFds side it sockfd ev err) : fd = sockfd := by
  unfold handleCalledFds at hfd
  split at hfd
  · exact absurd hfd List.not_mem_nil
  · split at hfd
    · exact mem_handleEraseFds hfd
    · exact absurd hfd List.not_mem_nil

theorem heldFd_loopHead : s.loopHead.2.heldFd = none := by
  unfold loopHead
  split
  · rfl
  · split <;> rfl

theorem heldFd_handleEvents : (s.handleEvents side).2.heldFd = none := by
  unfold handleEvents
  split <;> rfl

theorem heldFd_handleReturn : (s.handleReturn side).2.heldFd = none := by
  cases side with
  | inEvs => exact heldFd_handleEvents
  | outEvs => exact heldFd_handleEvents
  | expEvs => exact heldFd_loopHead

theorem Sound.known_of_mem (h : s.Sound) {i : ℕ} {p : HashPair SltHtNode} (hp : p ∈ (s.ht side).bucket i)
    (hval : p.val = some ⟨ev⟩) : s.Known ev.sockfd :=
  .inr ⟨ev, mem_events (h.tables side).wf hp hval, rfl⟩

theorem mem_handleOneFds (hnull : it.isNull = false) (hkey : mclHashIterKey it = some (some (.int sockfd)))
    (hfd : fd ∈ s.handleOneFds side it) : fd = sockfd := by
  unfold handleOneFds at hfd
  rw [hnull, if_neg Bool.false_ne_true, hkey] at hfd
  split at hfd
  · exact absurd hfd List.not_mem_nil
  · split at hfd
    · next hkey' _ =>
      obtain rfl := HashKey.int.inj (Option.some.inj (Option.some.inj hkey'))
      rcases List.mem_cons.mp hfd with rfl | hfd
      · rfl
      · split at hfd
        · exact mem_handleCalledFds hfd
        · exact absurd hfd List.not_mem_nil
    · exact absurd hfd List.not_mem_nil

theorem Sound.heldFd_handleOne (h : s.Sound) {p : HashPair SltHtNode} {ps : List (HashPair SltHtNode)}
    (ha : Ahead (s.ht side) it (p :: ps)) (hval : p.val = some ⟨ev⟩)
    (hheld : (s.handleOne side it).2.heldFd = some fd) : fd = ev.sockfd := by
  rw [h.handleOne_ahead ha hval] at hheld
  split at hheld
  · split at hheld
    · exact (Option.some.inj hheld).symm
    · exact heldFd_handleCalled hheld
  · rw [heldFd_handleNext] at hheld
    exact absurd hheld (by simp)

/-- A dangling iterator is noticed before its key is read. -/
theorem Sound.known_handleOne (h : s.Sound) (hcov : s.Covers False True side it)
    (hfd : fd ∈ s.handleOneFds side it ∨ (s.handleOne side it).2.heldFd = some fd) : s.Known fd := by
  rcases hcov with ⟨ps, ha, -⟩ | ⟨-, hdangling⟩
  · cases ps with
    | nil =>
      rw [handleOneFds, if_pos (isNull_of_ahead ha), handleOne_done ha, heldFd_handleReturn] at hfd
      have hfd := hfd.resolve_right (by simp)
      cases side with
      | inEvs => exact absurd hfd List.not_mem_nil
      | outEvs => exact absurd hfd List.not_mem_nil
      | expEvs => exact h.known_loopHead hfd
    | cons p ps =>
      obtain ⟨ev, hval⟩ := h.val_of_ahead ha
      obtain ⟨i, hp⟩ := ha.mem List.mem_cons_self
      have hcur : fd = ev.sockfd :=
        hfd.elim (mem_handleOneFds ha.head.1 (h.key_of_ahead ha hval)) (h.heldFd_handleOne ha hval)
      rw [hcur]
      exact h.known_of_mem hp hval
  · obtain ⟨hnull, hholds⟩ := holds_of_dangling hdangling
    rw [handleOne_dangling hdangling, handleOneFds, hnull, hholds] at hfd
    exact absurd hfd (by simp [fault, heldFd])

theorem heldFd_polled {r : PollResult} {left : Timeval} : (s.polled r left).2.heldFd = none := by
  unfold SelectState.polled
  cases r with
  | ready sets => exact heldFd_handleEvents
  | timeout => exact heldFd_loopHead
  | error => rfl

theorem Sound.known_loopStep (h : s.Sound) (hround : s.Round False True) (hs : LoopStep s l r)
    (hfd : fd ∈ s.fdArgs l ∨ r.2.heldFd = some fd) : s.Known fd := by
  unfold Round at hround
  cases hs with
  | loop tval hplace =>
    rcases hfd with hfd | hheld
    · exact h.known_loopHead hfd
    · exact absurd hheld (by simp [SelectState.loop, heldFd_loopHead])
  | @called side it sockfd ev hplace hdels =>
    have hsame : fd = sockfd := by
      simp only [fdArgs, hdels, hplace] at hfd
      exact hfd.elim mem_handleCalledFds heldFd_handleCalled
    exact .inl (by simp [heldFd, hplace, hsame])
  | @cleaned side it sockfd node hplace hdels =>
    rcases hfd with hfd | hheld
    · simp only [fdArgs, hdels, hplace, List.mem_singleton] at hfd
      exact .inl (by simp [heldFd, hplace, hfd])
    · exact absurd hheld (by simp [SelectState.handleErased, heldFd])
  | polled r left hplace =>
    rcases hfd with hfd | hheld
    · cases r with
      | ready sets => exact absurd hfd List.not_mem_nil
      | timeout => exact h.known_loopHead hfd
      | error => exact absurd hfd List.not_mem_nil
    · rw [heldFd_polled] at hheld
      exact absurd hheld (by simp)
  | @handle side it hplace =>
    rw [hplace] at hround
    simp only [fdArgs, hplace] at hfd
    exact h.known_handleOne hround.1 hfd

/-! The user hands over the descriptor of its argument. -/

theorem selectAddFds_eq (hside : getEvset ev = some side) (db : SltEvdb) :
    selectAddFds ev db = addEventFds ev side db := by
  have hexp := exp_of_getEvset hside
  unfold selectAddFds
  rw [hside]
  dsimp only
  cases addEvent ev side db with
  | none => exact List.append_nil _
  | some r =>
    dsimp only
    rw [if_neg fun hc => hexp hc.2, List.append_nil]

theorem Sound.mem_selectAddFds (h : s.Sound) : fd ∈ selectAddFds ev s.db ↔ s.Takes ev ∧ fd = ev.sockfd := by
  cases hside : getEvset ev with
  | none =>
    refine iff_of_false (by simp [selectAddFds, hside]) ?_
    rintro ⟨⟨side, i, hside', -⟩, -⟩
    exact absurd (hside.symm.trans hside') (by simp)
  | some side =>
    rw [selectAddFds_eq hside, addEventFds]
    cases hneg : ev.sockfd.slt 0 with
    | true =>
      refine iff_of_false (by simp) ?_
      rintro ⟨⟨side', i, -, hneg', -⟩, -⟩
      exact absurd (hneg.symm.trans hneg') (by simp)
    | false =>
      have ht := h.tables side
      have hvalid : (HashKey.int ev.sockfd).Valid := trivial
      rw [if_neg (by simp)]
      change fd ∈ (match mclIntHashInsertSafe ev.sockfd (some ⟨ev⟩) (s.ht side) with
        | none => []
        | some (htRet, _, _) => if htRet = 0 then [] else [ev.sockfd]) ↔ _
      rcases ht.wf.insertSafe_cases hvalid ht.keyType ⟨ev⟩ with
        ⟨ht', hins, hno, -, -⟩ | ⟨ht', i, q, hins, hi, hroom, -, -, -⟩
      · rw [mclIntHashInsertSafe, hins]
        refine iff_of_false (by simp) ?_
        rintro ⟨⟨side', i, hside', -, hi, hroom⟩, -⟩
        obtain rfl := Option.some.inj (hside.symm.trans hside')
        exact hno i hi hroom
      · rw [mclIntHashInsertSafe, hins]
        simp only [Int.reduceEq, if_false, List.mem_singleton]
        exact (and_iff_right ⟨side, i, hside, hneg, hi, hroom⟩).symm

theorem delRestFds_eq (hexp : arg.evType &&& mclEvExp ≠ 0) (t : SelectState) : t.delRestFds arg = [] := by
  unfold delRestFds
  rw [if_neg hexp]
  exact ite_self _

theorem mem_delEventFds {db : SltEvdb} :
    fd ∈ delEventFds arg side db ↔ arg.sockfd.slt 0 = false ∧ fd = arg.sockfd := by
  unfold delEventFds
  cases arg.sockfd.slt 0 with
  | true => simp
  | false =>
    simp only [Bool.false_eq_true, if_false, true_and]
    split <;> simp

theorem mem_delFds : fd ∈ s.delFds arg ↔ getEvset arg ≠ none ∧ arg.sockfd.slt 0 = false ∧ fd = arg.sockfd := by
  unfold delFds
  cases hside : getEvset arg with
  | none => simp
  | some side =>
    have hrest := delRestFds_eq (exp_of_getEvset hside)
    simp only [List.mem_append, mem_delEventFds, hrest, ite_self]
    split <;> simp

/-- An event that the tables would take is on a descriptor that the sets have room for, and so is
the argument of a delete unless it is negative. -/
def Fits (s : SelectState) : SelectStep → Prop
  | .add ev => s.Takes ev → InFdSet ev.sockfd
  | .del arg => getEvset arg ≠ none → arg.sockfd.slt 0 = false → InFdSet arg.sockfd
  | _ => True

/-- The macros stay in the sets, and an add refuses what they have no room for. -/
def SafeStep (s : SelectState) (l : SelectStep) : Prop :=
  (∀ fd ∈ s.fdArgs l, InFdSet fd) ∧
    ∀ ev, l = .add ev → ¬ InFdSet ev.sockfd → ∃ db, selectAdd ev s.db = some (0, db) ∧ s.db.Unchanged db

theorem Sound.fits_of_safe (h : s.Sound) (hsafe : s.SafeStep l) : s.Fits l := by
  cases l with
  | add ev => exact fun htakes => hsafe.1 ev.sockfd (h.mem_selectAddFds.mpr ⟨htakes, rfl⟩)
  | del arg => exact fun hside hneg => hsafe.1 arg.sockfd (mem_delFds.mpr ⟨hside, hneg, rfl⟩)
  | loopexit => trivial
  | loop tval => trivial
  | ret => trivial
  | polled r left => trivial
  | handle => trivial

theorem Sound.fdArgs_fit (h : s.Sound) (hround : s.Round False True) (hknown : ∀ fd, s.Known fd → InFdSet fd)
    (hfits : s.Fits l) (he : s.exec l = some r) (hfd : fd ∈ s.fdArgs l) : InFdSet fd := by
  rcases exec_inv he with hs | hs
  · cases hs with
    | add =>
      obtain ⟨htakes, rfl⟩ := h.mem_selectAddFds.mp hfd
      exact hfits htakes
    | del =>
      obtain ⟨hside, hneg, rfl⟩ := mem_delFds.mp hfd
      exact hfits hside hneg
    | loopexit => exact absurd hfd List.not_mem_nil
    | @ret frame dels huser hdels =>
      have hexp := (h.frames frame (by rw [hdels]; exact List.mem_cons_self)).exp
      simp only [fdArgs, hdels, delResumeFds, delRestFds_eq hexp, ite_self] at hfd
      exact absurd hfd List.not_mem_nil
  · exact hknown fd (h.known_loopStep hround hs (.inl hfd))

theorem Sound.safe_of_fits (h : s.Sound) (hround : s.Round False True) (hknown : ∀ fd, s.Known fd → InFdSet fd)
    (hfits : s.Fits l) (he : s.exec l = some r) : s.SafeStep l := by
  refine ⟨fun fd hfd => h.fdArgs_fit hround hknown hfits he hfd, ?_⟩
  rintro ev rfl hout
  exact h.selectAdd_refused fun htakes => hout (hfits htakes)

theorem Sound.stored_fits (h : s.Sound) (hround : s.Round False True) (hknown : ∀ fd, s.Known fd → InFdSet fd)
    (hfits : s.Fits l) (he : s.exec l = some r) (hev : ev ∈ r.2.storedEvents) : InFdSet ev.sockfd := by
  rcases h.exec_stored hround he hev with hev | rfl
  · exact hknown _ (.inr ⟨ev, hev, rfl⟩)
  · by_cases htakes : s.Takes ev
    · exact hfits htakes
    · -- a refused event is there only if it was there before
      obtain ⟨db, hadd, hsame⟩ := h.selectAdd_refused htakes
      obtain ⟨-, -, rfl⟩ := exec_add he
      simp only [SelectState.add, hadd] at hev
      have hevents : { s.handOver ev with db := db }.storedEvents = s.storedEvents :=
        List.flatMap_congr fun x _ => events_of_unchanged hsame x
      rw [hevents] at hev
      exact hknown _ (.inr ⟨ev, hev, rfl⟩)

theorem Sound.known_fits (h : s.Sound) (hround : s.Round False True) (hknown : ∀ fd, s.Known fd → InFdSet fd)
    (hfits : s.Fits l) (he : s.exec l = some r) : ∀ fd, r.2.Known fd → InFdSet fd := by
  rintro fd (hheld | ⟨ev, hev, rfl⟩)
  · rcases h.exec_cases he with ⟨s', c, hcalls, -, hyields⟩ | hs
    · have hplace : s'.heldFd = s.heldFd := by rw [heldFd, hcalls.place, heldFd]
      rcases hyields with hr | hr
      · rw [hr, hplace] at hheld
        exact hknown fd (.inl hheld)
      · rw [hr] at hheld
        exact absurd hheld (by simp [fault, heldFd])
    · exact hknown fd (h.known_loopStep hround hs (.inr hheld))
  · exact h.stored_fits hround hknown hfits he hev

theorem known_init : ∀ fd, init.Known fd → InFdSet fd := by
  rintro fd (hheld | ⟨ev, hev, -⟩)
  · exact absurd hheld (by simp [init, heldFd])
  · have hnone : init.storedEvents = [] := by decide +kernel
    rw [hnone] at hev
    exact absurd hev List.not_mem_nil

theorem known_of_reach {hist : List (SelectStep × Shown)} (hr : selectMachine.Reach Fits hist s) :
    s.Sound ∧ s.Round False True ∧ ∀ fd, s.Known fd → InFdSet fd := by
  induction hr with
  | init => exact ⟨sound_init, trivial, known_init⟩
  | step hr hok he ih =>
    obtain ⟨h, hround, hknown⟩ := ih
    have hround' : Round False True _ :=
      h.round_exec hround he (fun hreports => hreports.elim) fun hd => absurd trivial hd
    exact ⟨h.exec he, hround', h.known_fits hround hknown hok he⟩

end SelectState
end Mcl
