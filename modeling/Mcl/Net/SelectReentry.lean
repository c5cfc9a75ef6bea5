import Mcl.Net.SelectDelete
import Mcl.Net.SelectScan

/-! What a callback must leave alone: adding an event that the round would still come by, and
deleting the one that the round is on. -/
namespace Mcl
open Mcl.Library Mcl.Hash

namespace SelectState

/-- The table takes the event, and the round has still to come by its bucket and finds a handler
there. -/
def Early (s : SelectState) (ev : MclEvent) : Prop :=
  ∃ side i, getEvset ev = some side ∧ ev.sockfd.slt 0 = false ∧ bucketOf (.int ev.sockfd) = some i ∧
    Room false (.int ev.sockfd) ((s.ht side).bucket i) ∧ s.ahead side i = true ∧
    handler side ev ≠ none

/-- The delete takes out the pair that the iterator of the round is on. -/
def Handling (s : SelectState) (arg : MclEvent) : Prop :=
  ∃ side, getEvset arg = some side ∧ s.HoldsOn side arg.sockfd ∧ arg.sockfd ∈ s.fds side

/-- A step that is no such add. -/
def AddsInTime (s : SelectState) : SelectStep → Prop
  | .add ev => ¬ s.Early ev
  | _ => True

/-- A step that is no such delete. -/
def LeavesHandled (s : SelectState) : SelectStep → Prop
  | .del arg => ¬ s.Handling arg
  | _ => True

variable {reports dangles : Prop} {s s' : SelectState} {side : Side} {c : Change} {l : SelectStep}

theorem Calls.addsBehind (hc : Calls s s' c) (hby : c.By s l) (hok : s.AddsInTime l) :
    s.AddsBehind c := by
  rintro side ev i rfl hi hahead
  by_contra hcb
  cases l with
  | add ev' =>
    obtain ⟨rfl, hside⟩ := hby
    cases hc.effect with
    | adds hevs hb hputs hi' hroom hkey hval hside' hnneg hfresh hgone =>
      obtain rfl := Option.some.inj (hi.symm.trans hi')
      exact hok ⟨side, i, hside, hnneg, hi, hroom, hahead, hcb⟩
  | del arg => exact hby
  | loopexit => exact hby
  | loop tval => exact hby
  | ret => exact hby
  | polled r left => exact hby
  | handle => exact hby

theorem Change.By.spares (hby : c.By s l) (hok : s.LeavesHandled l) : s.Spares c := by
  rintro side ev rfl hholds
  cases l with
  | del arg =>
    obtain ⟨hside, hfd, hset⟩ := hby
    exact hok ⟨side, hside, hfd ▸ hholds, hset⟩
  | add ev' => exact hby
  | loopexit => exact hby
  | loop tval => exact hby
  | ret => exact hby
  | polled r left => exact hby
  | handle => exact hby

theorem Sound.round_exec (h : s.Sound) (hround : s.Round reports dangles)
    {r : Shown × SelectState} (he : s.exec l = some r)
    (hadds : reports → s.AddsInTime l) (hdels : ¬ dangles → s.LeavesHandled l) : r.2.Round reports dangles := by
  rcases h.exec_cases he with ⟨s', c, hcalls, hby, hyields⟩ | hs
  · have hround' := hround.calls hcalls h (fun hreports => hcalls.addsBehind hby (hadds hreports))
      fun hd => hby.spares (hdels hd)
    exact hround'.yields hyields
  · exact h.round_loopStep hround hs

theorem round_of_reach {ok : SelectState → SelectStep → Prop} {hist : List (SelectStep × Shown)}
    (hadds : reports → ∀ s l, ok s l → s.AddsInTime l) (hdels : ¬ dangles → ∀ s l, ok s l → s.LeavesHandled l)
    (hr : selectMachine.Reach ok hist s) : s.Sound ∧ s.Round reports dangles := by
  refine hr.invariant (P := fun s => s.Sound ∧ s.Round reports dangles) ⟨sound_init, trivial⟩ ?_
  rintro s l shown s' ⟨h, hround⟩ hok he
  exact ⟨h.exec he, h.round_exec hround he (fun hreports => hadds hreports s l hok) fun hd => hdels hd s l hok⟩

/-- When no callback adds an event too early, the callbacks that run are those of reported
descriptors, and of events that the poll has seen. -/
theorem select_callback_reported {hist : List (SelectStep × Shown)}
    (hr : selectMachine.Reach AddsInTime hist s) {it : HashIter SltHtNode} {sockfd : BitVec 32}
    {ev : MclEvent} (hplace : s.place = .callback side it sockfd ev) : sockfd ∈ s.reported side ∧ ev ∉ s.added := by
  have hround : s.Round True True :=
    (round_of_reach (fun _ _ _ hok => hok) (fun hd => absurd trivial hd) hr).2
  unfold Round at hround
  rw [hplace] at hround
  exact hround.2.1 trivial

/-- The callback of one descriptor adds another, in a bucket that the round has still to come by. -/
def earlyOps : List SelectStep :=
  [.add (readEvent 1 3), .loop none, .polled (readable {3}) ⟨0, 0⟩, .handle, .add (readEvent 2 4),
    .ret, .handle]

theorem select_callback_early :
    ¬ ∀ s : SelectState, s.Reachable → ∀ (side : Side) (it : HashIter SltHtNode) (sockfd : BitVec 32)
      (ev : MclEvent), s.place = .callback side it sockfd ev →
        sockfd ∈ s.reported side ∧ ev ∉ s.added := by
  intro hall
  obtain ⟨hist, s, hrun, htest⟩ := selectMachine.exists_of_run earlyOps (fun r =>
    (match r.2.place with
    | .callback side _ sockfd _ => !fdIsset sockfd (r.2.reported side)
    | _ => false) = true) (by decide +kernel)
  split at htest
  · next side it sockfd ev hplace =>
    have hset : fdIsset sockfd (s.reported side) = true :=
      decide_eq_true (hall s ⟨_, _, hrun⟩ side it sockfd ev hplace).1
    rw [hset] at htest
    exact absurd htest (by decide)
  · exact absurd htest (by decide)

/-- A user that keeps off the buckets still to come, and off the descriptor that is handled. -/
def careful (s : SelectState) : SelectStep → Bool
  | .add ev =>
    match getEvset ev, bucketOf (.int ev.sockfd) with
    | some side, some i => !s.ahead side i
    | _, _ => true
  | .del arg =>
    match s.place with
    | .callback _ _ sockfd _ => sockfd != arg.sockfd
    | .main => true
    | _ => false
  | _ => true

theorem addsInTime_of_careful (h : s.careful l = true) : s.AddsInTime l := by
  cases l with
  | add ev =>
    rintro ⟨side, i, hside, -, hi, -, hahead, -⟩
    simp [careful, hside, hi, hahead] at h
  | _ => trivial

theorem leavesHandled_of_careful (h : s.careful l = true) : s.LeavesHandled l := by
  cases l with
  | del arg =>
    rintro ⟨side, -, hholds, -⟩
    unfold HoldsOn at hholds
    unfold careful at h
    cases hplace : s.place with
    | callback pass it sockfd ev =>
      rw [hplace] at h hholds
      exact bne_iff_ne.mp h hholds.2
    | scan pass it => simp [hplace] at h
    | cleanup pass it sockfd node => simp [hplace] at h
    | main => simp [hplace] at hholds
    | poll => simp [hplace] at hholds
    | fault f => simp [hplace] at hholds
  | _ => trivial

/-- The callback of one of two reported descriptors adds a third and deletes the other. -/
def carefulOps : List SelectStep :=
  [.add (readEvent 1 5), .add (readEvent 2 7), .loop none, .polled (readable {5, 7}) ⟨0, 0⟩, .handle,
    .add (readEvent 3 3), .del (readEvent 4 7)]

theorem careful_run : ∃ hist s, selectMachine.Reach (fun s l => s.careful l = true) hist s ∧
    s.freed = [readEvent 2 7] ∧ ∃ it, s.place = .callback .inEvs it 5 (readEvent 1 5) := by
  obtain ⟨hist, s, hr, hfreed, hplace⟩ := selectMachine.exists_of_restrict careful carefulOps (fun r =>
    r.2.freed = [readEvent 2 7] ∧
      (match r.2.place with
      | .callback side _ sockfd ev => side = .inEvs && sockfd = 5 && ev = readEvent 1 5
      | _ => false) = true) (by decide +kernel)
  refine ⟨hist, s, hr, hfreed, ?_⟩
  split at hplace
  · next side it sockfd ev hcallback =>
    simp only [Bool.and_eq_true, decide_eq_true_eq] at hplace
    obtain ⟨⟨rfl, rfl⟩, rfl⟩ := hplace
    exact ⟨it, hcallback⟩
  · exact absurd hplace (by decide)

theorem select_callback_reported_careful :
    ∃ (s : SelectState) (it : HashIter SltHtNode), s.place = .callback .inEvs it 5 (readEvent 1 5) ∧
      5 ∈ s.reported .inEvs ∧ readEvent 1 5 ∉ s.added := by
  obtain ⟨hist, s, hr, -, it, hplace⟩ := careful_run
  exact ⟨s, it, hplace, select_callback_reported (hr.mono fun _ _ => addsInTime_of_careful) hplace⟩

/-- When no callback deletes what the round holds on to. The fault that remains is one of
`event_add_or_del`. -/
theorem select_reentrant {hist : List (SelectStep × Shown)}
    (hr : selectMachine.Reach LeavesHandled hist s) :
    (∀ f, s.place = .fault f → f = .eventAddOrDel) ∧ (s.freed.map (·.addr)).Nodup := by
  have hinv : s.Sound ∧ s.Round False False :=
    round_of_reach (fun hreports => hreports.elim) (fun _ _ _ hok => hok) hr
  constructor
  · intro f hplace
    have hround := hinv.2
    unfold Round at hround
    rw [hplace] at hround
    exact hround.resolve_left id
  · have hnd := hinv.1.owned
    rw [gone, ← List.append_assoc, List.map_append] at hnd
    exact (List.nodup_append.mp hnd).2.1

/-- A callback deletes its own event. -/
def handlingOps : List SelectStep :=
  [.add (readEvent 1 3), .loop none, .polled (readable {3}) ⟨0, 0⟩, .handle, .del (readEvent 2 3), .ret]

theorem select_reentrant_handling :
    ¬ ∀ s : SelectState, s.Reachable →
      (∀ f, s.place = .fault f → f = .eventAddOrDel) ∧ (s.freed.map (·.addr)).Nodup := by
  intro hall
  obtain ⟨hist, s, hrun, hplace⟩ := selectMachine.exists_of_run handlingOps
    (fun r => r.2.place = .fault .handleEvents) (by decide +kernel)
  exact absurd ((hall s ⟨_, _, hrun⟩).1 _ hplace) (by decide)

theorem select_reentrant_careful :
    ∃ s : SelectState, s.freed = [readEvent 2 7] ∧
      (∀ f, s.place = .fault f → f = .eventAddOrDel) ∧ (s.freed.map (·.addr)).Nodup := by
  obtain ⟨hist, s, hr, hfreed, -⟩ := careful_run
  exact ⟨s, hfreed, select_reentrant (hr.mono fun _ _ => leavesHandled_of_careful)⟩

end SelectState
end Mcl
