import Mcl.Net.SelectRuns

/-! What a round of `handle_events` still has before it while callbacks change the tables. The two
parameters say what is known of the callbacks: with `reports` they add nothing that the round
would meet unreported, and without `dangles` they delete nothing that the round holds on to. -/
namespace Mcl
open Mcl.Library Mcl.Hash

/-- The order in which a round goes through the sides. -/
def Side.rank : Side → ℕ
  | .inEvs => 0
  | .outEvs => 1
  | .expEvs => 2

/-- The side that a round is at, and its iterator. -/
def Place.pass : Place → Option (Side × HashIter SltHtNode)
  | .scan side it | .callback side it _ _ | .cleanup side it _ _ => some (side, it)
  | _ => none

namespace SelectState

/-- The round has still to come by bucket `i` of a side. -/
def ahead (s : SelectState) (side : Side) (i : ℕ) : Bool :=
  match s.place.pass with
  | some (pass, it) => pass.rank < side.rank || (pass = side && !it.isNull && it.cursor < i)
  | none => false

/-- An event that has no handler, or that was there before the poll, which has reported it, if it is
in the set at all. -/
def Reported (reports : Prop) (s : SelectState) (side : Side) (p : HashPair SltHtNode) : Prop :=
  reports → ∀ ev, p.val = some ⟨ev⟩ → handler side ev ≠ none → ev.sockfd ∈ s.fds side →
    ev.sockfd ∈ s.reported side ∧ ev ∉ s.added

/-- The iterator has only reported pairs before it, or its own pair is gone. -/
def Covers (reports dangles : Prop) (s : SelectState) (side : Side) (it : HashIter SltHtNode) : Prop :=
  (∃ ps, Ahead (s.ht side) it ps ∧ ∀ q ∈ ps, s.Reported reports side q) ∨
    (dangles ∧ Dangling (s.ht side) it)

/-- The iterator is on the event, with only reported pairs before it. -/
def On (reports : Prop) (s : SelectState) (side : Side) (it : HashIter SltHtNode) (ev : MclEvent) : Prop :=
  ∃ p ps, Ahead (s.ht side) it (p :: ps) ∧ p.val = some ⟨ev⟩ ∧ ∀ q ∈ p :: ps, s.Reported reports side q

/-- The sides after `side` hold only reported pairs. -/
def Waiting (reports : Prop) (s : SelectState) (side : Side) : Prop :=
  ∀ x : Side, side.rank < x.rank → ∀ i, ∀ q ∈ (s.ht x).bucket i, s.Reported reports x q

def Round (reports dangles : Prop) (s : SelectState) : Prop :=
  match s.place with
  | .scan side it | .cleanup side it _ _ => s.Covers reports dangles side it ∧ s.Waiting reports side
  | .callback side it sockfd ev =>
    ev.sockfd = sockfd ∧ (reports → sockfd ∈ s.reported side ∧ ev ∉ s.added) ∧
      (s.On reports side it ev ∨ dangles ∧ ev ∈ s.gone) ∧ s.Waiting reports side
  | .fault f => dangles ∨ f = .eventAddOrDel
  | _ => True

variable {reports dangles : Prop} {s s' : SelectState} {side : Side} {it : HashIter SltHtNode}
  {ev : MclEvent} {c : Change}

theorem ahead_behind (hpass : s.place.pass = some (side, it)) (i : ℕ) (hptr : it.ptr ≠ none)
    (hlt : it.cursor < i) : s.ahead side i = true := by
  have hnull : it.isNull = false := by simpa [Iter.isNull] using Option.isSome_iff_ne_none.mpr hptr
  simp [ahead, hpass, hnull, hlt]

theorem ahead_later (hpass : s.place.pass = some (side, it)) (x : Side) (hx : side.rank < x.rank) (i : ℕ) :
    s.ahead x i = true := by
  simp [ahead, hpass, hx]

/-- Two states with the same tables and sets, up to bits that are cleared. -/
theorem Reported.mono {p : HashPair SltHtNode} (h : s.Reported reports side p)
    (hfds : s'.fds side ⊆ s.fds side) (hrep : s'.reported = s.reported) (hadded : s'.added = s.added) :
    s'.Reported reports side p := by
  intro hreports ev hval hcb hset
  rw [hrep, hadded]
  exact h hreports ev hval hcb (hfds hset)

theorem Covers.mono (h : s.Covers reports dangles side it) (hht : s'.ht side = s.ht side)
    (hfds : s'.fds side ⊆ s.fds side) (hrep : s'.reported = s.reported) (hadded : s'.added = s.added) :
    s'.Covers reports dangles side it := by
  unfold Covers
  rw [hht]
  exact h.imp_left fun ⟨ps, ha, hall⟩ => ⟨ps, ha, fun q hq => (hall q hq).mono hfds hrep hadded⟩

theorem Waiting.mono (h : s.Waiting reports side) (hht : s'.ht = s.ht)
    (hfds : ∀ x, s'.fds x ⊆ s.fds x) (hrep : s'.reported = s.reported) (hadded : s'.added = s.added) :
    s'.Waiting reports side := by
  intro x hx i q hq
  rw [hht] at hq
  exact (h x hx i q hq).mono (hfds x) hrep hadded

/-- The descriptor whose pair the iterator is on. -/
def HoldsOn (s : SelectState) (side : Side) (fd : BitVec 32) : Prop :=
  match s.place with
  | .callback pass _ sockfd _ => pass = side ∧ sockfd = fd
  | .scan pass it | .cleanup pass it _ _ => pass = side ∧ mclHashIterKey it = some (some (.int fd))
  | _ => False

/-- A change adds no event with a handler where the round has still to come by. -/
def AddsBehind (s : SelectState) (c : Change) : Prop :=
  ∀ side ev i, c = .adds side ev → bucketOf (.int ev.sockfd) = some i → s.ahead side i = true →
    handler side ev = none

/-- A change leaves the round the pair that it holds on to. -/
def Spares (s : SelectState) (c : Change) : Prop :=
  ∀ side ev, c = .removes side ev → ¬ s.HoldsOn side ev.sockfd

/-! What a call does to the pairs, the sets and the iterator. -/

namespace Calls

theorem bucket (hc : Calls s s' c) (h : s.Sound) {x : Side} {i : ℕ} {q : HashPair SltHtNode}
    (hq : q ∈ (s'.ht x).bucket i) :
    q ∈ (s.ht x).bucket i ∨
      ∃ ev, c = .adds x ev ∧ q.val = some ⟨ev⟩ ∧ bucketOf (.int ev.sockfd) = some i := by
  cases h.effectAt hc.effect x with
  | keeps _ _ hb _ =>
    rw [hb.bucket] at hq
    exact .inl hq
  | @adds j q' ev hadds _ hb _ hi _ _ hval _ =>
    rw [hb.bucket] at hq
    by_cases hij : i = j
    · subst hij
      rw [Function.update_self] at hq
      rcases List.mem_cons.mp hq with rfl | hq
      · exact .inr ⟨ev, hadds, hval, hi⟩
      · exact .inl hq
    · rw [Function.update_of_ne hij] at hq
      exact .inl hq
  | @removes j p ev _ _ _ hb _ _ _ _ =>
    rw [hb.bucket] at hq
    by_cases hij : i = j
    · subst hij
      rw [Function.update_self] at hq
      exact .inl (KeySame.mem_of_mem_drop hq)
    · rw [Function.update_of_ne hij] at hq
      exact .inl hq

theorem not_added (hc : Calls s s' c) {e : MclEvent} (he : e ∈ s.storedEvents ++ s.gone)
    (hnot : e ∉ s.added) : e ∉ s'.added :=
  fun hadded => (hc.added e hadded).elim hnot fun hnew => hnew he

/-- A pair that was reported still is: the bit of another one may have been set. -/
theorem keepsReported (hc : Calls s s' c) (h : s.Sound) {x : Side} {i : ℕ} {q : HashPair SltHtNode}
    (hq : q ∈ (s.ht x).bucket i) (hrep : s.Reported reports x q) : s'.Reported reports x q := by
  have ht := h.tables x
  intro hreports ev hval hcb hset
  have hset' : ev.sockfd ∈ s.fds x := by
    cases h.effectAt hc.effect x with
    | keeps hfds _ _ _ => exact hfds hset
    | removes _ hfds _ _ _ _ _ _ => exact hfds hset
    | @adds j q' ev' _ hfds _ _ hi hroom _ _ _ =>
      rw [hfds] at hset
      refine (Finset.mem_insert.mp hset).resolve_left fun heq => ?_
      -- the table had no room for the descriptor of a pair that it holds
      have hstored := ht.stored_iff.mpr ⟨⟨i, hq⟩, (ht.of_val hq hval).1⟩
      rw [heq, stored_of_bucketOf hi] at hstored
      rw [(hroom.resolve_left (by simp)).1] at hstored
      exact absurd hstored (by simp)
  obtain ⟨hreported, hnot⟩ := hrep hreports ev hval hcb hset'
  rw [hc.reported]
  exact ⟨hreported, hc.not_added (List.mem_append_left _ (mem_events ht.wf hq hval)) hnot⟩

theorem dangling (hc : Calls s s' c) (h : s.Sound) {x : Side} (hd : Dangling (s.ht x) it) :
    Dangling (s'.ht x) it := by
  cases h.effectAt hc.effect x with
  | keeps _ _ _ hk => exact hd.keeps hk
  | adds _ _ _ hputs _ _ _ _ _ => exact hd.puts hputs
  | removes _ _ _ _ hrem _ _ _ => exact hd.removes hrem

theorem gone_subset (hc : Calls s s' c) : s.gone ⊆ s'.gone := by
  cases hc.effect with
  | keeps _ _ _ _ _ hgone => exact hgone.symm.subset
  | adds _ _ _ _ _ _ _ _ _ _ hgone => exact hgone.symm.subset
  | removes _ _ _ _ _ _ _ hgone =>
    exact fun e he => hgone.symm.subset (List.mem_cons_of_mem _ he)

/-- Either the iterator's pair goes, or it stays and the pairs behind it are old ones or a new one
in a bucket still to come. -/
theorem ahead (hc : Calls s s' c) (h : s.Sound) {x : Side} {ps : List (HashPair SltHtNode)}
    (ha : Ahead (s.ht x) it ps) :
    (∃ p ev, ps.head? = some p ∧ p.val = some ⟨ev⟩ ∧ c = .removes x ev ∧ ev ∈ s'.gone ∧
        Dangling (s'.ht x) it) ∨
      ∃ ps', Ahead (s'.ht x) it ps' ∧ ps'.head? = ps.head? ∧ ∀ q ∈ ps', q ∈ ps ∨
        ∃ ev i, c = .adds x ev ∧ q.val = some ⟨ev⟩ ∧ bucketOf (.int ev.sockfd) = some i ∧
          it.ptr ≠ none ∧ it.cursor < i := by
  cases h.effectAt hc.effect x with
  | keeps _ _ _ hk => exact .inr ⟨ps, ha.keeps hk, rfl, fun q hq => .inl hq⟩
  | @adds j q' ev hadds _ _ hputs hi _ _ hval _ =>
    obtain ⟨ps', ha', hhead, hmem, -⟩ := ha.puts hputs
    refine .inr ⟨ps', ha', hhead, fun q hq => (hmem q hq).imp_right ?_⟩
    rintro ⟨rfl, hptr, hlt⟩
    exact ⟨ev, j, hadds, hval, hi, hptr, hlt⟩
  | @removes j p ev hremoves _ _ _ hrem hp hval hgone =>
    by_cases hhead : ps.head? = some p
    · obtain ⟨ps', rfl⟩ := List.head?_eq_some_iff.mp hhead
      exact .inl ⟨p, ev, rfl, hval, hremoves, hgone, (h.tables x).wf.dangling_of_removes ha hp hrem⟩
    · obtain ⟨ps', ha', hhead', hmem, -⟩ := ha.removes hrem hhead
      exact .inr ⟨ps', ha', hhead', fun q hq => .inl (hmem q hq)⟩

end Calls

/-! A call keeps the round. -/

section Call

variable (hc : Calls s s' c) (h : s.Sound) (hadds : reports → s.AddsBehind c)

include hadds in
/-- A new pair in a bucket still to come. -/
theorem reported_new {i : ℕ} {q : HashPair SltHtNode} (hadd : c = .adds side ev)
    (hval : q.val = some ⟨ev⟩) (hi : bucketOf (.int ev.sockfd) = some i) (hahead : s.ahead side i = true) :
    s'.Reported reports side q := by
  intro hreports ev' hval' hcb _
  rw [hval] at hval'
  obtain rfl := SltHtNode.mk.inj (Option.some.inj hval')
  exact absurd (hadds hreports side ev i hadd hi hahead) hcb

include hc h hadds in
theorem Waiting.calls (hw : s.Waiting reports side) (hpass : s.place.pass = some (side, it)) :
    s'.Waiting reports side := by
  intro x hx i q hq
  rcases hc.bucket h hq with hq | ⟨ev, hadd, hval, hi⟩
  · exact hc.keepsReported h hq (hw x hx i q hq)
  · exact reported_new hadds hadd hval hi (ahead_later hpass x hx i)

include hc h hadds in
/-- The pairs that the iterator has before it after the call. -/
theorem reported_behind {ps ps' : List (HashPair SltHtNode)} (ha : Ahead (s.ht side) it ps)
    (hrep : ∀ q ∈ ps, s.Reported reports side q)
    (hmem : ∀ q ∈ ps', q ∈ ps ∨ ∃ ev i, c = .adds side ev ∧ q.val = some ⟨ev⟩ ∧
      bucketOf (.int ev.sockfd) = some i ∧ it.ptr ≠ none ∧ it.cursor < i)
    (hpass : s.place.pass = some (side, it)) : ∀ q ∈ ps', s'.Reported reports side q := by
  intro q hq
  rcases hmem q hq with hq | ⟨ev, i, hadd, hval, hi, hptr, hlt⟩
  · obtain ⟨i, hi⟩ := ha.mem hq
    exact hc.keepsReported h hi (hrep q hq)
  · exact reported_new hadds hadd hval hi (ahead_behind hpass i hptr hlt)

theorem Sound.key_of_ahead {s : SelectState} (h : s.Sound) {p : HashPair SltHtNode}
    {ps : List (HashPair SltHtNode)} (ha : Ahead (s.ht side) it (p :: ps)) (hval : p.val = some ⟨ev⟩) :
    mclHashIterKey it = some (some (.int ev.sockfd)) := by
  obtain ⟨i, -, hp⟩ := ha.bucket
  rw [mclHashIterKey, ha.head.2, ((h.tables side).of_val hp hval).1]

include hc h hadds in
theorem Covers.calls (hcov : s.Covers reports dangles side it) (hpass : s.place.pass = some (side, it))
    (hspare : ¬ dangles → ∀ ev, c = .removes side ev →
      mclHashIterKey it ≠ some (some (.int ev.sockfd))) : s'.Covers reports dangles side it := by
  rcases hcov with ⟨ps, ha, hrep⟩ | ⟨hd, hdangling⟩
  · rcases hc.ahead h ha with ⟨p, ev, hhead, hval, hrem, -, hdangling⟩ | ⟨ps', ha', -, hmem⟩
    · refine .inr ⟨?_, hdangling⟩
      by_contra hd
      obtain ⟨ps', rfl⟩ := List.head?_eq_some_iff.mp hhead
      exact hspare hd ev hrem (h.key_of_ahead ha hval)
    · exact .inl ⟨ps', ha', reported_behind hc h hadds ha hrep hmem hpass⟩
  · exact .inr ⟨hd, hc.dangling h hdangling⟩

include hc h hadds in
theorem On.calls (hon : s.On reports side it ev) (hpass : s.place.pass = some (side, it))
    (hspare : ¬ dangles → c ≠ .removes side ev) :
    s'.On reports side it ev ∨ dangles ∧ ev ∈ s'.gone := by
  obtain ⟨p, ps, ha, hval, hrep⟩ := hon
  rcases hc.ahead h ha with ⟨p', ev', hhead, hval', hrem, hgone, -⟩ | ⟨ps', ha', hhead, hmem⟩
  · obtain rfl : p = p' := Option.some.inj hhead
    obtain rfl : ev = ev' := by
      rw [hval] at hval'
      exact SltHtNode.mk.inj (Option.some.inj hval')
    refine .inr ⟨?_, hgone⟩
    by_contra hd
    exact hspare hd hrem
  · obtain ⟨ps'', rfl⟩ := List.head?_eq_some_iff.mp hhead
    exact .inl ⟨p, ps'', ha', hval, reported_behind hc h hadds ha hrep hmem hpass⟩

include hc h hadds in
theorem Round.calls (hr : s.Round reports dangles) (hspare : ¬ dangles → s.Spares c) :
    s'.Round reports dangles := by
  unfold Round at hr ⊢
  rw [hc.place]
  cases hplace : s.place with
  | main => trivial
  | poll => trivial
  | fault f =>
    rw [hplace] at hr
    exact hr
  | scan side it =>
    rw [hplace] at hr
    obtain ⟨hcov, hw⟩ := hr
    have hpass : s.place.pass = some (side, it) := by rw [hplace]; rfl
    refine ⟨hcov.calls hc h hadds hpass fun hd ev hrem hkey => ?_, hw.calls hc h hadds hpass⟩
    exact hspare hd side ev hrem (by simp [HoldsOn, hplace, hkey])
  | cleanup side it sockfd node =>
    rw [hplace] at hr
    obtain ⟨hcov, hw⟩ := hr
    have hpass : s.place.pass = some (side, it) := by rw [hplace]; rfl
    refine ⟨hcov.calls hc h hadds hpass fun hd ev hrem hkey => ?_, hw.calls hc h hadds hpass⟩
    exact hspare hd side ev hrem (by simp [HoldsOn, hplace, hkey])
  | callback side it sockfd ev =>
    rw [hplace] at hr
    obtain ⟨hfd, hreported, hon, hw⟩ := hr
    have hpass : s.place.pass = some (side, it) := by rw [hplace]; rfl
    have hknown : ev ∈ s.storedEvents ++ s.gone := by
      rcases hon with ⟨p, ps, ha, hval, -⟩ | ⟨-, hgone⟩
      · obtain ⟨i, hp⟩ := ha.mem List.mem_cons_self
        exact List.mem_append_left _ (mem_events (h.tables side).wf hp hval)
      · exact List.mem_append_right _ hgone
    refine ⟨hfd, fun hreports => ?_, ?_, hw.calls hc h hadds hpass⟩
    · rw [hc.reported]
      exact ⟨(hreported hreports).1, hc.not_added hknown (hreported hreports).2⟩
    rcases hon with hon | ⟨hd, hgone⟩
    · refine hon.calls hc h hadds hpass fun hd hrem => ?_
      exact hspare hd side ev hrem (by simp [HoldsOn, hplace, hfd])
    · exact .inr ⟨hd, hc.gone_subset hgone⟩

end Call

theorem Round.yields {r : Shown × SelectState} (hr : s.Round reports dangles) (hy : Yields r s) :
    r.2.Round reports dangles := by
  rcases hy with hy | hy
  · rwa [hy]
  · rw [hy]
    exact .inr rfl

end SelectState
end Mcl
