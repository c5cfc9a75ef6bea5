import Mathlib.Algebra.BigOperators.Intervals
import Mcl.Util.Common

/-! `mcl_net_raw.c`: `mcl_send`. What `send` returns is up to the kernel, so it is a parameter. -/
namespace Mcl

/-- A call `send(sockfd, buff, len, flags)`, what it returned, and `to_sent` right before it. -/
structure SendCall where
  buff : Addr
  len : BitVec 64
  sent : BitVec 64
  toSent : BitVec 64
  deriving DecidableEq, Repr

/-- `while (to_sent > 0)`, where `made` calls have been made so far. The loop is cut off at its
`fuel`-th head. -/
def sendLoop (buff : Addr) (bufflen : BitVec 64) (results : ℕ → BitVec 64) :
    ℕ → ℕ → BitVec 64 → List SendCall × Option (BitVec 32)
  | 0, _, _ => ([], none)
  | fuel + 1, made, toSent =>
    if toSent = 0 then ([], some (bufflen.setWidth 32))
    else
      let sent := results made
      if sent.slt 0 then ([⟨buff, bufflen, sent, toSent⟩], some 0)
      else
        let (calls, ret) := sendLoop buff bufflen results fuel (made + 1) (toSent - sent)
        (⟨buff, bufflen, sent, toSent⟩ :: calls, ret)

/-- `mcl_send`, with the calls that it makes. -/
def mclSend (buff : Addr) (bufflen : BitVec 64) (results : ℕ → BitVec 64) (fuel : ℕ) :
    List SendCall × Option (BitVec 32) :=
  sendLoop buff bufflen results fuel 0 bufflen

/-- What `send` may return for `n` bytes. -/
def SendResult (n r : BitVec 64) : Prop := r = -1 ∨ 1 ≤ r.toInt ∧ r.toInt ≤ n.toNat

namespace SendCall

def Failed (c : SendCall) : Prop := c.sent.slt 0 = true

instance : DecidablePred Failed := fun c => inferInstanceAs (Decidable (c.sent.slt 0 = true))

/-- The addresses of the bytes that were accepted. -/
def accepted (c : SendCall) : List Addr := List.range' c.buff c.sent.toNat

end SendCall

/-- The loop has ended within `bufflen` calls, has subtracted no more than was left and has read
inside the buffer, and unless a call has failed, the bytes accepted are those of the buffer. -/
structure SentOnce (buff : Addr) (bufflen : BitVec 64) (r : List SendCall × Option (BitVec 32)) : Prop where
  ends : r.2 ≠ none
  few : r.1.length ≤ bufflen.toNat
  noWrap : ∀ c ∈ r.1, c.Failed ∨ c.sent.toNat ≤ c.toSent.toNat
  inside : ∀ c ∈ r.1, buff ≤ c.buff ∧ c.buff + c.len.toNat ≤ buff + bufflen.toNat
  once : (∀ c ∈ r.1, ¬ c.Failed) → r.1.flatMap SendCall.accepted = List.range' buff bufflen.toNat

variable {buff : Addr} {bufflen toSent : BitVec 64} {results : ℕ → BitVec 64} {fuel made : ℕ}

/-- The bytes that the `k` calls from call `made` on accept. -/
def accepted (results : ℕ → BitVec 64) (made k : ℕ) : ℕ :=
  ∑ i ∈ Finset.range k, (results (made + i)).toNat

theorem accepted_succ (results : ℕ → BitVec 64) (made k : ℕ) :
    accepted results made (k + 1) = (results made).toNat + accepted results (made + 1) k := by
  unfold accepted
  rw [Finset.sum_range_succ', add_comm]
  simp only [add_zero, add_assoc, add_comm 1]

theorem toNat_pos {n : BitVec 64} (h : n ≠ 0) : 0 < n.toNat :=
  Nat.pos_of_ne_zero fun h0 => h (BitVec.eq_of_toNat_eq h0)

theorem SendResult.cases {n r : BitVec 64} (h : SendResult n r) :
    r = -1 ∧ r.slt 0 = true ∨ r.slt 0 = false ∧ 0 < r.toNat ∧ r.toNat ≤ n.toNat := by
  rcases h with rfl | ⟨hpos, hle⟩
  · exact .inl ⟨rfl, by decide⟩
  · refine .inr ⟨?_, ?_⟩
    · rw [← Bool.not_eq_true, BitVec.slt_iff_toInt_lt]
      simp
      omega
    · have := BitVec.toInt_eq_toNat_cond r
      split at this <;> omega

theorem mem_sendLoop {c : SendCall} (hc : c ∈ (sendLoop buff bufflen results fuel made toSent).1) :
    c.buff = buff ∧ c.len = bufflen := by
  induction fuel generalizing made toSent with
  | zero => exact absurd hc List.not_mem_nil
  | succ fuel ih =>
    unfold sendLoop at hc
    split at hc
    · exact absurd hc List.not_mem_nil
    · dsimp only at hc
      split at hc
      · rw [List.mem_singleton.mp hc]
        exact ⟨rfl, rfl⟩
      · rcases List.mem_cons.mp hc with rfl | hc
        · exact ⟨rfl, rfl⟩
        · exact ih hc

theorem sendLoop_zero : sendLoop buff bufflen results (fuel + 1) made 0 = ([], some (bufflen.setWidth 32)) := by
  unfold sendLoop
  rw [if_pos rfl]

theorem sendLoop_failed (hleft : toSent ≠ 0) (hfail : (results made).slt 0 = true) :
    sendLoop buff bufflen results (fuel + 1) made toSent =
      ([⟨buff, bufflen, results made, toSent⟩], some 0) := by
  unfold sendLoop
  rw [if_neg hleft, if_pos hfail]

theorem sendLoop_failed_spec (hleft : toSent ≠ 0) (hfail : (results made).slt 0 = true) (k : ℕ) :
    (sendLoop buff bufflen results (fuel + 1) made toSent).2 = some 0 ∧
      (sendLoop buff bufflen results (fuel + 1) made toSent).1.length ≤ k + 1 ∧
      (∀ c ∈ (sendLoop buff bufflen results (fuel + 1) made toSent).1,
        c.Failed ∨ c.sent.toNat ≤ c.toSent.toNat) ∧
      ∃ c ∈ (sendLoop buff bufflen results (fuel + 1) made toSent).1, c.Failed := by
  have hfailed : SendCall.Failed ⟨buff, bufflen, results made, toSent⟩ := hfail
  rw [sendLoop_failed hleft hfail]
  refine ⟨rfl, Nat.le_add_left 1 k, ?_, _, List.mem_singleton_self _, hfailed⟩
  intro c hc
  rw [List.mem_singleton.mp hc]
  exact .inl hfailed

theorem sendLoop_sent (hleft : toSent ≠ 0) (hsent : (results made).slt 0 = false) :
    sendLoop buff bufflen results (fuel + 1) made toSent =
      (⟨buff, bufflen, results made, toSent⟩ ::
          (sendLoop buff bufflen results fuel (made + 1) (toSent - results made)).1,
        (sendLoop buff bufflen results fuel (made + 1) (toSent - results made)).2) := by
  conv_lhs => unfold sendLoop
  rw [if_neg hleft, if_neg (by rw [hsent]; exact Bool.false_ne_true)]

section Results

variable (hres : ∀ i, SendResult bufflen (results i))

include hres in
theorem le_accepted (made k : ℕ) : k ≤ accepted results made k := by
  induction k generalizing made with
  | zero => exact Nat.zero_le _
  | succ k ih =>
    have hrest := ih (made + 1)
    rw [accepted_succ]
    rcases (hres made).cases with ⟨hr, -⟩ | ⟨-, hpos, -⟩
    · have : (results made).toNat = 2 ^ 64 - 1 := by rw [hr]; rfl
      omega
    · omega

theorem toNat_left (hle : (results made).toNat ≤ toSent.toNat) :
    (toSent - results made).toNat = toSent.toNat - (results made).toNat :=
  BitVec.toNat_sub_of_le (by simpa [BitVec.le_def] using hle)

include hres in
/-- A failure that comes before all bytes are accepted ends the loop. -/
theorem sendLoop_of_failure {k : ℕ} (hk : results (made + k) = -1)
    (hsum : accepted results made k < toSent.toNat) (hfuel : k < fuel) :
    (sendLoop buff bufflen results fuel made toSent).2 = some 0 ∧
      (sendLoop buff bufflen results fuel made toSent).1.length ≤ k + 1 ∧
      (∀ c ∈ (sendLoop buff bufflen results fuel made toSent).1,
        c.Failed ∨ c.sent.toNat ≤ c.toSent.toNat) ∧
      ∃ c ∈ (sendLoop buff bufflen results fuel made toSent).1, c.Failed := by
  obtain ⟨fuel, rfl⟩ : ∃ n, fuel = n + 1 := ⟨fuel - 1, by omega⟩
  induction k generalizing made toSent fuel with
  | zero =>
    have hleft : toSent ≠ 0 := by
      rintro rfl
      exact absurd hsum (Nat.not_lt_zero _)
    have hfail : (results made).slt 0 = true := by
      rw [add_zero] at hk
      rw [hk]
      decide
    exact sendLoop_failed_spec hleft hfail 0
  | succ k ih =>
    have hleft : toSent ≠ 0 := by
      rintro rfl
      exact absurd hsum (Nat.not_lt_zero _)
    rw [accepted_succ] at hsum
    rcases (hres made).cases with ⟨-, hfail⟩ | ⟨hsent, hpos, -⟩
    · exact sendLoop_failed_spec hleft hfail _
    · obtain ⟨fuel, rfl⟩ : ∃ n, fuel = n + 1 := ⟨fuel - 1, by omega⟩
      have hle : (results made).toNat ≤ toSent.toNat := by omega
      have hsum' : accepted results (made + 1) k < (toSent - results made).toNat := by
        rw [toNat_left hle]
        omega
      have hk' : results (made + 1 + k) = -1 := by
        rw [← hk]
        congr 1
        omega
      obtain ⟨hret, hlen, hwrap, c, hc, hfailed⟩ := ih hk' hsum' fuel (by omega)
      rw [sendLoop_sent hleft hsent]
      refine ⟨hret, by simpa using hlen, ?_, c, List.mem_cons_of_mem _ hc, hfailed⟩
      intro c' hc'
      rcases List.mem_cons.mp hc' with rfl | hc'
      · exact .inr hle
      · exact hwrap c' hc'

include hres in
/-- A loop that ends with a failure and never wraps had bytes left. -/
theorem failure_of_sendLoop
    (hwrap : ∀ c ∈ (sendLoop buff bufflen results fuel made toSent).1,
      c.Failed ∨ c.sent.toNat ≤ c.toSent.toNat)
    (hfailed : ∃ c ∈ (sendLoop buff bufflen results fuel made toSent).1, c.Failed) :
    ∃ k, results (made + k) = -1 ∧ accepted results made k < toSent.toNat := by
  induction fuel generalizing made toSent with
  | zero =>
    obtain ⟨c, hc, -⟩ := hfailed
    exact absurd hc List.not_mem_nil
  | succ fuel ih =>
    by_cases hleft : toSent = 0
    · obtain ⟨c, hc, -⟩ := hfailed
      rw [hleft, sendLoop_zero] at hc
      exact absurd hc List.not_mem_nil
    · have hpos : 0 < toSent.toNat := toNat_pos hleft
      rcases (hres made).cases with ⟨hr, -⟩ | ⟨hsent, -, -⟩
      · exact ⟨0, hr, by simpa [accepted] using hpos⟩
      · rw [sendLoop_sent hleft hsent] at hwrap hfailed
        have hnot : ¬ SendCall.Failed ⟨buff, bufflen, results made, toSent⟩ :=
          fun hfail => absurd (hsent.symm.trans hfail) Bool.false_ne_true
        have hle : (results made).toNat ≤ toSent.toNat :=
          (hwrap _ List.mem_cons_self).resolve_left hnot
        obtain ⟨c, hc, hfail⟩ := hfailed
        have hc' := (List.mem_cons.mp hc).resolve_left fun heq => hnot (heq ▸ hfail)
        obtain ⟨k, hk, hsum⟩ := ih (fun c hc => hwrap c (List.mem_cons_of_mem _ hc)) ⟨c, hc', hfail⟩
        rw [toNat_left hle] at hsum
        refine ⟨k + 1, ?_, ?_⟩
        · rw [← hk]
          congr 1
          omega
        · rw [accepted_succ]
          omega

/-- Two calls that succeed send the first byte twice. -/
theorem not_once_of_second {rest : List SendCall} {sent sent' left left' : BitVec 64} (hpos : 0 < sent.toNat)
    (hpos' : 0 < sent'.toNat) (n : ℕ) :
    (⟨buff, bufflen, sent, left⟩ :: ⟨buff, bufflen, sent', left'⟩ :: rest).flatMap SendCall.accepted ≠
      List.range' buff n := by
  intro honce
  have hnodup : (List.range' buff n).Nodup := List.nodup_range'
  rw [← honce, List.flatMap_cons, List.nodup_append] at hnodup
  have hfst : buff ∈ List.range' buff sent.toNat := List.mem_range'_1.mpr ⟨le_refl _, by omega⟩
  have hsnd : buff ∈ List.range' buff sent'.toNat := List.mem_range'_1.mpr ⟨le_refl _, by omega⟩
  refine hnodup.2.2 buff hfst buff ?_ rfl
  rw [List.flatMap_cons]
  exact List.mem_append_left _ hsnd

theorem sendLoop_inside : ∀ c ∈ (sendLoop buff bufflen results fuel made toSent).1,
    buff ≤ c.buff ∧ c.buff + c.len.toNat ≤ buff + bufflen.toNat := by
  intro c hc
  obtain ⟨hbuff, hlen⟩ := mem_sendLoop hc
  rw [hbuff, hlen]
  exact ⟨le_refl _, le_refl _⟩

theorem sentOnce_zero : SentOnce buff 0 (sendLoop buff 0 results (fuel + 1) made 0) := by
  rw [sendLoop_zero]
  exact ⟨by simp, by simp, by simp, by simp, fun _ => rfl⟩

include hres in
theorem sentOnce_of_failure {k : ℕ} (hk : results k = -1) (hsum : accepted results 0 k < bufflen.toNat) :
    SentOnce buff bufflen (sendLoop buff bufflen results (bufflen.toNat + 1) 0 bufflen) := by
  have hle := le_accepted hres 0 k
  have hk' : results (0 + k) = -1 := by rwa [zero_add]
  obtain ⟨hret, hlen, hwrap, c, hc, hfailed⟩ :=
    sendLoop_of_failure hres hk' hsum (show k < bufflen.toNat + 1 by omega)
  exact ⟨by rw [hret]; simp, by omega, hwrap, sendLoop_inside, fun hno => absurd hfailed (hno c hc)⟩

/-- One call is enough. -/
theorem sentOnce_of_whole (hzero : bufflen ≠ 0) (hfirst : results 0 = bufflen)
    (hsent : (results 0).slt 0 = false) :
    SentOnce buff bufflen (sendLoop buff bufflen results (bufflen.toNat + 1) 0 bufflen) := by
  have hpos : 0 < bufflen.toNat := toNat_pos hzero
  have hinside : ∀ c ∈ (sendLoop buff bufflen results (bufflen.toNat + 1) 0 bufflen).1,
      buff ≤ c.buff ∧ c.buff + c.len.toNat ≤ buff + bufflen.toNat := sendLoop_inside
  have hself : bufflen - results 0 = 0 := by rw [hfirst]; exact BitVec.sub_self bufflen
  have hdone : sendLoop buff bufflen results bufflen.toNat 1 0 = ([], some (bufflen.setWidth 32)) := by
    obtain ⟨n, hn⟩ : ∃ n, bufflen.toNat = n + 1 := Nat.exists_eq_succ_of_ne_zero hpos.ne'
    rw [hn]
    exact sendLoop_zero
  rw [sendLoop_sent hzero hsent, hself, hdone] at hinside ⊢
  refine ⟨by simp, hpos, ?_, hinside, fun _ => ?_⟩
  · intro c hc
    rw [List.mem_singleton.mp hc, hfirst]
    exact .inr (le_refl _)
  · simp [SendCall.accepted, hfirst]

include hres in
/-- Without a failure a first call that leaves bytes is followed by one that begins at `buff` again. -/
theorem not_sentOnce_of_partial (hzero : bufflen ≠ 0) (hsent : (results 0).slt 0 = false)
    (hpos : 0 < (results 0).toNat) (hleft : bufflen - results 0 ≠ 0)
    (hnofail : ∀ c ∈ (sendLoop buff bufflen results (bufflen.toNat + 1) 0 bufflen).1, ¬ c.Failed) :
    ¬ SentOnce buff bufflen (sendLoop buff bufflen results (bufflen.toNat + 1) 0 bufflen) := by
  intro h
  have honce := h.once hnofail
  obtain ⟨n, hn⟩ : ∃ n, bufflen.toNat = n + 1 := Nat.exists_eq_succ_of_ne_zero (toNat_pos hzero).ne'
  rw [sendLoop_sent hzero hsent] at honce hnofail
  rcases (hres 1).cases with ⟨-, hfail⟩ | ⟨hsent1, hpos1, -⟩
  · rw [hn] at hnofail
    obtain ⟨c, hc, hfailed⟩ : ∃ c ∈ (sendLoop buff bufflen results (n + 1) 1 (bufflen - results 0)).1,
        c.Failed := (sendLoop_failed_spec hleft hfail 0).2.2.2
    exact hnofail c (List.mem_cons_of_mem _ hc) hfailed
  · rw [hn, sendLoop_sent hleft hsent1] at honce
    exact absurd honce (not_once_of_second hpos hpos1 _)

/-- `mcl_send` starts over at `buff` in every call: without a failure it is right only where one
call is enough. -/
theorem mclSend_once_iff {bufflen : BitVec 64} {results : ℕ → BitVec 64} (buff : Addr)
    (hres : ∀ i, SendResult bufflen (results i)) :
    SentOnce buff bufflen (mclSend buff bufflen results (bufflen.toNat + 1)) ↔
      bufflen = 0 ∨ results 0 = bufflen ∨
        ∃ k, results k = -1 ∧ accepted results 0 k < bufflen.toNat := by
  unfold mclSend
  constructor
  · intro h
    by_cases hzero : bufflen = 0
    · exact .inl hzero
    refine .inr ?_
    have hpos : 0 < bufflen.toNat := toNat_pos hzero
    by_contra hno
    push Not at hno
    obtain ⟨hfirst, hnever⟩ := hno
    have hnofail : ∀ c ∈ (sendLoop buff bufflen results (bufflen.toNat + 1) 0 bufflen).1, ¬ c.Failed := by
      by_contra hfailed
      push Not at hfailed
      obtain ⟨k, hk, hsum⟩ := failure_of_sendLoop hres h.noWrap hfailed
      rw [zero_add] at hk
      exact absurd hsum (not_lt.mpr (hnever k hk))
    rcases (hres 0).cases with ⟨hr, -⟩ | ⟨hsent, hpos0, hle0⟩
    · have hnone : accepted results 0 0 = 0 := rfl
      have := hnever 0 hr
      omega
    · have hleft : bufflen - results 0 ≠ 0 := by
        intro h0
        have hsub := toNat_left hle0
        rw [h0] at hsub
        apply hfirst
        apply BitVec.eq_of_toNat_eq
        simp at hsub
        omega
      exact not_sentOnce_of_partial hres hzero hsent hpos0 hleft hnofail h
  · rintro (rfl | hfirst | ⟨k, hk, hsum⟩)
    · exact sentOnce_zero
    · by_cases hzero : bufflen = 0
      · subst hzero
        exact sentOnce_zero
      have hpos : 0 < bufflen.toNat := toNat_pos hzero
      rcases (hres 0).cases with ⟨hr, -⟩ | ⟨hsent, -, -⟩
      · exact sentOnce_of_failure hres hr hpos
      · exact sentOnce_of_whole hzero hfirst hsent
    · exact sentOnce_of_failure hres hk hsum

end Results

theorem mclSend_once_whole : SentOnce 0 5 (mclSend 0 5 (fun _ => 5) 6) :=
  (mclSend_once_iff 0 fun _ => .inr (by decide)).mpr (.inr (.inl rfl))

/-- Two partial sends: the first byte goes out twice, and the last one never. -/
theorem mclSend_twice :
    ¬ ∀ (buff : Addr) (bufflen : BitVec 64) (results : ℕ → BitVec 64),
      (∀ i, SendResult bufflen (results i)) →
        SentOnce buff bufflen (mclSend buff bufflen results (bufflen.toNat + 1)) := by
  intro hall
  have h := hall 0 2 (fun _ => 1) fun _ => .inr (by decide)
  have honce := h.once (by decide)
  exact absurd honce (by decide)

end Mcl
