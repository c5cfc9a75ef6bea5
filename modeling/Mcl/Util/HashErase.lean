import Mcl.Library.Cursor
import Mcl.Util.HashCursor

/-! Erasing from a hash table in the course of a traversal. -/
namespace Mcl
open Mcl.Library

variable {ν φ : Type} [DecidableEq ν]

/-- `iter_head`, then `iter_erase` where `hit` holds of the pair and `iter_next` where it does
not. The pairs it was on come first in the result. -/
def hashEraseLoop (hit : Option HashKey → Option ν → Bool) :
    ℕ → HashIter ν → Hash ν φ → Option (List (Option HashKey × Option ν) × Hash ν φ × Freed φ ν)
  | 0, _, _ => none
  | fuel + 1, it, ht =>
    if it.isNull then some ([], ht, [])
    else do
      let key ← mclHashIterKey it
      let val ← mclHashIterVal it
      if hit key val then
        let (it, ht, freed) ← defHashIterErase it ht
        let (rest, ht, freed') ← hashEraseLoop hit fuel it ht
        some ((key, val) :: rest, ht, freed ++ freed')
      else
        let it ← defHashIterNext it ht
        let (rest, ht, freed) ← hashEraseLoop hit fuel it ht
        some ((key, val) :: rest, ht, freed)

def hashEraseIf (hit : Option HashKey → Option ν → Bool) (fuel : ℕ) (it : HashIter ν) (ht : Hash ν φ) :
    Option (List (Option HashKey × Option ν) × Hash ν φ × Freed φ ν) := do
  let it ← defHashIterHead it ht
  hashEraseLoop hit fuel it ht

/-- What `hit` says of a stored pair. -/
def HashPair.meets (hit : Option HashKey → Option ν → Bool) (p : HashPair ν) : Bool :=
  hit (some p.key) p.val

namespace Hash

variable {ht ht' : Hash ν φ} {i : ℕ} {it : HashIter ν} {p : HashPair ν} {ps : List (HashPair ν)}
  {hit : Option HashKey → Option ν → Bool}

/-- The iterator of a table, with the key and the value it shows. -/
def cursor : Cursor (Hash ν φ) (HashIter ν) (Option HashKey × Option ν) (φ × ν) where
  atEnd := Iter.isNull
  look := fun it _ => do
    let key ← mclHashIterKey it
    let val ← mclHashIterVal it
    some ((key, val), it)
  next := defHashIterNext
  erase := defHashIterErase

theorem hashEraseLoop_eq (hit : Option HashKey → Option ν → Bool) (fuel : ℕ) (it : HashIter ν) (ht : Hash ν φ) :
    hashEraseLoop hit fuel it ht = cursor.eraseLoop (fun x => hit x.1 x.2) fuel it ht := by
  induction fuel generalizing it ht with
  | zero => rfl
  | succ fuel ih =>
    rw [hashEraseLoop, Cursor.eraseLoop]
    simp only [ih, cursor, Option.bind_eq_bind, Option.bind_assoc, Option.bind_some]

/-- From the table `ht` the pairs that meet `hit` have gone, but for those in `rest`, which are still
ahead of the iterator. -/
structure Between (hit : Option HashKey → Option ν → Bool) (ht : Hash ν φ) (rest : List (HashPair ν))
    (it : HashIter ν) (ht' : Hash ν φ) : Prop where
  becomes : Becomes ht ht' fun j => (ht.bucket j).filter fun q => !q.meets hit || decide (q ∈ rest)
  ahead : Ahead ht' it rest

theorem WF.between (h : ht.WF) (ha : Ahead ht it ht.pairs) : Between hit ht ht.pairs it ht := by
  refine ⟨⟨h, ?_, rfl, rfl⟩, ha⟩
  funext j
  apply Eq.symm
  apply List.filter_eq_self.mpr
  intro q hq
  have hmem : q ∈ ht.pairs := by
    rw [Hash.pairs, KeySame.mem_entries]
    exact ⟨j, bucketOf_lt (h.placed j q hq).bucketOf, hq⟩
  rw [decide_eq_true hmem, Bool.or_true]

theorem Between.moves (hb : Between hit ht (p :: ps) it ht') (hhit : p.meets hit = false) :
    ∃ it', defHashIterNext it ht' = some it' ∧ Between hit ht ps it' ht' := by
  obtain ⟨it', hnext, ha⟩ := hb.becomes.wf.iterNext_ahead hb.ahead
  refine ⟨it', hnext, ⟨hb.becomes.wf, ?_, hb.becomes.keyType, hb.becomes.eraseFn⟩, ha⟩
  rw [hb.becomes.bucket]
  funext j
  apply List.filter_congr
  intro q hq
  by_cases hqp : q = p
  · subst hqp
    simp [hhit]
  · simp [hqp]

theorem Between.erases (hb : Between hit ht (p :: ps) it ht') (hhit : p.meets hit = true) :
    ∃ it' ht'', defHashIterErase it ht' = some (it', ht'', destroyPair p ht.eraseFn) ∧
      Between hit ht ps it' ht'' := by
  have h := hb.becomes.wf
  obtain ⟨it', ht'', i, herase, hp, -, hb', ha⟩ := h.defHashIterErase_ahead hb.ahead
  rw [hb.becomes.eraseFn] at herase
  refine ⟨it', ht'', herase, ⟨hb'.wf, ?_, hb'.keyType.trans hb.becomes.keyType,
    hb'.eraseFn.trans hb.becomes.eraseFn⟩, ha⟩
  have hnot := h.not_mem_ahead hb.ahead
  have hgone : ht''.bucket = fun j => (ht'.bucket j).filter (· != p) := by
    rw [hb'.bucket]
    funext j
    by_cases hj : j = i
    · subst hj
      rw [Function.update_self]
      exact (h.distinct j).drop_of_mem hp
    · rw [Function.update_of_ne hj]
      apply Eq.symm
      apply List.filter_eq_self.mpr
      intro q hq
      rw [bne_iff_ne]
      rintro rfl
      have hqi := (h.placed i q hp).bucketOf
      rw [(h.placed j q hq).bucketOf] at hqi
      exact hj (Option.some.inj hqi)
  rw [hgone, hb.becomes.bucket]
  funext j
  rw [List.filter_filter]
  apply List.filter_congr
  intro q hq
  by_cases hqp : q = p
  · subst hqp
    simp [hhit, hnot]
  · simp [hqp]

theorem cursor_walks (hit : Option HashKey → Option ν → Bool) (ht : Hash ν φ) :
    cursor.Walks (fun x => hit x.1 x.2) (fun p : HashPair ν => (some p.key, p.val)) (destroyPair · ht.eraseFn)
      fun _ => Between hit ht := by
  constructor
  · intro _ it ht' hb
    cases hb.ahead with
    | done hnull =>
      rw [show cursor.atEnd it = it.isNull from rfl, Iter.isNull, hnull]
      rfl
  · intro _ p ps it ht' hb
    obtain ⟨hnull, hu⟩ := hb.ahead.head
    refine ⟨hnull, ?_⟩
    simp only [cursor, mclHashIterKey, mclHashIterVal, hu, Option.bind_eq_bind, Option.bind_some]
  · intro _ p ps it ht' hhit hb
    exact hb.moves hhit
  · intro _ p ps it ht' hhit hb
    exact hb.erases hhit

/-- A loop of one step for each pair that leaves the pairs that do not meet `hit`. The erase function is
called once with the value of each of the others. -/
structure ErasesIf (ht : Hash ν φ) (hit : Option HashKey → Option ν → Bool) (it : HashIter ν)
    (ht' : Hash ν φ) : Prop where
  loop : ∀ fuel, hashEraseIf hit fuel it ht =
    if ht.pairs.length < fuel then
      some (ht.pairs.map fun p => (some p.key, p.val), ht',
        (ht.pairs.filter (·.meets hit)).flatMap fun p => callFree ht.eraseFn p.val)
    else none
  pairs : ht'.pairs = ht.pairs.filter fun p => !p.meets hit
  keyType : ht'.keyType = ht.keyType
  finds : ∀ key, hashFind (calcHash key) key ht' =
    ((ht.stored key).filter fun p => !p.meets hit).bind (·.val)

theorem WF.erasesIf (h : ht.WF) (hit : Option HashKey → Option ν → Bool) (it : HashIter ν) :
    ∃ ht', ErasesIf ht hit it ht' := by
  obtain ⟨it', hhead, ha⟩ := h.iterHead_ahead it
  obtain ⟨it'', ht', hloop, hend⟩ := (cursor_walks hit ht).eraseLoop_eq [] (h.between ha)
  have hbucket : ht'.bucket = fun j => (ht.bucket j).filter fun p => !p.meets hit := by
    rw [hend.becomes.bucket]
    funext j
    simp
  refine ⟨ht', fun fuel => ?_, ?_, hend.becomes.keyType, fun key => ?_⟩
  · rw [hashEraseIf, hhead]
    exact (hashEraseLoop_eq hit fuel it' ht).trans (hloop fuel)
  · rw [Hash.pairs, hbucket, KeySame.entries_filter, Hash.pairs]
  · rw [hend.becomes.wf.hashFind_eq, Hash.stored, hbucket, KeySame.find_filter h.distinct, Hash.stored]

end Hash

/-- Erasing in a traversal filters the pairs of a table. -/
theorem hash_eraseIf {type : DataType} {ops : List (HashOp ν φ)}
    {hist : List (HashOp ν φ × Answer ν φ)} {ht : Hash ν φ}
    (hrun : (hashMachine type).run ops = some (hist, some ht))
    (hit : Option HashKey → Option ν → Bool) (it : HashIter ν) : ∃ ht', ht.ErasesIf hit it ht' :=
  (hashMachine_wf hrun).erasesIf hit it

/-- Two keys of one bucket, the first of its list to be erased, and a third key. -/
def filterOps : List (HashOp ℕ ℕ) :=
  [.ctrl .registEraseFn (some 0),
    .call (.insert ⟨.int 0, trivial⟩ (some 5) none),
    .call (.insert ⟨.int 1021, trivial⟩ (some 6) none),
    .call (.insert ⟨.int 7, trivial⟩ (some 5) none)]

theorem hash_eraseIf_filterOps :
    ∃ hist ht, (hashMachine .int).run filterOps = some (hist, some ht) ∧
      ∀ it, ∃ ht', ht.ErasesIf (fun _ val => val == some 6) it ht' ∧
        (hashEraseIf (fun _ val => val == some 6) 4 it ht).map (·.2.2) = some [(0, 6)] ∧
        hashFind (calcHash (.int 1021)) (.int 1021) ht' = none ∧
        hashFind (calcHash (.int 0)) (.int 0) ht' = some 5 := by
  obtain ⟨hist, ht, hrun, hlen, hcalls, hgone, hkept⟩ :
      ∃ hist ht, (hashMachine .int).run filterOps = some (hist, some ht) ∧ ht.pairs.length = 3 ∧
        ((ht.pairs.filter (·.meets fun _ val => val == some 6)).flatMap fun p => callFree ht.eraseFn p.val) = [(0, 6)] ∧
        ((ht.stored (.int 1021)).filter fun p => !p.meets fun _ val => val == some 6) = none ∧
        ((ht.stored (.int 0)).filter fun p => !p.meets fun _ val => val == some 6).bind (·.val) = some 5 :=
    ⟨_, _, rfl, by decide +kernel, by decide +kernel, by decide +kernel, by decide +kernel⟩
  refine ⟨hist, ht, hrun, fun it => ?_⟩
  obtain ⟨ht', herases⟩ := hash_eraseIf hrun (fun _ val => val == some 6) it
  refine ⟨ht', herases, ?_, ?_, ?_⟩
  · rw [herases.loop, hlen, if_pos (by decide), hcalls]
    rfl
  · rw [herases.finds, hgone]
    rfl
  · rw [herases.finds, hkept]

end Mcl
