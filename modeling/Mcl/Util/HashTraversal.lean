import Mcl.Util.HashRuns

/-! Traversals of a hash table with `MCL_FOREACH` and `MCL_FOREACH_REVERSE`. -/
namespace Mcl
open Mcl.Library

variable {ν φ : Type}

/-- The body reads `mcl_hash_iter_key` and `mcl_hash_iter_val`; `none` when the loop has not ended
with the fuel. -/
def hashForeachLoop (step : HashIter ν → Hash ν φ → Option (HashIter ν)) (ht : Hash ν φ) :
    ℕ → HashIter ν → Option (List (Option HashKey × Option ν))
  | 0, _ => none
  | fuel + 1, it =>
    if it.isNull then some []
    else do
      let key ← mclHashIterKey it
      let val ← mclHashIterVal it
      let it ← step it ht
      let rest ← hashForeachLoop step ht fuel it
      some ((key, val) :: rest)

def hashForeach (fuel : ℕ) (it : HashIter ν) (ht : Hash ν φ) :
    Option (List (Option HashKey × Option ν)) := do
  let it ← defHashIterHead it ht
  hashForeachLoop defHashIterNext ht fuel it

def hashForeachReverse (fuel : ℕ) (it : HashIter ν) (ht : Hash ν φ) :
    Option (List (Option HashKey × Option ν)) := do
  let it ← defHashIterTail it ht
  hashForeachLoop defHashIterPrev ht fuel it

namespace Hash

variable {ht : Hash ν φ} {i : ℕ} {list : MclList (HashPair ν) φ} {it : HashIter ν}

/-- The pairs in `n` buckets from `i` on. -/
def pairsFrom (ht : Hash ν φ) (i n : ℕ) : List (HashPair ν) := (List.range' i n).flatMap ht.bucket

theorem pairs_eq_pairsFrom (ht : Hash ν φ) : ht.pairs = ht.pairsFrom 0 mclHashMaxSize := by
  rw [pairs, KeySame.entries, List.range_eq_range', pairsFrom]

theorem pairsFrom_succ (ht : Hash ν φ) (i n : ℕ) :
    ht.pairsFrom i (n + 1) = ht.bucket i ++ ht.pairsFrom (i + 1) n := by
  rw [pairsFrom, List.range'_succ, List.flatMap_cons, pairsFrom]

/-- What an iterator still has before it: nothing when it is null, else the pair it is on, the
rest of that list and the buckets behind. -/
inductive Ahead (ht : Hash ν φ) (it : HashIter ν) : List (HashPair ν) → Prop
  | done (hnull : it.ptr = none) : Ahead ht it []
  | on {i n : ℕ} {list : MclList (HashPair ν) φ} {pre suf : List (ListEnt (HashPair ν))}
      {e : ListEnt (HashPair ν)} {p : HashPair ν} (hin : i + (n + 1) = mclHashMaxSize)
      (hlist : ht.tables i = some list) (hents : list.ents = pre ++ e :: suf) (hp : e.data = some p)
      (hptr : it.ptr = some e.addr) (hdata : it.data = some e.addr)
      (hu : it.u = .pair (some p.key) p.val) (hcursor : it.cursor = i) :
      Ahead ht it (p :: (suf.filterMap (·.data) ++ ht.pairsFrom (i + 1) n))

theorem Ahead.head {p : HashPair ν} {ps : List (HashPair ν)} (ha : Ahead ht it (p :: ps)) :
    it.isNull = false ∧ it.u = .pair (some p.key) p.val := by
  cases ha with
  | on hin hl hents hp hptr hdata hu hcursor => exact ⟨by simp [Iter.isNull, hptr], hu⟩

theorem bucket_of_ents (hl : ht.tables i = some list) :
    ht.bucket i = list.ents.filterMap (·.data) := by
  simp only [bucket, hl, MclList.elems, List.filterMap_map]
  rfl

namespace WF

theorem data_some (h : ht.WF) (hl : ht.tables i = some list) {e : ListEnt (HashPair ν)}
    (he : e ∈ list.ents) : ∃ p, e.data = some p := by
  have hmem : e.data ∈ list.elems := List.mem_map_of_mem he
  rw [(h.lists i list hl).2.elems] at hmem
  obtain ⟨p, -, hp⟩ := List.mem_map.mp hmem
  exact ⟨p, hp.symm⟩

theorem size_pos_iff (h : ht.WF) (hl : ht.tables i = some list) :
    list.size > 0 ↔ list.ents ≠ [] := by
  have hst := (h.lists i list hl).2
  have hlen := congrArg List.length hst.elems
  rw [MclList.elems, List.length_map, List.length_map] at hlen
  rw [MclList.size, hst.size, ← hlen, ← List.length_pos_iff]
  omega

/-- Going to the head of a list that is not empty. -/
theorem enterList_some (h : ht.WF) (hl : ht.tables i = some list) (hne : list.ents ≠ []) {n : ℕ}
    (hin : i + (n + 1) = mclHashMaxSize) (it : HashIter ν) :
    ∃ it', enterList it i (some list) = some it' ∧ Ahead ht it' (ht.pairsFrom i (n + 1)) := by
  obtain ⟨e, suf, hents⟩ := List.exists_cons_of_ne_nil hne
  obtain ⟨p, hp⟩ := h.data_some hl (show e ∈ list.ents by simp [hents])
  have hinfo : list.iterInfo (list.iterHead it) = some e.data :=
    MclList.iterInfo_of_pos (show list.ents = [] ++ e :: suf from hents) (h.lists i list hl).2.nodup
      (by simp [MclList.iterHead, MclList.setPos, hents])
      (by simp [MclList.iterHead, MclList.setPos, hents])
  have hpairs : ht.pairsFrom i (n + 1) = p :: (suf.filterMap (·.data) ++ ht.pairsFrom (i + 1) n) := by
    rw [pairsFrom_succ, bucket_of_ents hl, hents, List.filterMap_cons_some hp, List.cons_append]
  rw [hpairs]
  refine ⟨{ setPair (list.iterHead it) p with cursor := i }, by simp [enterList, hinfo, hp],
    .on hin hl (show list.ents = [] ++ e :: suf from hents) hp ?_ ?_ rfl rfl⟩
  · simp [setPair, MclList.iterHead, MclList.setPos, hents]
  · simp [setPair, MclList.iterHead, MclList.setPos, hents]

/-- A bucket looked at last that is empty is as good as none. -/
theorem enterList_empty {last : Option (MclList (HashPair ν) φ)}
    (hlast : ∀ l, last = some l → l.ents = []) (i : ℕ) (it : HashIter ν) :
    ∃ it', enterList it i last = some it' ∧ it'.ptr = none := by
  cases last with
  | none => exact ⟨_, rfl, rfl⟩
  | some l =>
    have hents := hlast l rfl
    exact ⟨unsetIter (l.iterHead it),
      by simp [enterList, MclList.iterHead, MclList.setPos, MclList.iterInfo, hents], rfl⟩

/-- The search for a list, from any bucket on, and the step onto its head. -/
theorem findList_enter (h : ht.WF) (it : HashIter ν) (n i : ℕ) (hin : i + n = mclHashMaxSize)
    (last : Option (MclList (HashPair ν) φ)) (hlast : ∀ l, last = some l → l.ents = []) :
    ∃ it', enterList it (findList ht n i last).1 (findList ht n i last).2 = some it' ∧
      Ahead ht it' (ht.pairsFrom i n) := by
  induction n generalizing i last with
  | zero =>
    obtain ⟨it', henter, hnull⟩ := enterList_empty hlast i it
    exact ⟨it', henter, .done hnull⟩
  | succ n ih =>
    cases hl : ht.tables i with
    | none =>
      obtain ⟨it', henter, hahead⟩ := ih (i + 1) (by omega) none (by simp)
      rw [pairsFrom_succ, bucket_of_tables_none hl, List.nil_append]
      exact ⟨it', by simpa [findList, hl] using henter, hahead⟩
    | some list =>
      have hsize := h.size_pos_iff hl
      by_cases hne : list.ents = []
      · obtain ⟨it', henter, hahead⟩ := ih (i + 1) (by omega) (some list) (by simpa using hne)
        rw [pairsFrom_succ, bucket_of_ents hl, hne, List.filterMap_nil, List.nil_append]
        exact ⟨it', by simpa [findList, hl, hsize, hne] using henter, hahead⟩
      · obtain ⟨it', henter, hahead⟩ := h.enterList_some hl hne hin it
        exact ⟨it', by simpa [findList, hl, hsize, hne] using henter, hahead⟩

theorem iterHead_ahead (h : ht.WF) (it : HashIter ν) :
    ∃ it', defHashIterHead it ht = some it' ∧ Ahead ht it' ht.pairs := by
  rw [pairs_eq_pairsFrom]
  obtain ⟨it', henter, hahead⟩ :=
    h.findList_enter it mclHashMaxSize 0 (Nat.zero_add _) none (by simp)
  refine ⟨it', ?_, hahead⟩
  rw [← henter, defHashIterHead, h.maxHashSize]

theorem iterNext_ahead (h : ht.WF) {p : HashPair ν} {ps : List (HashPair ν)}
    (ha : Ahead ht it (p :: ps)) :
    ∃ it', defHashIterNext it ht = some it' ∧ Ahead ht it' ps := by
  cases ha with
  | @on i n list pre suf e p hin hl hents hp hptr hdata hu hcursor =>
    have hnd := (h.lists i list hl).2.nodup
    have hok : cursorOk it ht = true := by
      rw [cursorOk, h.maxHashSize, hcursor]
      simp only [decide_eq_true_eq]
      omega
    have hnext := MclList.iterNext_of_pos hents hnd hdata
    cases suf with
    | cons e' suf =>
      have hents' : list.ents = (pre ++ [e]) ++ e' :: suf := by simp [hents]
      obtain ⟨p', hp'⟩ := h.data_some hl (show e' ∈ list.ents by simp [hents])
      have hinfo : list.iterInfo (MclList.setPos it (some e'.addr)) = some e'.data :=
        MclList.iterInfo_of_pos hents' hnd rfl rfl
      rw [List.filterMap_cons_some hp', List.cons_append]
      refine ⟨setPair (MclList.setPos it (some e'.addr)) p', ?_,
        .on hin hl hents' hp' rfl rfl rfl hcursor⟩
      simp [defHashIterNext, hok, hcursor, hl, hnext, Iter.isNull, MclList.setPos, hp'] at hinfo ⊢
      simp [hinfo]
    | nil =>
      rw [List.filterMap_nil, List.nil_append]
      obtain ⟨it', henter, hahead⟩ := h.findList_enter
        (unsetIter (MclList.setPos it none)) n (i + 1) (by omega) none (by simp)
      refine ⟨it', ?_, hahead⟩
      have hrest : ht.maxHashSize - (i + 1) = n := by rw [h.maxHashSize]; omega
      simp [defHashIterNext, hok, hcursor, hl, hnext, Iter.isNull, MclList.setPos, hrest] at henter ⊢
      exact henter

theorem foreachLoop_eq (h : ht.WF) {ps : List (HashPair ν)} (ha : Ahead ht it ps) (fuel : ℕ) :
    hashForeachLoop defHashIterNext ht fuel it =
      if ps.length < fuel then some (ps.map fun p => (some p.key, p.val)) else none := by
  induction ps generalizing it fuel with
  | nil =>
    cases ha with
    | done hnull =>
      cases fuel <;> simp [hashForeachLoop, Iter.isNull, hnull]
  | cons p ps ih =>
    obtain ⟨it', hnext, ha'⟩ := h.iterNext_ahead ha
    obtain ⟨hnull, hu⟩ := ha.head
    cases fuel with
    | zero => rfl
    | succ fuel =>
      have hrest := ih ha' fuel
      by_cases hlen : ps.length < fuel <;>
        simp [hashForeachLoop, hnull, mclHashIterKey, mclHashIterVal, hu, hnext, hrest, hlen]

end WF
end Hash

/-- Both loops end after one step for each stored pair, and meet each stored pair once. -/
theorem hash_foreach [DecidableEq ν] {type : DataType} {ops : List (HashOp ν φ)}
    {hist : List (HashOp ν φ × Answer ν φ)} {ht : Hash ν φ}
    (hrun : (hashMachine type).run ops = some (hist, some ht)) (it : HashIter ν) (fuel : ℕ) :
    hashForeach fuel it ht =
        (if ht.pairs.length < fuel then some (ht.pairs.map fun p => (some p.key, p.val)) else none) ∧
      hashForeachReverse fuel it ht = hashForeach fuel it ht := by
  have h := hashMachine_wf hrun
  obtain ⟨it', hhead, ha⟩ := h.iterHead_ahead it
  refine ⟨?_, rfl⟩
  rw [hashForeach, hhead]
  exact h.foreachLoop_eq ha fuel

/-- Two keys of one bucket, one of them erased through an iterator, and a third. -/
def eraseOps : List (HashOp Unit Unit) :=
  [.call (.insert ⟨.int 0, trivial⟩ (some ()) none),
    .call (.insertSafe ⟨.int 1021, trivial⟩ (some ())),
    .iterErase ⟨some 3, some 3, -1, .index (-1), 0⟩,
    .call (.insert ⟨.int 7, trivial⟩ (some ()) none)]

theorem hash_foreach_eraseOps :
    ∃ hist ht, (hashMachine .int).run eraseOps = some (hist, some ht) ∧
      ∀ it fuel, hashForeach fuel it ht =
          (if ht.pairs.length < fuel then some (ht.pairs.map fun p => (some p.key, p.val)) else none) ∧
        hashForeachReverse fuel it ht = hashForeach fuel it ht := by
  obtain ⟨hist, ht, hrun⟩ :
      ∃ hist ht, (hashMachine .int).run eraseOps = some (hist, some ht) := ⟨_, _, rfl⟩
  exact ⟨hist, ht, hrun, hash_foreach hrun⟩

end Mcl
