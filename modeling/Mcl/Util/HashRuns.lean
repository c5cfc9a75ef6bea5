import Mcl.Util.HashMaps

/-! Runs of every call of `mcl_hash.h` on one table, and what a call does to the stored pairs. -/
namespace Mcl
open Mcl.Library

variable {ν φ : Type}

/-- A call. Any iterator value may be passed to an erase. -/
inductive HashOp (ν φ : Type) where
  | call (op : MapOp { key : HashKey // key.Valid } ν φ)
  | ctrl (cmd : DsCtrlCmd) (data : Option φ)
  | iterErase (it : HashIter ν)
  | destroy (freeFn : Option φ)

namespace HashOp

/-- The free function a call is given, or has registered. -/
def freeFn (ht : Hash ν φ) : HashOp ν φ → Option φ
  | call (.insert _ _ freeFn) | call (.delete _ freeFn) | call (.clean freeFn) => freeFn
  | iterErase _ => ht.eraseFn
  | destroy freeFn => freeFn
  | _ => none

/-- The pointer a call is asked to store. -/
def data? : HashOp ν φ → Option ν
  | call (.insert _ data _) | call (.insertSafe _ data) => data
  | _ => none

end HashOp

/-- The pairs of a table; a destroyed one has none. -/
def pairsOf : Option (Hash ν φ) → List (HashPair ν)
  | none => []
  | some ht => ht.pairs

@[simp] theorem pairsOf_some (ht : Hash ν φ) : pairsOf (some ht) = ht.pairs := rfl

/-- What a call removes from a table and adds to it, and whom it releases. -/
structure Exchange (ht : Hash ν φ) (op : HashOp ν φ) (ans : Answer ν φ) (s' : Option (Hash ν φ))
    (gone added : List (HashPair ν)) : Prop where
  wf : ∀ ht', s' = some ht' → ht'.WF
  pairs : ∃ rest, ht.pairs.Perm (gone ++ rest) ∧ (pairsOf s').Perm (added ++ rest)
  freed : ans.freed = gone.flatMap (destroyPair · (op.freeFn ht))
  added : (added = [] ∧ (op.data? ≠ none → ans.ret = 0)) ∨
    ∃ p, added = [p] ∧ p.val = op.data? ∧ op.data? ≠ none ∧ ans.ret = 1

/-- The list of bucket `i`: pairs that belong there, no two under one key, and as many as `_list_sz` says. -/
structure BucketInOrder (type : DataType) (i : ℕ) (list : MclList (HashPair ν) φ) : Prop where
  pairs : ∀ x ∈ list.elems, ∃ p, x = some p ∧ calcHash p.key = i ∧ p.key.type = type ∧ p.val ≠ none
  apart : list.elems.Pairwise fun x y => ∀ p ∈ x, ∀ q ∈ y, keyCmp p.key q.key = false
  size : list.listSz = list.elems.length
  cap : list.listSz ≤ mclListMaxSize

namespace Hash

variable {ht ht' : Hash ν φ} {i : ℕ} {p : HashPair ν} {key : HashKey}

/-- Writing one bucket changes the stored pairs by that bucket only. -/
theorem pairs_update {row : List (HashPair ν)} (hi : i < mclHashMaxSize)
    (hb : ht'.bucket = Function.update ht.bucket i row) :
    ∃ rest, ht.pairs.Perm (ht.bucket i ++ rest) ∧ ht'.pairs.Perm (row ++ rest) := by
  obtain ⟨rest, hrest⟩ := KeySame.exists_rest ht.bucket hi
  have hold := hrest (ht.bucket i)
  rw [Function.update_eq_self] at hold
  exact ⟨rest, hold, by rw [pairs, hb]; exact hrest row⟩

theorem pairs_of_bucket_eq (hb : ht'.bucket = ht.bucket) : ht'.pairs = ht.pairs := by
  rw [pairs, pairs, hb]

theorem pairs_remove (hi : i < mclHashMaxSize) (hu : pairUnder key (ht.bucket i) = some p)
    (hb : ht'.bucket = Function.update ht.bucket i (dropUnder key (ht.bucket i))) :
    ht.pairs.Perm (p :: ht'.pairs) := by
  obtain ⟨rest, hold, hnew⟩ := pairs_update hi hb
  have hdrop : (ht.bucket i ++ rest).Perm (p :: dropUnder key (ht.bucket i) ++ rest) :=
    (KeySame.perm_drop hu).append_right rest
  exact (hold.trans hdrop).trans (hnew.symm.cons p)

theorem pairs_put (hi : i < mclHashMaxSize)
    (hb : ht'.bucket = Function.update ht.bucket i (p :: dropUnder key (ht.bucket i))) :
    ∃ rest, ht.pairs.Perm ((pairUnder key (ht.bucket i)).toList ++ rest) ∧
      ht'.pairs.Perm (p :: rest) := by
  obtain ⟨rest, hold, hnew⟩ := pairs_update hi hb
  refine ⟨dropUnder key (ht.bucket i) ++ rest, ?_, hnew⟩
  rw [← List.append_assoc]
  exact hold.trans ((KeySame.perm_lookup_drop key (ht.bucket i)).append_right rest)

theorem pairs_clear (hb : ht'.bucket = fun _ => []) : ht'.pairs = [] := by
  rw [pairs, hb, KeySame.entries]
  exact List.flatMap_eq_nil_iff.mpr fun _ _ => rfl

end Hash

section Machine
variable [DecidableEq ν]

def execHash : Option (Hash ν φ) → HashOp ν φ → Option (Answer ν φ × Option (Hash ν φ))
  | none, _ => none
  | some ht, .call op => (execKey ht (op.map Subtype.val)).map fun (ans, ht) => (ans, some ht)
  | some ht, .ctrl cmd data =>
    let (ret, ht) := mclHashCtrl cmd data ht
    some (⟨ret, none, []⟩, some ht)
  | some ht, .iterErase it => do
    let (_, ht, freed) ← defHashIterErase it ht
    some (⟨0, none, freed⟩, some ht)
  | some ht, .destroy freeFn =>
    let (_, freed) := mclHashDestroy ht freeFn
    some (⟨0, none, freed⟩, none)

/-- The state is `none` once the table is destroyed. -/
def hashMachine (type : DataType) : Machine (Option (Hash ν φ)) (HashOp ν φ) (Answer ν φ) :=
  ⟨some (.new type), execHash⟩

variable {ht ht' : Hash ν φ} {op : HashOp ν φ} {ans : Answer ν φ} {s' : Option (Hash ν φ)}

omit [DecidableEq ν] in
theorem wf_some (h : ht.WF) : ∀ ht', some ht = some ht' → ht'.WF := by
  rintro ht' ⟨⟩
  exact h

omit [DecidableEq ν] in
/-- A call that leaves the pairs as they are and stores nothing. -/
theorem Exchange.keep (hwf : ht'.WF) (hb : ht'.bucket = ht.bucket) (hfreed : ans.freed = [])
    (hret : op.data? ≠ none → ans.ret = 0) : Exchange ht op ans (some ht') [] [] :=
  ⟨wf_some hwf,
    ⟨ht.pairs, by simp, by simp [Hash.pairs_of_bucket_eq hb]⟩,
    hfreed, .inl ⟨rfl, hret⟩⟩

omit [DecidableEq ν] in
/-- A call that takes out one pair. -/
theorem Exchange.remove {i : ℕ} {p : HashPair ν} {key : HashKey} (hwf : ht'.WF) (hi : i < mclHashMaxSize)
    (hu : pairUnder key (ht.bucket i) = some p)
    (hb : ht'.bucket = Function.update ht.bucket i (dropUnder key (ht.bucket i)))
    (hfreed : ans.freed = destroyPair p (op.freeFn ht)) (hdata : op.data? = none) :
    Exchange ht op ans (some ht') [p] [] :=
  ⟨wf_some hwf, ⟨ht'.pairs, Hash.pairs_remove hi hu hb, by simp⟩, by simp [hfreed],
    .inl ⟨rfl, fun hc => absurd hdata hc⟩⟩

theorem insert_exchange (h : ht.WF) {key : HashKey} (hv : key.Valid) {data : Option ν}
    {subFlg : Bool} {r : ℤ × Hash ν φ × Freed φ ν}
    (he : hashInsert key data ht subFlg (op.freeFn ht) = some r) (hdata : op.data? = data) :
    ∃ gone added, Exchange ht op (answerRet r).1 (some (answerRet r).2) gone added := by
  cases data with
  | none =>
    obtain rfl := Option.some.inj he
    exact ⟨[], [], .keep h rfl rfl fun _ => rfl⟩
  | some d =>
    obtain ⟨-, hcase⟩ := h.hashInsert_cases hv he
    cases hcase with
    | @room i ht' hi hroom hb =>
      obtain ⟨rest, hold, hnew⟩ := Hash.pairs_put (bucketOf_lt hi) hb.bucket
      rw [Hash.WF.pairUnder_copy hv] at hold
      refine ⟨_, [⟨ht.brk, key.copy, some d⟩], wf_some hb.wf, ⟨rest, hold, hnew⟩, ?_,
        .inr ⟨_, rfl, hdata.symm, by simp [hdata], rfl⟩⟩
      cases hu : pairUnder key (ht.bucket i) <;> simp [answerRet]
    | refused hno hb => exact ⟨[], [], .keep hb.wf hb.bucket rfl fun _ => rfl⟩

/-- Every call that is defined exchanges some pairs for others, and releases what it removes with
its free function. -/
theorem execHash_exchange (h : ht.WF) (he : execHash (some ht) op = some (ans, s')) :
    ∃ gone added, Exchange ht op ans s' gone added := by
  cases op with
  | ctrl cmd data =>
    simp only [execHash, Option.some.injEq, Prod.mk.injEq] at he
    obtain ⟨rfl, rfl⟩ := he
    obtain ⟨hwf, hb, -⟩ := h.mclHashCtrl_wf cmd data
    exact ⟨[], [], .keep hwf hb rfl fun hc => absurd rfl hc⟩
  | iterErase it =>
    simp only [execHash, Option.bind_eq_bind, Option.bind_eq_some_iff, Prod.exists,
      Option.some.injEq, Prod.mk.injEq] at he
    obtain ⟨it', ht', freed, herase, rfl, rfl⟩ := he
    rcases h.defHashIterErase_cases herase with ⟨rfl, rfl⟩ | ⟨i, p, hp, rfl, hb⟩
    · exact ⟨[], [], .keep h rfl rfl fun hc => absurd rfl hc⟩
    · have hi := bucketOf_lt (h.placed i p hp).bucketOf
      exact ⟨[p], [], .remove hb.wf hi ((h.distinct i).lookup_of_mem hp) hb.bucket rfl rfl⟩
  | destroy freeFn =>
    obtain ⟨ht', hclean, -⟩ := h.mclHashClean_eq freeFn
    simp only [execHash, mclHashDestroy, hclean, Option.some.injEq, Prod.mk.injEq] at he
    obtain ⟨rfl, rfl⟩ := he
    exact ⟨ht.pairs, [], by simp, ⟨[], by simp, by simp [pairsOf]⟩, rfl, .inl ⟨rfl, fun hc => absurd rfl hc⟩⟩
  | call op =>
    obtain ⟨⟨ans', ht'⟩, hcall, heq⟩ := Option.map_eq_some_iff.mp he
    obtain ⟨rfl, rfl⟩ := Prod.mk.inj heq
    cases op with
    | insert key data freeFn =>
      obtain ⟨r, hins, hr⟩ := Option.map_eq_some_iff.mp hcall
      have hex := insert_exchange h key.2 (show hashInsert key.1 data ht true
        ((HashOp.call (.insert key data freeFn)).freeFn ht) = some r from hins) rfl
      rwa [hr] at hex
    | insertSafe key data =>
      obtain ⟨r, hins, hr⟩ := Option.map_eq_some_iff.mp hcall
      have hex := insert_exchange h key.2 (show hashInsert key.1 data ht false
        ((HashOp.call (.insertSafe key data)).freeFn ht) = some r from hins) rfl
      rwa [hr] at hex
    | delete key freeFn =>
      simp only [execKey, MapOp.map, Option.bind_eq_bind, Option.bind_eq_some_iff,
        Option.some.injEq] at hcall
      obtain ⟨-, -, hdel⟩ := hcall
      cases hs : ht.stored key.1 with
      | none =>
        rw [h.hashDelete_absent hs] at hdel
        obtain ⟨rfl, rfl⟩ := Prod.mk.inj hdel
        exact ⟨[], [], .keep h rfl rfl fun hc => absurd rfl hc⟩
      | some p =>
        obtain ⟨i, hi, hu⟩ := Hash.mem_stored hs
        obtain ⟨ht'', hdel', hb⟩ := h.hashDelete_present hi hu freeFn
        rw [hdel'] at hdel
        obtain ⟨rfl, rfl⟩ := Prod.mk.inj hdel
        exact ⟨[p], [], .remove hb.wf (bucketOf_lt hi) hu hb.bucket rfl rfl⟩
    | find key =>
      simp only [execKey, MapOp.map, Option.bind_eq_bind, Option.bind_eq_some_iff,
        Option.some.injEq] at hcall
      obtain ⟨-, -, hfind⟩ := hcall
      obtain ⟨rfl, rfl⟩ := Prod.mk.inj hfind
      exact ⟨[], [], .keep h rfl rfl fun hc => absurd rfl hc⟩
    | clean freeFn =>
      obtain ⟨ht'', hclean, hb⟩ := h.mclHashClean_eq freeFn
      simp only [execKey, MapOp.map, hclean, Option.some.injEq] at hcall
      obtain ⟨rfl, rfl⟩ := Prod.mk.inj hcall
      refine ⟨ht.pairs, [], wf_some hb.wf, ⟨[], by simp, ?_⟩, rfl,
        .inl ⟨rfl, fun hc => absurd rfl hc⟩⟩
      simp [Hash.pairs_clear hb.bucket]

/-- Every table that any run of calls leads to is well formed. -/
theorem hashMachine_wf {type : DataType} {ops : List (HashOp ν φ)}
    {hist : List (HashOp ν φ × Answer ν φ)}
    (hrun : (hashMachine type).run ops = some (hist, some ht)) : ht.WF := by
  have hinv : ∀ s, (hashMachine type).Reach (fun _ _ => True) hist s →
      ∀ ht : Hash ν φ, s = some ht → ht.WF := by
    intro s hr
    refine hr.invariant (P := fun s => ∀ ht, s = some ht → ht.WF) ?_ ?_
    · exact wf_some (Hash.wf_new type)
    · rintro (_ | ht) op ans s' hP - hs ht' rfl
      · exact absurd hs (by simp [hashMachine, execHash])
      · obtain ⟨gone, added, hex⟩ := execHash_exchange (hP ht rfl) hs
        exact hex.wf ht' rfl
  exact hinv _ (Machine.reach_of_run hrun) ht rfl

omit [DecidableEq ν] in
theorem Hash.WF.inOrder (h : ht.WF) {i : ℕ} {list : MclList (HashPair ν) φ} (hl : ht.tables i = some list) :
    BucketInOrder ht.keyType i list := by
  obtain ⟨-, hstores⟩ := h.lists i list hl
  constructor
  · intro x hx
    rw [hstores.elems] at hx
    obtain ⟨p, hp, rfl⟩ := List.mem_map.mp hx
    have hplaced := h.placed i p hp
    exact ⟨p, rfl, (bucketOf_eq_some.mp hplaced.bucketOf).2, hplaced.type, hplaced.val⟩
  · rw [hstores.elems, List.pairwise_map]
    refine (h.distinct i).imp fun hpq p hp q hq => ?_
    cases hp
    cases hq
    exact hpq
  · rw [hstores.size, hstores.elems, List.length_map]
  · rw [hstores.size]
    exact h.cap i

/-- In every table that any run of calls leads to, with any valid keys. -/
theorem hash_buckets_inOrder {type : DataType} {ops : List (HashOp ν φ)}
    {hist : List (HashOp ν φ × Answer ν φ)} (hrun : (hashMachine type).run ops = some (hist, some ht)) (i : ℕ)
    (list : MclList (HashPair ν) φ) (hl : ht.tables i = some list) :
    i < mclHashMaxSize ∧ BucketInOrder ht.keyType i list := by
  have h := hashMachine_wf hrun
  exact ⟨(h.lists i list hl).1, h.inOrder hl⟩

end Machine

/-- Two keys of one bucket, one of them inserted again, and a third one deleted. -/
theorem hash_buckets_inOrder_two :
    ∃ ops hist, ∃ ht : Hash ℕ Unit, ∃ list, (hashMachine .int).run ops = some (hist, some ht) ∧
      ht.tables 142 = some list ∧ list.listSz = 2 ∧ 142 < mclHashMaxSize ∧ BucketInOrder ht.keyType 142 list := by
  obtain ⟨hist, s, hrun, htwo⟩ := (hashMachine .int).exists_of_run
    [.call (.insert ⟨.int 1, trivial⟩ (some 7) none), .call (.insertSafe ⟨.int 1022, trivial⟩ (some 8)),
      .call (.insertSafe ⟨.int 2043, trivial⟩ (some 9)), .call (.insert ⟨.int 1, trivial⟩ (some 5) (some ())),
      .call (.delete ⟨.int 2043, trivial⟩ none)]
    (fun r => r.2.any fun ht : Hash ℕ Unit => (ht.tables 142).any fun list => list.listSz == 2) (by decide +kernel)
  obtain ⟨ht, rfl, hbucket⟩ := (Option.any_eq_true _ _).mp htwo
  obtain ⟨list, hl, hsize⟩ := (Option.any_eq_true _ _).mp hbucket
  exact ⟨_, hist, ht, list, hrun, hl, beq_iff_eq.mp hsize, hash_buckets_inOrder hrun 142 list hl⟩

end Mcl
