import Mcl.Util.HashMemory

/-! The code in memory against the tables of pairs, call by call and over whole lives of a table. -/
namespace Mcl.HashCode
open Mcl.Library Mcl.Library.HProp ListBlocks StringCode

variable {ν φ : Type}

/-- The table `h` in memory, with a list at each of the given indices. -/
def tableOf (ht : Addr) (lists : Finset ℕ) (h : Hash ν φ) : HProp (Cell ν φ) :=
  tableAt ht h.keyType h.eraseFn lists h.bucket

/-- An insert of a value makes the list that it looks at. -/
def insertLists (key : HashKey) (lists : Finset ℕ) : Finset ℕ :=
  (bucketOf key).elim lists fun i => insert i lists

variable {lists : Finset ℕ} {ht keyData htKey : Addr} {h h' : Hash ν φ} {key : HashKey} {freeFn : Option φ} {K : HProp (Cell ν φ)}

theorem tableOf_becomes {t : ℕ → List (HashPair ν)} (hb : Hash.Becomes h h' t) :
    (tableOf ht lists h' : HProp (Cell ν φ)) = tableAt ht h.keyType h.eraseFn lists t := by
  rw [tableOf, hb.keyType, hb.eraseFn, hb.bucket]

/-! Each function does what the one on tables of pairs does. -/

theorem valid_of_wf (hwf : h.WF) : ∀ i, ∀ q ∈ h.bucket i, q.key.Valid := fun i q hq => (hwf.placed i q hq).valid

section Functions
variable [DecidableEq ν] (hwf : h.WF) (hkey : key.Valid)
include hwf hkey

theorem hashInsert_refines {data : Option ν} {subFlg : Bool} {ret : ℤ} {freed : Freed φ ν}
    (hins : Mcl.hashInsert key data h subFlg freeFn = some (ret, h', freed)) :
    Gives (tableOf ht lists h * dataAt keyData key) (hashInsert keyData key.type data ht subFlg freeFn) (ret, freed)
      (tableOf ht (data.elim lists fun _ => insertLists key lists) h' * dataAt keyData key) := by
  unfold insertLists
  cases data with
  | none =>
    obtain ⟨rfl, rfl, rfl⟩ : 0 = ret ∧ h = h' ∧ [] = freed := by simpa [Mcl.hashInsert] using hins
    exact Reads.pure
  | some v =>
    obtain ⟨htype, hcase⟩ := hwf.hashInsert_cases hkey hins
    cases hcase with
    | room hi hroom hb =>
      rw [tableOf_becomes hb, hi]
      refine Spec.post (hashInsert_room hkey htype v h.brk (valid_of_wf hwf) hi (hwf.cap _) hroom rfl) fun r => ?_
      exact le_of_eq (mul_assoc _ _ _)
    | refused hno hb =>
      have hkept : ∀ m ∈ tableOf ht lists h * dataAt keyData key,
          ((bucketOf key).elim lists fun i => insert i lists) = lists := by
        intro m hm
        cases hi : bucketOf key with
        | none => rfl
        | some i => exact Finset.insert_eq_of_mem (mem_lists (bucketOf_lt hi) (ne_nil_of_not_room (hno i hi)) hm)
      refine Spec.known hkept fun hsame => ?_
      rw [Option.elim_some, hsame, tableOf_becomes hb]
      exact hashInsert_refused hkey htype v (valid_of_wf hwf) hno

omit hkey in
theorem hashInsert_becomes (hkey : key.Valid) {data : Option ν} {subFlg : Bool} {ret : ℤ} {freed : Freed φ ν}
    (hins : Mcl.hashInsert key data h subFlg freeFn = some (ret, h', freed)) : ∃ t, Hash.Becomes h h' t := by
  cases data with
  | none =>
    cases hins
    exact ⟨_, hwf.keep⟩
  | some v =>
    obtain ⟨-, hcase⟩ := hwf.hashInsert_cases hkey hins
    cases hcase with
    | room _ _ hb => exact ⟨_, hb⟩
    | refused _ hb => exact ⟨_, hb⟩

theorem hashDelete_refines {ret : ℤ} {freed : Freed φ ν}
    (hdel : Mcl.hashDelete (Mcl.calcHash key) key h freeFn = (ret, h', freed)) :
    Gives (tableOf ht lists h * keyAt htKey keyData key) (hashDelete (Mcl.calcHash key) htKey ht freeFn) (ret, freed)
      (tableOf ht lists h' * keyAt htKey keyData key) := by
  cases hs : h.stored key with
  | none =>
    cases (hwf.hashDelete_absent hs freeFn).symm.trans hdel
    refine hashDelete_absent hkey (valid_of_wf hwf) fun i hi => ?_
    rwa [← Hash.stored_of_bucketOf hi]
  | some p =>
    obtain ⟨i, hi, hu⟩ := Hash.mem_stored hs
    obtain ⟨h'', hdel', hb⟩ := hwf.hashDelete_present hi hu freeFn
    cases hdel'.symm.trans hdel
    rw [tableOf_becomes hb]
    refine Spec.post (hashDelete_present hkey (valid_of_wf hwf) hi hu) fun r => ?_
    exact le_of_eq (mul_left_comm _ _ _)

omit [DecidableEq ν] in
theorem hashFind_refines : Reads (tableOf ht lists h * keyAt htKey keyData key) (hashFind (Mcl.calcHash key) htKey ht)
    (Mcl.hashFind (Mcl.calcHash key) key h) := by
  rw [hwf.hashFind_eq]
  exact hashFind_reads hkey (valid_of_wf hwf)

end Functions

/-! The functions that set up a key. -/

section Keys
variable {α : Type} {P P' : HProp (Cell ν φ)} {v : α}

theorem withInt_gives {i : BitVec 32} {body : Addr → MclM ν φ α}
    (hbody : ∀ keyp, Gives (P * dataAt keyp (.int i)) (body keyp) v (P' * dataAt keyp (.int i))) :
    Gives P (withInt i body) v P' := by
  refine Spec.alloc_bind fun keyp => ?_
  rw [mul_comm]
  refine (hbody keyp).call ?_
  rw [mul_comm]
  exact Spec.free_bind (Spec.ret rfl)

theorem withHtKey_gives {body : Addr → MclM ν φ α}
    (hbody : ∀ htKey, Gives (P * keyAt htKey keyData key) (body htKey) v (P' * keyAt htKey keyData key)) :
    Gives (P * dataAt keyData key) (withHtKey key.type keyData body) v (P' * dataAt keyData key) := by
  refine Spec.alloc_bind fun htKey => ?_
  rw [mul_left_comm]
  refine (hbody htKey).call ?_
  rw [keyAt, mul_left_comm]
  exact Spec.free_bind (Spec.ret rfl)

theorem assertKeyType_reads {type : DataType} (htype : h.keyType = type) :
    Reads (tableOf ht lists h * K : HProp (Cell ν φ)) (assertKeyType ht type) () := by
  refine table_head fun tables => ?_
  rw [if_pos htype]
  exact Reads.pure

end Keys

/-! Calls as a client makes them, with string keys of its own. -/

/-- The strings of the client. -/
structure Pool where
  strs : List (Addr × MclString)
  valid : ∀ x ∈ strs, x.2.Valid

/-- A key as it is passed: an `int`, or a pointer to a string of the client. -/
inductive KeyArg (pool : Pool) where
  | int (i : BitVec 32)
  | str (x : { x // x ∈ pool.strs })

variable {pool : Pool}

def KeyArg.hashKey : KeyArg pool → { key : HashKey // key.Valid }
  | int i => ⟨.int i, trivial⟩
  | str x => ⟨.str x.1.2, pool.valid x.1 x.2⟩

def poolAt (pool : Pool) : HProp (Cell ν φ) := (pool.strs.map fun x => strAt x.1 x.2).prod

theorem pool_gives {α : Type} {P P' : HProp (Cell ν φ)} {c : MclM ν φ α} {v : α} (x : { x // x ∈ pool.strs })
    (hc : Gives (P * dataAt x.1.1 (.str x.1.2)) c v (P' * dataAt x.1.1 (.str x.1.2))) :
    Gives (P * poolAt pool) c v (P' * poolAt pool) := by
  obtain ⟨pre, suf, hstrs⟩ := List.append_of_mem x.2
  rw [poolAt, hstrs, prod_split, ← mul_assoc, ← mul_assoc]
  exact hc.frame _

/-- A function given a key of either kind. -/
def withKey {α : Type} (key : KeyArg pool) (body : Addr → MclM ν φ α) : MclM ν φ α :=
  match key with
  | .int i => withInt i body
  | .str x => body x.1.1

theorem withKey_gives {α : Type} {P P' : HProp (Cell ν φ)} {body : Addr → MclM ν φ α} {v : α} (key : KeyArg pool)
    (hbody : ∀ keyp, Gives (P * dataAt keyp key.hashKey.1) (body keyp) v (P' * dataAt keyp key.hashKey.1)) :
    Gives (P * poolAt pool) (withKey key body) v (P' * poolAt pool) := by
  cases key with
  | int i => exact (withInt_gives hbody).frame _
  | str x => exact pool_gives x (hbody x.1.1)

def answer (r : ℤ × Freed φ ν) : Answer ν φ := ⟨r.1, none, r.2⟩

/-- The calls on a table that take or return pairs. -/
def execMap (ht : Addr) : MapOp (KeyArg pool) ν φ → MclM ν φ (Answer ν φ)
  | .insert (.int i) data freeFn => answer <$> mclIntHashInsert i data ht freeFn
  | .insert (.str x) data freeFn => answer <$> mclStrHashInsert x.1.1 data ht freeFn
  | .insertSafe (.int i) data => answer <$> mclIntHashInsertSafe i data ht
  | .insertSafe (.str x) data => answer <$> mclStrHashInsertSafe x.1.1 data ht
  | .delete (.int i) freeFn => answer <$> mclIntHashDelete i ht freeFn
  | .delete (.str x) freeFn => answer <$> mclStrHashDelete x.1.1 ht freeFn
  | .find (.int i) => (fun found => ⟨0, found, []⟩) <$> mclIntHashFind i ht
  | .find (.str x) => (fun found => ⟨0, found, []⟩) <$> mclStrHashFind x.1.1 ht
  | .clean freeFn => (fun freed => ⟨0, none, freed⟩) <$> mclHashClean ht freeFn

section Calls
variable [DecidableEq ν]

theorem insert_call (hwf : h.WF) (key : KeyArg pool) {data : Option ν} {subFlg : Bool} {ans : Answer ν φ}
    (hins : (Mcl.hashInsert key.hashKey.1 data h subFlg freeFn).map answerRet = some (ans, h')) :
    Gives (tableOf ht lists h * poolAt pool)
      (answer <$> withKey key fun keyp => hashInsert keyp key.hashKey.1.type data ht subFlg freeFn) ans
      (tableOf ht (data.elim lists fun _ => insertLists key.hashKey.1 lists) h' * poolAt pool) := by
  obtain ⟨⟨ret, h'', freed⟩, hins, heq⟩ := Option.map_eq_some_iff.mp hins
  cases heq
  exact (withKey_gives key fun keyp => hashInsert_refines hwf key.hashKey.2 hins).map answer

omit [DecidableEq ν] in
/-- What a delete and a find do before they look for the bucket. -/
theorem int_search {α : Type} {v : α} (i : BitVec 32) (htype : h.keyType = .int) {body : Addr → MclM ν φ α}
    (hbody : ∀ keyp htKey, Gives (tableOf ht lists h * keyAt htKey keyp (.int i)) (body htKey) v
      (tableOf ht lists h' * keyAt htKey keyp (.int i))) :
    Gives (tableOf ht lists h * poolAt pool) (withInt i fun keyp => do
      assertKeyType ht .int
      withHtKey .int keyp body) v (tableOf ht lists h' * poolAt pool) := by
  refine (withInt_gives fun keyp => (assertKeyType_reads htype).bind ?_).frame _
  exact withHtKey_gives fun htKey => hbody keyp htKey

omit [DecidableEq ν] in
theorem str_search {α : Type} {v : α} (x : { x // x ∈ pool.strs }) (htype : h.keyType = .str)
    (body : BitVec 32 → Addr → MclM ν φ α)
    (hbody : ∀ htKey, Gives (tableOf ht lists h * keyAt htKey x.1.1 (.str x.1.2)) (body (Mcl.calHashStr x.1.2) htKey) v
      (tableOf ht lists h' * keyAt htKey x.1.1 (.str x.1.2))) :
    Gives (tableOf ht lists h * poolAt pool) (do
      assertKeyType ht .str
      let hash ← calHashStr x.1.1
      withHtKey .str x.1.1 (body hash)) v (tableOf ht lists h' * poolAt pool) := by
  have hhash : Reads (dataAt x.1.1 (.str x.1.2) : HProp (Cell ν φ)) (calHashStr x.1.1) (Mcl.calHashStr x.1.2) :=
    calHashStr_reads (pool.valid x.1 x.2)
  exact pool_gives x ((assertKeyType_reads htype).bind (hhash.right.bind (withHtKey_gives hbody)))

omit [DecidableEq ν] in
theorem type_of_guard {type : DataType} {u : Unit} (hg : (guard (h.keyType = type) : Option Unit) = some u) :
    h.keyType = type := by
  by_contra hne
  simp [guard, hne] at hg

/-- The indices that have a list after a call, if these had one before. -/
def listsAfter (lists : Finset ℕ) : MapOp (KeyArg pool) ν φ → Finset ℕ
  | .insert key data _ | .insertSafe key data => data.elim lists fun _ => insertLists key.hashKey.1 lists
  | .delete _ _ | .find _ => lists
  | .clean _ => ∅

theorem execMap_refines (hwf : h.WF) {op : MapOp (KeyArg pool) ν φ} {ans : Answer ν φ}
    (hs : execKey h (op.map (·.hashKey.1)) = some (ans, h')) :
    Gives (tableOf ht lists h * poolAt pool) (execMap ht op) ans (tableOf ht (listsAfter lists op) h' * poolAt pool) := by
  cases op with
  | insert key data freeFn => cases key <;> exact insert_call hwf _ hs
  | insertSafe key data => cases key <;> exact insert_call hwf _ hs
  | delete key freeFn =>
    simp only [MapOp.map, execKey, Option.bind_eq_bind, Option.bind_eq_some_iff, Option.some.injEq] at hs
    obtain ⟨_, hguard, hdel⟩ := hs
    have htype := type_of_guard hguard
    cases hres : Mcl.hashDelete (Mcl.calcHash key.hashKey.1) key.hashKey.1 h freeFn with
    | mk ret r =>
      rw [hres] at hdel
      cases hdel
      cases key with
      | int i =>
        have hkey : HashKey.Valid (.int i) := trivial
        exact (int_search i htype fun keyp htKey => hashDelete_refines hwf hkey hres).map answer
      | str x =>
        have hkey : HashKey.Valid (.str x.1.2) := pool.valid x.1 x.2
        exact (str_search x htype (fun hash htKey => hashDelete hash.toInt htKey ht freeFn)
          fun htKey => hashDelete_refines hwf hkey hres).map answer
  | find key =>
    simp only [MapOp.map, execKey, Option.bind_eq_bind, Option.bind_eq_some_iff, Option.some.injEq] at hs
    obtain ⟨_, hguard, hfind⟩ := hs
    have htype := type_of_guard hguard
    cases hfind
    cases key with
    | int i =>
      have hkey : HashKey.Valid (.int i) := trivial
      exact (int_search i htype fun keyp htKey => hashFind_refines hwf hkey).map _
    | str x =>
      have hkey : HashKey.Valid (.str x.1.2) := pool.valid x.1 x.2
      exact (str_search x htype (fun hash htKey => hashFind hash.toInt htKey ht)
        fun htKey => hashFind_refines hwf hkey).map _
  | clean freeFn =>
    obtain ⟨h'', hclean, hb⟩ := hwf.mclHashClean_eq freeFn
    simp only [MapOp.map, execKey, hclean, Option.some.injEq] at hs
    cases hs
    have hgives : Gives (tableOf ht lists h : HProp (Cell ν φ)) (mclHashClean ht freeFn)
        (h.pairs.flatMap (Mcl.destroyPair · freeFn)) (tableOf ht ∅ h') := by
      rw [tableOf_becomes hb]
      exact Spec.post mclHashClean_spec fun freed => mul_le_mul_right clearedAt_le _
    exact (hgives.frame _).map _

omit [DecidableEq ν] in
theorem mclHashCtrl_refines (cmd : DsCtrlCmd) (data : Option φ) : Gives (tableOf ht lists h : HProp (Cell ν φ))
    (mclHashCtrl cmd data ht) (Mcl.mclHashCtrl cmd data h).1 (tableOf ht lists (Mcl.mclHashCtrl cmd data h).2) := by
  cases data with
  | none => exact Reads.pure
  | some freeFn => cases cmd <;> exact mclHashCtrl_spec _ freeFn

/-! Whole lives. -/

/-- A call on a table, short of its end. -/
inductive Call (pool : Pool) (ν φ : Type) where
  | map (op : MapOp (KeyArg pool) ν φ)
  | ctrl (cmd : DsCtrlCmd) (data : Option φ)

def Call.op : Call pool ν φ → HashOp ν φ
  | map op => .call (op.map KeyArg.hashKey)
  | ctrl cmd data => .ctrl cmd data

def Call.listsAfter (lists : Finset ℕ) : Call pool ν φ → Finset ℕ
  | map op => HashCode.listsAfter lists op
  | ctrl _ _ => lists

def exec (ht : Addr) : Call pool ν φ → MclM ν φ (Answer ν φ)
  | .map op => execMap ht op
  | .ctrl cmd data => (fun ret => ⟨ret, none, []⟩) <$> mclHashCtrl cmd data ht

/-- A table made and used, with all that the calls returned. -/
def use (type : DataType) (calls : List (Call pool ν φ)) : MclM ν φ (Option (Addr × List (Answer ν φ))) := do
  match ← mclHashNew type with
  | none => pure none
  | some ht => do
    let answers ← calls.mapM (exec ht)
    pure (some (ht, answers))

/-- The same with the end of the table. -/
def life (type : DataType) (calls : List (Call pool ν φ)) (freeFn : Option φ) :
    MclM ν φ (Option (List (Answer ν φ) × Freed φ ν)) := do
  match ← use type calls with
  | none => pure none
  | some (ht, answers) => do
    let freed ← mclHashDestroy ht freeFn
    pure (some (answers, freed))

theorem exec_refines (hwf : h.WF) {call : Call pool ν φ} {ans : Answer ν φ}
    (hs : execHash (some h) call.op = some (ans, some h')) :
    Gives (tableOf ht lists h * poolAt pool) (exec ht call) ans (tableOf ht (call.listsAfter lists) h' * poolAt pool) := by
  cases call with
  | map op =>
    obtain ⟨⟨ans', h''⟩, hcall, heq⟩ := Option.map_eq_some_iff.mp hs
    cases heq
    refine execMap_refines hwf ?_
    cases op <;> exact hcall
  | ctrl cmd data =>
    cases hs
    exact ((mclHashCtrl_refines cmd data).frame _).map _

/-- A call leaves a table that is in order, with keys of the same type. -/
theorem execKey_becomes (hwf : h.WF) {op : MapOp { key : HashKey // key.Valid } ν φ} {ans : Answer ν φ}
    (hs : execKey h (op.map Subtype.val) = some (ans, h')) : ∃ t, Hash.Becomes h h' t := by
  have hinsert : ∀ (key : { key : HashKey // key.Valid }) (data : Option ν) (subFlg : Bool) (freeFn : Option φ),
      (Mcl.hashInsert key.1 data h subFlg freeFn).map answerRet = some (ans, h') → ∃ t, Hash.Becomes h h' t := by
    intro key data subFlg freeFn hs
    obtain ⟨⟨ret, h'', freed⟩, hins, heq⟩ := Option.map_eq_some_iff.mp hs
    cases heq
    exact hashInsert_becomes hwf key.2 hins
  cases op with
  | insert key data freeFn => exact hinsert key data true freeFn hs
  | insertSafe key data => exact hinsert key data false none hs
  | delete key freeFn =>
    simp only [MapOp.map, execKey, Option.bind_eq_bind, Option.bind_eq_some_iff, Option.some.injEq] at hs
    obtain ⟨-, -, hdel⟩ := hs
    cases hst : h.stored key.1 with
    | none =>
      rw [hwf.hashDelete_absent hst] at hdel
      cases hdel
      exact ⟨_, hwf.keep⟩
    | some p =>
      obtain ⟨i, hi, hu⟩ := Hash.mem_stored hst
      obtain ⟨h'', hdel', hb⟩ := hwf.hashDelete_present hi hu freeFn
      rw [hdel'] at hdel
      cases hdel
      exact ⟨_, hb⟩
  | find key =>
    simp only [MapOp.map, execKey, Option.bind_eq_bind, Option.bind_eq_some_iff, Option.some.injEq] at hs
    obtain ⟨-, -, hfind⟩ := hs
    cases hfind
    exact ⟨_, hwf.keep⟩
  | clean freeFn =>
    obtain ⟨h'', hclean, hb⟩ := hwf.mclHashClean_eq freeFn
    simp only [MapOp.map, execKey, hclean, Option.some.injEq] at hs
    cases hs
    exact ⟨_, hb⟩

theorem exec_stays (hwf : h.WF) {call : Call pool ν φ} {ans : Answer ν φ} {s' : Option (Hash ν φ)}
    (hs : execHash (some h) call.op = some (ans, s')) : ∃ h', s' = some h' ∧ h'.WF ∧ h'.keyType = h.keyType := by
  cases call with
  | map op =>
    obtain ⟨⟨ans', h''⟩, hcall, heq⟩ := Option.map_eq_some_iff.mp hs
    cases heq
    obtain ⟨t, hb⟩ := execKey_becomes hwf hcall
    exact ⟨h'', rfl, hb.wf, hb.keyType⟩
  | ctrl cmd data =>
    cases hs
    obtain ⟨hwf', -, htype⟩ := hwf.mclHashCtrl_wf cmd data
    exact ⟨_, rfl, hwf', htype⟩

theorem use_spec {type : DataType} (htype : availableHashType type = true) {calls : List (Call pool ν φ)}
    {hist : List (HashOp ν φ × Answer ν φ)} (hrun : (hashMachine type).run (calls.map Call.op) = some (hist, some h)) :
    (h.WF ∧ h.keyType = type) ∧ Spec (poolAt pool) (use type calls) fun r =>
      ⨆ ht, fact (r = some (ht, hist.map Prod.snd)) * (tableOf ht (calls.foldl Call.listsAfter ∅) h * poolAt pool) := by
  let ok : Option (Hash ν φ) → Prop := fun s => ∃ h, s = some h ∧ h.WF ∧ h.keyType = type
  let R : Addr → Finset ℕ → Option (Hash ν φ) → HProp (Cell ν φ) := fun ht lists s =>
    s.elim ⊥ fun h => tableOf ht lists h * poolAt pool
  have hstep : ∀ ht lists s (call : Call pool ν φ) ans s', ok s → (hashMachine type).step s call.op = some (ans, s') →
      ok s' ∧ Gives (R ht lists s) (exec ht call) ans (R ht (call.listsAfter lists) s') := by
    rintro ht lists _ call ans s' ⟨h, rfl, hwf, hkeys⟩ hs
    obtain ⟨h', rfl, hwf', hkeys'⟩ := exec_stays hwf hs
    exact ⟨⟨h', rfl, hwf', hkeys'.trans hkeys⟩, exec_refines hwf hs⟩
  have hcalls := fun ht => Gives.runFrom (hstep ht) ⟨_, rfl, Hash.wf_new type, rfl⟩ hrun ∅
  obtain ⟨_, heq, hwf⟩ := (hcalls 0).1
  cases heq
  refine ⟨hwf, ?_⟩
  have hnew := (mclHashNew_spec (ν := ν) (φ := φ) htype).frame (poolAt pool)
  rw [one_mul] at hnew
  refine hnew.bind fun r => Spec.exists_mul fun ht => ?_
  rw [mul_assoc]
  refine Spec.fact_mul fun hr => ?_
  subst hr
  have hstart : clearedAt ht type none ≤ (tableOf ht ∅ (Hash.new type) : HProp (Cell ν φ)) := clearedAt_le
  refine Spec.pre (mul_le_mul_left hstart _) ((hcalls ht).2.call (Spec.pure ?_))
  exact le_iSup_of_le ht (le_fact_mul rfl)

theorem life_gives {type : DataType} (htype : availableHashType type = true) {calls : List (Call pool ν φ)}
    {hist : List (HashOp ν φ × Answer ν φ)} (hrun : (hashMachine type).run (calls.map Call.op) = some (hist, some h))
    (freeFn : Option φ) :
    Gives (poolAt pool) (life type calls freeFn) (some (hist.map Prod.snd, (Mcl.mclHashDestroy h freeFn).2)) (poolAt pool) := by
  obtain ⟨⟨hwf, -⟩, huse⟩ := use_spec htype hrun
  refine huse.bind fun r => Spec.exists_pre fun ht => Spec.fact_mul fun hr => ?_
  subst hr
  obtain ⟨h', hclean, -⟩ := hwf.mclHashClean_eq freeFn
  have hfreed : (Mcl.mclHashDestroy h freeFn).2 = h.pairs.flatMap (Mcl.destroyPair · freeFn) := by
    rw [Mcl.mclHashDestroy, hclean]
  refine Spec.call mclHashDestroy_spec fun freed => Spec.fact_mul fun heq => ?_
  rw [hfreed, heq]
  exact Spec.ret rfl

/-- Wherever `malloc` places its blocks, and whatever else is in memory. -/
theorem life_runs {type : DataType} (htype : availableHashType type = true) {calls : List (Call pool ν φ)}
    {hist : List (HashOp ν φ × Answer ν φ)} (hrun : (hashMachine type).run (calls.map Call.op) = some (hist, some h))
    (freeFn : Option φ) (malloc : Malloc (Cell ν φ)) (m : Memory (Cell ν φ)) (others : Heap (Cell ν φ))
    (hm : m.blocks ∈ poolAt pool * {others}) :
    ∃ m', life type calls freeFn malloc m =
        some (some (hist.map Prod.snd, (Mcl.mclHashDestroy h freeFn).2), m') ∧
      m'.blocks ∈ poolAt pool * {others} := by
  obtain ⟨r, m', hlife, hm'⟩ := life_gives htype hrun freeFn malloc {others} m hm
  rw [mul_assoc] at hm'
  obtain ⟨rfl, hblocks⟩ := mem_fact_mul.mp hm'
  exact ⟨m', hlife, hblocks⟩

def noStrs : Pool := ⟨[], fun _ hx => absurd hx List.not_mem_nil⟩

/-- A bucket with two pairs, one of them stored twice and the other one deleted, and one more bucket. -/
def someCalls : List (Call noStrs ℕ Unit) :=
  [.map (.insert (.int 1) (some 7) none), .map (.insertSafe (.int 1022) (some 8)), .ctrl .registEraseFn (some ()),
    .map (.insert (.int 1) (some 5) (some ())), .map (.insertSafe (.int 3) (some 9)), .map (.delete (.int 1022) none)]

theorem calls_run (calls : List (Call noStrs ℕ Unit)) (n : ℕ)
    (hlen : (((hashMachine .int).run (calls.map Call.op)).any fun r =>
      r.2.any fun h : Hash ℕ Unit => h.pairs.length == n) = true) :
    ∃ hist, ∃ h : Hash ℕ Unit, (hashMachine .int).run (calls.map Call.op) = some (hist, some h) ∧
      h.pairs.length = n := by
  obtain ⟨hist, s, hrun, htwo⟩ := (hashMachine .int).exists_of_run (calls.map Call.op)
    (fun r => (r.2.any fun h : Hash ℕ Unit => h.pairs.length == n) = true) (by simpa using hlen)
  obtain ⟨h, rfl, hlen⟩ := (Option.any_eq_true _ _).mp htwo
  exact ⟨hist, h, hrun, beq_iff_eq.mp hlen⟩

theorem noBlocks_mem : (∅ : Heap (Cell ℕ Unit)) ∈ poolAt noStrs * ({∅} : HProp (Cell ℕ Unit)) := by
  change _ ∈ (1 : HProp (Cell ℕ Unit)) * _
  rw [one_mul]
  rfl

theorem life_runs_two : ∃ hist, ∃ h : Hash ℕ Unit, ∃ m' : Memory (Cell ℕ Unit),
    (hashMachine .int).run (someCalls.map Call.op) = some (hist, some h) ∧ h.pairs.length = 2 ∧
      life .int someCalls (some ()) (Malloc.behind _) ⟨∅, 0⟩ =
        some (some (hist.map Prod.snd, (Mcl.mclHashDestroy h (some ())).2), m') ∧
      m'.blocks ∈ poolAt noStrs * {∅} := by
  obtain ⟨hist, h, hrun, htwo⟩ := calls_run someCalls 2 (by decide +kernel)
  obtain ⟨m', hlife, hblocks⟩ := life_runs rfl hrun (some ()) (Malloc.behind _) ⟨∅, 0⟩ ∅ noBlocks_mem
  exact ⟨hist, h, m', hrun, htwo, hlife, hblocks⟩

/-- The memory that a table takes, at any point of its life. The lists are those behind the pointers of
`tables` that are not NULL: one for each index that an insert has come to since the last `mcl_hash_clean`. -/
theorem use_blocks {type : DataType} (htype : availableHashType type = true) {calls : List (Call pool ν φ)}
    {hist : List (HashOp ν φ × Answer ν φ)} (hrun : (hashMachine type).run (calls.map Call.op) = some (hist, some h))
    (malloc : Malloc (Cell ν φ)) (m : Memory (Cell ν φ)) (others : Heap (Cell ν φ))
    (hm : m.blocks ∈ poolAt pool * {others}) :
    ∃ ht m' tables slots, use type calls malloc m = some (some (ht, hist.map Prod.snd), m') ∧
      m'.blocks.lookup ht = some (.hash ⟨tables, mclHashMaxSize, type, h.eraseFn⟩) ∧
      m'.blocks.lookup tables = some (.tables mclHashMaxSize slots) ∧
      listsOf slots = calls.foldl Call.listsAfter ∅ ∧ (∀ i < mclHashMaxSize, h.bucket i ≠ [] → i ∈ listsOf slots) ∧
      m'.blocks.keys.card =
        m.blocks.keys.card + 2 + (listsOf slots).card + (3 + dataBlocks type) * h.pairs.length := by
  obtain ⟨⟨hwf, hkeys⟩, hspec⟩ := use_spec htype hrun
  obtain ⟨r, m', huse, hafter⟩ := hspec malloc {others} m hm
  obtain ⟨ht, hafter⟩ := mem_iSup_mul.mp hafter
  rw [mul_assoc, mem_fact_mul, mul_assoc] at hafter
  obtain ⟨rfl, h₁, h₂, hd, heq, htable, hrest⟩ := hafter
  have hsized : Sized (poolAt pool * {others} : HProp (Cell ν φ)) (2 * pool.strs.length + others.keys.card) :=
    (Sized.prod fun _ _ => strAt_sized _ _).mul (Sized.single others)
  have hcard := tableAt_card (fun i p hp => (hwf.placed i p hp).type) htable
  have hlists := fun i hi hne => mem_lists (i := i) hi hne (mul_one (tableOf ht _ h) ▸ htable)
  obtain ⟨tables, slots, hslots, hhead, -⟩ := of_mem_tableAt htable
  refine ⟨ht, m', tables, slots, huse, ?_, ?_, hslots, ?_, ?_⟩
  · rw [heq, ← hkeys]
    exact lookup_union (lookup_pts hhead)
  · rw [slotsAt, mul_left_comm] at hhead
    rw [heq]
    exact lookup_union (lookup_pts hhead)
  · rw [hslots]
    exact hlists
  · rw [heq, card_union hd, hcard, hsized h₂ hrest, hsized _ hm, hkeys, hslots, Hash.pairs]
    omega

/-- Two pairs are left in two buckets, four blocks each. Where `mcl_hash_clean` follows, neither list is. -/
theorem use_blocks_two :
    (∃ ht, ∃ m' : Memory (Cell ℕ Unit), ∃ answers tables slots,
      use .int someCalls (Malloc.behind _) ⟨∅, 0⟩ = some (some (ht, answers), m') ∧
        m'.blocks.lookup tables = some (.tables mclHashMaxSize slots) ∧ listsOf slots = {142, 426} ∧
        m'.blocks.keys.card = 2 + 2 + 4 * 2) ∧
      ∃ ht, ∃ m' : Memory (Cell ℕ Unit), ∃ answers tables slots,
        use .int (someCalls ++ [.map (.clean none)]) (Malloc.behind _) ⟨∅, 0⟩ = some (some (ht, answers), m') ∧
          m'.blocks.lookup tables = some (.tables mclHashMaxSize slots) ∧ listsOf slots = ∅ ∧
          m'.blocks.keys.card = 2 := by
  constructor
  · obtain ⟨hist, h, hrun, htwo⟩ := calls_run someCalls 2 (by decide +kernel)
    obtain ⟨ht, m', tables, slots, huse, -, htables, hlists, -, hcard⟩ :=
      use_blocks rfl hrun (Malloc.behind _) ⟨∅, 0⟩ ∅ noBlocks_mem
    have hslots : listsOf slots = {142, 426} := hlists.trans (by decide +kernel)
    rw [htwo, hslots] at hcard
    exact ⟨ht, m', _, tables, slots, huse, htables, hslots, hcard⟩
  · obtain ⟨hist, h, hrun, hnone⟩ := calls_run (someCalls ++ [.map (.clean none)]) 0 (by decide +kernel)
    obtain ⟨ht, m', tables, slots, huse, -, htables, hlists, -, hcard⟩ :=
      use_blocks rfl hrun (Malloc.behind _) ⟨∅, 0⟩ ∅ noBlocks_mem
    have hslots : listsOf slots = ∅ := hlists.trans (by decide +kernel)
    rw [hnone, hslots] at hcard
    exact ⟨ht, m', _, tables, slots, huse, htables, hslots, hcard⟩

end Calls

end Mcl.HashCode
