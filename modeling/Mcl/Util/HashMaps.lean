import Mcl.Library.Runs
import Mcl.Util.HashRows

/-! Whole runs of hash table calls against the finite map they are meant to be. -/
namespace Mcl
open Mcl.Library

variable {κ κ' ν φ : Type}

/-- The calls on a table with keys of type `κ`. -/
inductive MapOp (κ ν φ : Type) where
  | insert (key : κ) (data : Option ν) (freeFn : Option φ)
  | insertSafe (key : κ) (data : Option ν)
  | delete (key : κ) (freeFn : Option φ)
  | find (key : κ)
  | clean (freeFn : Option φ)

/-- What a call returns, and the destructor calls it makes. -/
structure Answer (ν φ : Type) where
  ret : ℤ
  found : Option ν
  freed : Freed φ ν

def answerRet : ℤ × Hash ν φ × Freed φ ν → Answer ν φ × Hash ν φ
  | (ret, ht, freed) => (⟨ret, none, freed⟩, ht)

def answerFound (ht : Hash ν φ) (found : Option ν) : Answer ν φ × Hash ν φ := (⟨0, found, []⟩, ht)

def answerFreed : Hash ν φ × Freed φ ν → Answer ν φ × Hash ν φ
  | (ht, freed) => (⟨0, none, freed⟩, ht)

namespace MapOp

def map (f : κ → κ') : MapOp κ ν φ → MapOp κ' ν φ
  | insert key data freeFn => insert (f key) data freeFn
  | insertSafe key data => insertSafe (f key) data
  | delete key freeFn => delete (f key) freeFn
  | find key => find (f key)
  | clean freeFn => clean freeFn

def key? : MapOp κ ν φ → Option κ
  | insert key _ _ | insertSafe key _ | delete key _ | find key => some key
  | clean _ => none

/-- The key of an insert whose data is not NULL. -/
def stores? : MapOp κ ν φ → Option κ
  | insert key (some _) _ | insertSafe key (some _) => some key
  | _ => none

/-- When a call is to return 1, by whether its key is present and whether its bucket is full. -/
def Succeeds (present full : κ → Prop) : MapOp κ ν φ → Prop
  | insert key (some _) _ => present key ∨ ¬ full key
  | insertSafe key (some _) => ¬ present key ∧ ¬ full key
  | delete key _ => present key
  | _ => False

end MapOp

section Machines
variable [DecidableEq ν]

def execInt (ht : Hash ν φ) : MapOp (BitVec 32) ν φ → Option (Answer ν φ × Hash ν φ)
  | .insert key data freeFn => (mclIntHashInsert key data ht freeFn).map answerRet
  | .insertSafe key data => (mclIntHashInsertSafe key data ht).map answerRet
  | .delete key freeFn => (mclIntHashDelete key ht freeFn).map answerRet
  | .find key => (mclIntHashFind key ht).map (answerFound ht)
  | .clean freeFn => some (answerFreed (mclHashClean ht freeFn))

def execStr (ht : Hash ν φ) : MapOp MclString ν φ → Option (Answer ν φ × Hash ν φ)
  | .insert key data freeFn => (mclStrHashInsert key data ht freeFn).map answerRet
  | .insertSafe key data => (mclStrHashInsertSafe key data ht).map answerRet
  | .delete key freeFn => (mclStrHashDelete key ht freeFn).map answerRet
  | .find key => (mclStrHashFind key ht).map (answerFound ht)
  | .clean freeFn => some (answerFreed (mclHashClean ht freeFn))

/-- Both kinds of table at once. -/
def execKey (ht : Hash ν φ) : MapOp HashKey ν φ → Option (Answer ν φ × Hash ν φ)
  | .insert key data freeFn => (hashInsert key data ht true freeFn).map answerRet
  | .insertSafe key data => (hashInsert key data ht false none).map answerRet
  | .delete key freeFn => do
    guard (ht.keyType = key.type)
    some (answerRet (hashDelete (calcHash key) key ht freeFn))
  | .find key => do
    guard (ht.keyType = key.type)
    some (answerFound ht (hashFind (calcHash key) key ht))
  | .clean freeFn => some (answerFreed (mclHashClean ht freeFn))

theorem execInt_eq (ht : Hash ν φ) (op : MapOp (BitVec 32) ν φ) :
    execInt ht op = execKey ht (op.map .int) := by
  cases op with
  | delete key freeFn =>
    by_cases h : ht.keyType = .int <;>
      simp [execInt, execKey, MapOp.map, mclIntHashDelete, guard, HashKey.type, calcHash, h]
  | find key =>
    by_cases h : ht.keyType = .int <;>
      simp [execInt, execKey, MapOp.map, mclIntHashFind, guard, HashKey.type, calcHash, h]
  | _ => rfl

theorem execStr_eq (ht : Hash ν φ) (op : MapOp MclString ν φ) :
    execStr ht op = execKey ht (op.map .str) := by
  cases op with
  | delete key freeFn =>
    by_cases h : ht.keyType = .str <;>
      simp [execStr, execKey, MapOp.map, mclStrHashDelete, guard, HashKey.type, calcHash, h]
  | find key =>
    by_cases h : ht.keyType = .str <;>
      simp [execStr, execKey, MapOp.map, mclStrHashFind, guard, HashKey.type, calcHash, h]
  | _ => rfl

end Machines

/-! The map a history stands for. -/

section Laws

abbrev History (κ ν φ : Type) := List (MapOp κ ν φ × Answer ν φ)

variable (same : κ → κ → Bool)

def record (m : κ → Option ν) : MapOp κ ν φ × Answer ν φ → κ → Option ν
  | (.insert key data _, ans), k | (.insertSafe key data, ans), k =>
    if ans.ret = 1 ∧ same k key then data else m k
  | (.delete key _, _), k => if same k key then none else m k
  | (.find _, _), k => m k
  | (.clean _, _), _ => none

/-- The data of the last successful insert of a key that no delete of the key and no clean
follows; NULL if there is none. -/
def lastStored (hist : History κ ν φ) : κ → Option ν := hist.foldl (record same) fun _ => none

theorem lastStored_concat (hist : History κ ν φ) (op : MapOp κ ν φ) (ans : Answer ν φ) :
    lastStored same (hist ++ [(op, ans)]) = record same (lastStored same hist) (op, ans) :=
  List.foldl_concat ..

/-- A machine whose states are tables. -/
abbrev MapMachine (κ ν φ : Type) := Machine (Hash ν φ) (MapOp κ ν φ) (Answer ν φ)

/-- What a find call would return. -/
def MapMachine.finds (M : MapMachine κ ν φ) (ht : Hash ν φ) (k : κ) : Option (Option ν) :=
  (M.step ht (.find k)).map (·.1.found)

/-- A call that does what a finite map does, in a table that the history `hist` led to. -/
structure StepLaw (M : MapMachine κ ν φ) (full : Hash ν φ → κ → Prop) (hist : History κ ν φ)
    (ht : Hash ν φ) (op : MapOp κ ν φ) (ans : Answer ν φ) (ht' : Hash ν φ) : Prop where
  found : ∀ k, op = .find k → ans.found = lastStored same hist k
  finds : ∀ k, M.finds ht' k = some (lastStored same (hist ++ [(op, ans)]) k)
  ret : (ans.ret = 1 ∧ op.Succeeds (fun k => M.finds ht k ≠ some none) (full ht)) ∨
    (ans.ret = 0 ∧ ¬ op.Succeeds (fun k => M.finds ht k ≠ some none) (full ht))
  refused : op.key? ≠ none → ans.ret = 0 → ∀ k, M.finds ht' k = M.finds ht k
  others : ∀ key, op.key? = some key → ∀ k, same k key = false → M.finds ht' k = M.finds ht k

/-- Every call of the run is answered, and does what a finite map does. -/
def Lawful (M : MapMachine κ ν φ) (full : Hash ν φ → κ → Prop) (ops : List (MapOp κ ν φ)) : Prop :=
  ∀ pre op post, ops = pre ++ op :: post →
    ∃ hist ht ans ht', M.run pre = some (hist, ht) ∧ M.step ht op = some (ans, ht') ∧
      StepLaw same M full hist ht op ans ht'

end Laws
/-- The bucket of a key holds as many pairs as a list can. -/
def BucketFull (ht : Hash ν φ) (key : HashKey) : Prop :=
  ∃ i, bucketOf key = some i ∧ (ht.bucket i).length = mclListMaxSize

/-- A set of keys that can be passed to one table, with the sameness its callers have in mind. -/
structure KeyDomain (κ : Type) where
  key : κ → HashKey
  type : DataType
  same : κ → κ → Bool
  valid : ∀ k, (key k).Valid
  type_key : ∀ k, (key k).type = type
  keyCmp_key : ∀ a b, keyCmp (key a) (key b) = same a b
  coherent : ∀ a b, same a b = true → bucketOf (key a) = bucketOf (key b)

namespace KeyDomain

variable [DecidableEq ν] (D : KeyDomain κ)

def machine : MapMachine κ ν φ := ⟨.new D.type, fun ht op => execKey ht (op.map D.key)⟩

/-- The table holds what its history says. -/
structure Models (hist : History κ ν φ) (ht : Hash ν φ) : Prop where
  wf : ht.WF
  type : ht.keyType = D.type
  origin : ∀ i, ∀ p ∈ ht.bucket i, ∃ k, p.key = (D.key k).copy
  stored : ∀ k, (ht.stored (D.key k)).bind (·.val) = lastStored D.same hist k

variable {D} {hist : History κ ν φ} {ht ht' : Hash ν φ} {k₀ : κ}

omit [DecidableEq ν] in
theorem models_new : D.Models ([] : History κ ν φ) (.new D.type) := by
  refine ⟨Hash.wf_new _, rfl, fun i p hp => absurd hp List.not_mem_nil, fun k => ?_⟩
  have hnone : (Hash.new D.type : Hash ν φ).stored (D.key k) = none := by
    cases h : bucketOf (D.key k) with
    | none => exact Hash.stored_eq_none_of_bucketOf h
    | some i => exact Hash.stored_of_bucketOf h
  rw [hnone]
  rfl

theorem finds_eq (hwf : ht.WF) (htype : ht.keyType = D.type) (k : κ) :
    (D.machine : MapMachine κ ν φ).finds ht k = some ((ht.stored (D.key k)).bind (·.val)) := by
  simp [MapMachine.finds, machine, execKey, MapOp.map, guard, htype, D.type_key, hwf.hashFind_eq,
    answerFound]

namespace Models

theorem finds (h : D.Models hist ht) (k : κ) :
    (D.machine : MapMachine κ ν φ).finds ht k = some (lastStored D.same hist k) := by
  rw [finds_eq h.wf h.type, h.stored]

theorem present_iff (h : D.Models hist ht) (k : κ) :
    (D.machine : MapMachine κ ν φ).finds ht k ≠ some none ↔ ht.stored (D.key k) ≠ none := by
  rw [finds_eq h.wf h.type, ne_eq, Option.some.injEq, h.wf.stored_val]

/-- The step law from what the call does to the buckets and to each lookup. -/
theorem stepLaw (h : D.Models hist ht) {full : Hash ν φ → κ → Prop} {op : MapOp κ ν φ}
    {ans : Answer ν φ} (hwf : ht'.WF) (htype : ht'.keyType = ht.keyType)
    (horigin : ∀ i, ∀ p ∈ ht'.bucket i, p ∈ ht.bucket i ∨ ∃ k, p.key = (D.key k).copy)
    (hstored : ∀ k, (ht'.stored (D.key k)).bind (·.val) =
      record D.same (lastStored D.same hist) (op, ans) k)
    (hret : (ans.ret = 1 ∧ op.Succeeds (fun k => D.machine.finds ht k ≠ some none) (full ht)) ∨
      (ans.ret = 0 ∧ ¬ op.Succeeds (fun k => D.machine.finds ht k ≠ some none) (full ht)))
    (hrefused : op.key? ≠ none → ans.ret = 0 →
      ∀ k, record D.same (lastStored D.same hist) (op, ans) k = lastStored D.same hist k)
    (hfound : ∀ k, op = .find k → ans.found = lastStored D.same hist k) :
    D.Models (hist ++ [(op, ans)]) ht' ∧ StepLaw D.same D.machine full hist ht op ans ht' := by
  have hm : D.Models (hist ++ [(op, ans)]) ht' := by
    refine ⟨hwf, htype.trans h.type, fun i p hp => ?_, fun k => by rw [hstored, lastStored_concat]⟩
    rcases horigin i p hp with hold | hnew
    · exact h.origin i p hold
    · exact hnew
  refine ⟨hm, hfound, hm.finds, hret, fun hk h0 k => ?_, fun key hkey k hne => ?_⟩
  · rw [hm.finds, h.finds, lastStored_concat, hrefused hk h0]
  · rw [hm.finds, h.finds, lastStored_concat]
    cases op <;> simp_all [MapOp.key?, record]

/-- An insert that the code can carry out. -/
def CanInsert (D : KeyDomain κ) (subFlg : Bool) (ht : Hash ν φ) (k : κ) : Prop :=
  ∃ i, bucketOf (D.key k) = some i ∧ Hash.Room subFlg (D.key k) (ht.bucket i)

theorem insert_step (h : D.Models hist ht) {full : Hash ν φ → κ → Prop} {op : MapOp κ ν φ}
    (subFlg : Bool) (k₀ : κ) (d : ν) (freeFn : Option φ)
    (hop : D.machine.step ht op = (hashInsert (D.key k₀) (some d) ht subFlg freeFn).map answerRet)
    (hsucc : op.Succeeds (fun k => D.machine.finds ht k ≠ some none) (full ht) ↔
      CanInsert D subFlg ht k₀)
    (hrec : ∀ m ans k, record D.same m (op, ans) k =
      if ans.ret = 1 ∧ D.same k k₀ = true then some d else m k)
    (hfind : ∀ k, op ≠ .find k) :
    ∃ ans ht', D.machine.step ht op = some (ans, ht') ∧ D.Models (hist ++ [(op, ans)]) ht' ∧
      StepLaw D.same D.machine full hist ht op ans ht' := by
  have hv := D.valid k₀
  have htype : ht.keyType = (D.key k₀).type := h.type.trans (D.type_key k₀).symm
  by_cases hcan : CanInsert D subFlg ht k₀
  · obtain ⟨i, hi, hroom⟩ := hcan
    obtain ⟨ht', hins, hb⟩ := h.wf.hashInsert_room hv htype hi hroom
      (p := ⟨ht.brk, (D.key k₀).copy, some d⟩) rfl freeFn
    refine ⟨_, ht', by rw [hop, hins]; rfl, h.stepLaw hb.wf hb.keyType ?_ (fun k => ?_)
      (.inl ⟨rfl, hsucc.mpr ⟨i, hi, hroom⟩⟩) (fun _ h0 => absurd h0 (by simp))
      (fun k hk => absurd hk (hfind k))⟩
    · rw [hb.bucket]
      refine (Function.forall_update_iff _ (p := fun j ps =>
        ∀ p ∈ ps, p ∈ ht.bucket j ∨ ∃ k, p.key = (D.key k).copy)).mpr ⟨fun p hp => ?_,
          fun j _ p hp => .inl hp⟩
      rcases List.mem_cons.mp hp with rfl | hp
      · exact .inr ⟨k₀, rfl⟩
      · exact .inl (KeySame.mem_of_mem_drop hp)
    · -- looking up the stored copy is looking up the key itself
      have hsame : keyCmp (D.key k) (D.key k₀).copy = D.same k k₀ := by
        rw [← D.keyCmp_key, Bool.eq_iff_iff, keyCmp_iff, keyCmp_iff, HashKey.copy_view hv]
      rw [Hash.stored_put hb ((bucketOf_copy hv).trans hi)
        (fun hk => (D.coherent k k₀ (hsame ▸ hk)).trans (bucketOf_copy hv).symm), hsame, hrec]
      by_cases hk : D.same k k₀ = true <;> simp [hk, h.stored]
  · obtain ⟨ht', hins, hb⟩ := h.wf.hashInsert_refused hv htype
      (fun i hi hroom => hcan ⟨i, hi, hroom⟩) d freeFn
    refine ⟨_, ht', by rw [hop, hins]; rfl, h.stepLaw hb.wf hb.keyType (fun i p hp => ?_)
      (fun k => ?_) (.inr ⟨rfl, fun hc => hcan (hsucc.mp hc)⟩) (fun _ _ k => ?_)
      (fun k hk => absurd hk (hfind k))⟩
    · rw [hb.bucket] at hp
      exact .inl hp
    · rw [Hash.stored_same hb, h.stored, hrec]
      simp
    · rw [hrec]
      simp

/-- Where a hash is not available, the code refuses as if the bucket were full. -/
def Closed (D : KeyDomain κ) (ht : Hash ν φ) (k : κ) : Prop :=
  bucketOf (D.key k) = none ∨ BucketFull ht (D.key k)

omit [DecidableEq ν] in
theorem not_closed_iff (hwf : ht.WF) {k : κ} :
    ¬ Closed D ht k ↔ ∃ i, bucketOf (D.key k) = some i ∧ (ht.bucket i).length < mclListMaxSize := by
  unfold Closed BucketFull
  cases hb : bucketOf (D.key k) with
  | none => simp
  | some i =>
    have hcap := hwf.cap i
    simp only [reduceCtorEq, Option.some.injEq, false_or, exists_eq_left']
    omega

theorem canInsert_true (h : D.Models hist ht) (k : κ) :
    (D.machine : MapMachine κ ν φ).finds ht k ≠ some none ∨ ¬ Closed D ht k ↔
      CanInsert D true ht k := by
  rw [h.present_iff, not_closed_iff h.wf]
  unfold CanInsert Hash.Room
  cases hb : bucketOf (D.key k) with
  | none => simp [Hash.stored_eq_none_of_bucketOf hb]
  | some i =>
    rw [Hash.stored_of_bucketOf hb]
    by_cases hu : pairUnder (D.key k) (ht.bucket i) = none <;> simp [hu]

theorem canInsert_false (h : D.Models hist ht) (k : κ) :
    ¬ (D.machine : MapMachine κ ν φ).finds ht k ≠ some none ∧ ¬ Closed D ht k ↔
      CanInsert D false ht k := by
  rw [h.present_iff, not_closed_iff h.wf]
  unfold CanInsert Hash.Room
  cases hb : bucketOf (D.key k) with
  | none => simp
  | some i =>
    rw [Hash.stored_of_bucketOf hb]
    simp

omit [DecidableEq ν] in
/-- Present or not, the same key is looked up with the same result. -/
theorem lastStored_congr (h : D.Models hist ht) {a b : κ} (hab : D.same a b = true) :
    lastStored D.same hist a = lastStored D.same hist b := by
  rw [← h.stored, ← h.stored, Hash.stored, Hash.stored, KeySame.find, KeySame.find,
    D.coherent a b hab]
  congr 2
  funext i
  exact KeySame.lookup_congr ((D.keyCmp_key a b).trans hab)

theorem delete_step (h : D.Models hist ht) {full : Hash ν φ → κ → Prop} (k₀ : κ)
    (freeFn : Option φ) :
    ∃ ans ht', D.machine.step ht (.delete k₀ freeFn) = some (ans, ht') ∧
      D.Models (hist ++ [(.delete k₀ freeFn, ans)]) ht' ∧
      StepLaw D.same D.machine full hist ht (.delete k₀ freeFn) ans ht' := by
  have htype : ht.keyType = (D.key k₀).type := h.type.trans (D.type_key k₀).symm
  cases hs : ht.stored (D.key k₀) with
  | none =>
    have hnone : lastStored D.same hist k₀ = none := by rw [← h.stored, hs]; rfl
    have hkeep : ∀ k, record D.same (lastStored D.same hist)
        (.delete k₀ freeFn, (⟨0, none, []⟩ : Answer ν φ)) k = lastStored D.same hist k := by
      intro k
      by_cases hk : D.same k k₀ = true
      · simp [record, hk, h.lastStored_congr hk, hnone]
      · simp [record, hk]
    refine ⟨⟨0, none, []⟩, ht, ?_, h.stepLaw h.wf rfl (fun _ _ => .inl)
      (fun k => by rw [hkeep, h.stored]) (.inr ⟨rfl, fun hc => (h.present_iff k₀).mp hc hs⟩)
      (fun _ _ => hkeep) (fun _ hc => by cases hc)⟩
    simp [machine, execKey, MapOp.map, guard, htype, h.wf.hashDelete_absent hs, answerRet]
  | some p =>
    obtain ⟨i, hi, hu⟩ := Hash.mem_stored hs
    obtain ⟨ht', hdel, hb⟩ := h.wf.hashDelete_present hi hu freeFn
    refine ⟨⟨1, none, destroyPair p freeFn⟩, ht', ?_, h.stepLaw hb.wf hb.keyType ?_ (fun k => ?_)
      (.inl ⟨rfl, (h.present_iff k₀).mpr (by simp [hs])⟩) (fun _ h0 => absurd h0 (by simp))
      (fun _ hc => by cases hc)⟩
    · simp [machine, execKey, MapOp.map, guard, htype, hdel, answerRet]
    · rw [hb.bucket]
      exact (Function.forall_update_iff _ (p := fun j ps =>
        ∀ p ∈ ps, p ∈ ht.bucket j ∨ ∃ k, p.key = (D.key k).copy)).mpr
          ⟨fun p hp => .inl (KeySame.mem_of_mem_drop hp), fun j _ p hp => .inl hp⟩
    · rw [Hash.stored_remove h.wf hb hi
        (fun hk => D.coherent k k₀ ((D.keyCmp_key k k₀).symm.trans hk)), D.keyCmp_key]
      by_cases hk : D.same k k₀ = true <;> simp [record, hk, h.stored]

/-- One call in a table that the history led to. -/
theorem step (h : D.Models hist ht) (op : MapOp κ ν φ) :
    ∃ ans ht', D.machine.step ht op = some (ans, ht') ∧ D.Models (hist ++ [(op, ans)]) ht' ∧
      StepLaw D.same D.machine (Closed D) hist ht op ans ht' := by
  cases op with
  | insert k₀ data freeFn =>
    cases data with
    | none =>
      exact ⟨_, ht, rfl, h.stepLaw h.wf rfl (fun _ _ => .inl) h.stored (.inr ⟨rfl, id⟩)
        (fun _ _ _ => rfl) (fun _ hc => by cases hc)⟩
    | some d =>
      exact h.insert_step true k₀ d freeFn rfl (h.canInsert_true k₀) (fun _ _ _ => rfl)
        (fun _ hc => by cases hc)
  | insertSafe k₀ data =>
    cases data with
    | none =>
      exact ⟨_, ht, rfl, h.stepLaw h.wf rfl (fun _ _ => .inl) h.stored (.inr ⟨rfl, id⟩)
        (fun _ _ _ => rfl) (fun _ hc => by cases hc)⟩
    | some d =>
      exact h.insert_step false k₀ d none rfl (h.canInsert_false k₀) (fun _ _ _ => rfl)
        (fun _ hc => by cases hc)
  | delete k₀ freeFn => exact h.delete_step k₀ freeFn
  | find k₀ =>
    have htype : ht.keyType = (D.key k₀).type := h.type.trans (D.type_key k₀).symm
    refine ⟨⟨0, lastStored D.same hist k₀, []⟩, ht, ?_, h.stepLaw h.wf rfl (fun _ _ => .inl) h.stored
      (.inr ⟨rfl, id⟩) (fun _ _ _ => rfl) (fun k hk => by cases hk; rfl)⟩
    simp [machine, execKey, MapOp.map, guard, htype, h.wf.hashFind_eq, answerFound, h.stored]
  | clean freeFn =>
    obtain ⟨ht', hclean, hb⟩ := h.wf.mclHashClean_eq freeFn
    refine ⟨⟨0, none, ht.pairs.flatMap (destroyPair · freeFn)⟩, ht', ?_, h.stepLaw hb.wf hb.keyType
      (fun i p hp => by rw [hb.bucket] at hp; exact absurd hp List.not_mem_nil)
      (fun k => by rw [Hash.stored_clear hb]; rfl) (.inr ⟨rfl, id⟩)
      (fun hc => absurd rfl hc) (fun _ hc => by cases hc)⟩
    simp [machine, execKey, MapOp.map, hclean, answerFreed]

end Models

theorem run_models (ops : List (MapOp κ ν φ)) :
    ∃ hist ht, D.machine.run ops = some (hist, ht) ∧ D.Models hist ht := by
  refine Machine.run_total models_new (fun hist ht op h => ?_) ops
  obtain ⟨ans, ht', hstep, hm, -⟩ := h.step op
  exact ⟨ans, ht', hstep, hm⟩

/-- The run to a state, and one call there. -/
theorem run_step (pre : List (MapOp κ ν φ)) (op : MapOp κ ν φ) :
    ∃ hist ht ans ht', D.machine.run pre = some (hist, ht) ∧ D.machine.step ht op = some (ans, ht') ∧
      D.Models hist ht ∧ StepLaw D.same D.machine (Models.Closed D) hist ht op ans ht' := by
  obtain ⟨hist, ht, hrun, hm⟩ := run_models (D := D) pre
  obtain ⟨ans, ht', hstep, -, hlaw⟩ := hm.step op
  exact ⟨hist, ht, ans, ht', hrun, hstep, hm, hlaw⟩

/-- A call goes wrong exactly by storing under a key whose hash is not available. -/
theorem Models.stepLaw_iff (h : D.Models hist ht) {op : MapOp κ ν φ} {ans : Answer ν φ}
    (hlaw : StepLaw D.same D.machine (Models.Closed D) hist ht op ans ht') :
    StepLaw D.same D.machine (fun ht k => BucketFull ht (D.key k)) hist ht op ans ht' ↔
      ∀ k, op.stores? = some k → bucketOf (D.key k) ≠ none := by
  constructor
  · intro hfin k hk hb
    have hfull : ¬ BucketFull ht (D.key k) := by
      rintro ⟨i, hi, -⟩
      rw [hb] at hi
      exact Option.some_ne_none i hi.symm
    have hclosed : Models.Closed D ht k := .inl hb
    have habsent : ¬ D.machine.finds ht k ≠ some none := fun hp =>
      (h.present_iff k).mp hp (Hash.stored_eq_none_of_bucketOf hb)
    have hsucc : op.Succeeds (fun k => D.machine.finds ht k ≠ some none)
        (fun k => BucketFull ht (D.key k)) ∧
        ¬ op.Succeeds (fun k => D.machine.finds ht k ≠ some none) (Models.Closed D ht) := by
      unfold MapOp.stores? at hk
      split at hk <;> simp_all [MapOp.Succeeds]
    rcases hlaw.ret with hl | hl
    · exact hsucc.2 hl.2
    · rcases hfin.ret with hf | hf
      · omega
      · exact hf.2 hsucc.1
  · intro hok
    have hsame : op.Succeeds (fun k => D.machine.finds ht k ≠ some none) (Models.Closed D ht) ↔
        op.Succeeds (fun k => D.machine.finds ht k ≠ some none)
          (fun k => BucketFull ht (D.key k)) := by
      have hclosed : ∀ k, bucketOf (D.key k) ≠ none →
          (Models.Closed D ht k ↔ BucketFull ht (D.key k)) := fun k hk => by simp [Models.Closed, hk]
      cases op with
      | insert key data freeFn => cases data <;> simp_all [MapOp.Succeeds, MapOp.stores?]
      | insertSafe key data => cases data <;> simp_all [MapOp.Succeeds, MapOp.stores?]
      | _ => exact Iff.rfl
    exact ⟨hlaw.found, hlaw.finds, by rw [← hsame]; exact hlaw.ret, hlaw.refused, hlaw.others⟩

/-- A run is that of a finite map exactly when it stores only under keys with an available hash. -/
theorem machine_lawful_iff (ops : List (MapOp κ ν φ)) :
    Lawful D.same D.machine (fun ht k => BucketFull ht (D.key k)) ops ↔
      ∀ op ∈ ops, ∀ k, op.stores? = some k → bucketOf (D.key k) ≠ none := by
  constructor
  · intro hl op hop
    obtain ⟨pre, post, rfl⟩ := List.append_of_mem hop
    obtain ⟨hist, ht, ans, ht', hrun, hstep, hm, hlaw⟩ := run_step (D := D) pre op
    obtain ⟨hist₂, ht₂, ans₂, ht₂', hrun₂, hstep₂, hlaw₂⟩ := hl pre op post rfl
    rw [hrun, Option.some.injEq, Prod.mk.injEq] at hrun₂
    obtain ⟨rfl, rfl⟩ := hrun₂
    rw [hstep, Option.some.injEq, Prod.mk.injEq] at hstep₂
    obtain ⟨rfl, rfl⟩ := hstep₂
    exact (hm.stepLaw_iff hlaw).mp hlaw₂
  · rintro hok pre op post rfl
    obtain ⟨hist, ht, ans, ht', hrun, hstep, hm, hlaw⟩ := run_step (D := D) pre op
    exact ⟨hist, ht, ans, ht', hrun, hstep, (hm.stepLaw_iff hlaw).mpr (hok op (by simp))⟩

end KeyDomain

/-! Integer keys. -/

section Int
variable [DecidableEq ν]

def intMachine : MapMachine (BitVec 32) ν φ := ⟨.new .int, execInt⟩

def intDomain : KeyDomain (BitVec 32) where
  key := .int
  type := .int
  same := (· == ·)
  valid _ := trivial
  type_key _ := rfl
  keyCmp_key _ _ := rfl
  coherent a b h := by rw [eq_of_beq h]

theorem intMachine_eq : (intMachine : MapMachine (BitVec 32) ν φ) = intDomain.machine :=
  congrArg _ (funext fun ht => funext fun op => execInt_eq ht op)

theorem bucketOf_int (k : BitVec 32) : bucketOf (.int k) ≠ none ↔ 0 ≤ k.toInt ∨ 1021 ∣ k.toInt := by
  rw [← available_calHashInt, bucketOf, calcHash, ne_eq, ite_eq_right_iff]
  simp

/-- A negative key that is no multiple of the table size is never stored. -/
theorem execInt_negative_key :
    (execInt (.new .int) (.insert (-1) (some ()) none : MapOp (BitVec 32) Unit Unit)).map (·.1.ret) =
        some 0 ∧
      ¬ Lawful (· == ·) (intMachine : MapMachine (BitVec 32) Unit Unit)
        (fun ht k => BucketFull ht (.int k)) [.insert (-1) (some ()) none] := by
  refine ⟨by decide, fun hl => ?_⟩
  rw [intMachine_eq] at hl
  have hb := (intDomain.machine_lawful_iff _).mp hl _ (List.mem_singleton_self _) (-1) rfl
  exact absurd ((bucketOf_int _).mp hb) (by decide)

/-- The integer table is a finite map in exactly the runs that store nothing under a negative
key, multiples of the table size apart. -/
theorem intHash_lawful_iff (ops : List (MapOp (BitVec 32) ν φ)) :
    mclIntHashNew = some (intMachine : MapMachine (BitVec 32) ν φ).init ∧
      (Lawful (· == ·) intMachine (fun ht k => BucketFull ht (.int k)) ops ↔
        ∀ op ∈ ops, ∀ k, op.stores? = some k → 0 ≤ k.toInt ∨ 1021 ∣ k.toInt) := by
  refine ⟨rfl, ?_⟩
  rw [intMachine_eq]
  refine (intDomain.machine_lawful_iff ops).trans ?_
  simp only [← bucketOf_int]
  rfl

end Int
/-! String keys. -/

section Str

variable {K : MclString → Prop}

theorem bucketOf_str_congr {a b : MclString} (ha : a.Valid) (hb : b.Valid)
    (h : a.contents = b.contents) : bucketOf (.str a) = bucketOf (.str b) := by
  have hc : calcHash (.str a) = calcHash (.str b) := congrArg BitVec.toInt (calHashStr_congr ha hb h)
  unfold bucketOf
  rw [hc]

theorem bucketOf_str (s : MclString) : bucketOf (.str s) ≠ none := by
  have h : availableHashValue (calcHash (.str s)) = true := available_calHashStr s
  simp [bucketOf, h]

/-- The strings of a set `K` that `mcl_string_alloc` made, as keys. -/
abbrev BuiltKey (K : MclString → Prop) := { s : MclString // s.Built ∧ K s }

/-- Keys are meant to be the same when they hold the same bytes. -/
def sameContents (a b : BuiltKey K) : Bool := a.1.contents == b.1.contents

/-- No two strings of `K` differ only behind a first NUL. -/
def NoHiddenTail (K : MclString → Prop) : Prop :=
  ∀ a b : BuiltKey K, a.1.cstr = b.1.cstr → a.1.contents = b.1.contents

def strDomain (hK : NoHiddenTail K) : KeyDomain (BuiltKey K) where
  key k := .str k.1
  type := .str
  same := sameContents
  valid k := k.2.1.valid
  type_key _ := rfl
  keyCmp_key a b := by
    rw [Bool.eq_iff_iff, keyCmp_iff, HashKey.view, HashKey.view, Sum.inr.injEq, sameContents,
      beq_iff_eq]
    refine ⟨hK a b, fun h => ?_⟩
    rw [a.2.1.valid.cstr_eq, b.2.1.valid.cstr_eq, h]
  coherent a b h := bucketOf_str_congr a.2.1.valid b.2.1.valid (eq_of_beq h)

variable [DecidableEq ν]

def strMachine (K : MclString → Prop) : MapMachine (BuiltKey K) ν φ :=
  ⟨.new .str, fun ht op => execStr ht (op.map Subtype.val)⟩

theorem strMachine_eq (hK : NoHiddenTail K) :
    (strMachine K : MapMachine (BuiltKey K) ν φ) = (strDomain hK).machine := by
  refine congrArg _ (funext fun ht => funext fun op => (execStr_eq ht _).trans ?_)
  cases op <;> rfl

def NulFree (s : MclString) : Prop := 0 ∉ s.contents

theorem noHiddenTail_nulFree : NoHiddenTail NulFree := fun a b h => by
  rwa [a.2.1.valid.cstr_of_nulFree a.2.2, b.2.1.valid.cstr_of_nulFree b.2.2] at h

/-- Every run of the string table on NUL-free strings is that of a finite map. -/
theorem strHash_lawful (ops : List (MapOp (BuiltKey NulFree) ν φ)) :
    mclStrHashNew = some (strMachine NulFree : MapMachine (BuiltKey NulFree) ν φ).init ∧
      Lawful sameContents (strMachine NulFree) (fun ht k => BucketFull ht (.str k.1)) ops := by
  refine ⟨rfl, ?_⟩
  rw [strMachine_eq noHiddenTail_nulFree]
  exact ((strDomain noHiddenTail_nulFree).machine_lawful_iff ops).mpr
    fun op _ k _ => bucketOf_str k.1

/-- Equality and hashing agree on `K`, and a table with keys from `K` keeps those with different
contents apart. -/
structure KeysAgree (ν φ : Type) [DecidableEq ν] (K : MclString → Prop) : Prop where
  hash : ∀ a b : BuiltKey K, mclStringCmp a.1 b.1 = 0 → calHashStr a.1 = calHashStr b.1
  apart : ∀ ops hist ht, (strMachine K : MapMachine (BuiltKey K) ν φ).run ops = some (hist, ht) →
    ht.pairs.Pairwise fun p q => ∀ s t, p.key = .str s → q.key = .str t → mclStringCmp s t ≠ 0
  found : ∀ ops hist ht, (strMachine K : MapMachine (BuiltKey K) ν φ).run ops = some (hist, ht) →
    ∀ k, (strMachine K).finds ht k = some (lastStored sameContents hist k)
  kept : ∀ ops hist ht op ans ht',
    (strMachine K : MapMachine (BuiltKey K) ν φ).run ops = some (hist, ht) →
    (strMachine K).step ht op = some (ans, ht') →
    ∀ a, op.key? = some a → ∀ b, sameContents b a = false →
      (strMachine K).finds ht' b = (strMachine K).finds ht b

/-- Equal for `strcmp`, hashed to different buckets. -/
theorem strKeys_disagree :
    mclStringCmp (mclStringAlloc [97, 0, 98] 3) (mclStringAlloc [97, 0, 99] 3) = 0 ∧
      calHashStr (mclStringAlloc [97, 0, 98] 3) ≠ calHashStr (mclStringAlloc [97, 0, 99] 3) ∧
      ¬ KeysAgree Unit Unit (fun _ => True) := by
  have hcmp : mclStringCmp (mclStringAlloc [97, 0, 98] 3) (mclStringAlloc [97, 0, 99] 3) = 0 := by
    decide
  have hhash : calHashStr (mclStringAlloc [97, 0, 98] 3) ≠
      calHashStr (mclStringAlloc [97, 0, 99] 3) := by decide
  refine ⟨hcmp, hhash, fun h => hhash (h.hash ⟨_, ?_, trivial⟩ ⟨_, ?_, trivial⟩ hcmp)⟩
  · exact ⟨[97, 0, 98], 3, by decide, by decide, by decide, rfl⟩
  · exact ⟨[97, 0, 99], 3, by decide, by decide, by decide, rfl⟩

omit [DecidableEq ν] in
/-- With coherent keys no two pairs of a table have equal keys, whatever their buckets. -/
theorem KeyDomain.Models.apart {D : KeyDomain κ} {hist : History κ ν φ} {ht : Hash ν φ}
    (h : D.Models hist ht) : ht.pairs.Pairwise fun p q => keyCmp p.key q.key = false := by
  unfold Hash.pairs KeySame.entries
  rw [List.pairwise_flatMap]
  refine ⟨fun i _ => h.wf.distinct i, ?_⟩
  refine List.pairwise_lt_range.imp fun {i j} hij p hp q hq => ?_
  by_contra hc
  rw [Bool.not_eq_false] at hc
  obtain ⟨a, ha⟩ := h.origin i p hp
  obtain ⟨b, hb⟩ := h.origin j q hq
  have hab : D.same a b = true := by
    rw [← D.keyCmp_key, keyCmp_iff, ← HashKey.copy_view (D.valid a), ← HashKey.copy_view (D.valid b),
      ← ha, ← hb]
    exact (keyCmp_iff _ _).mp hc
  have hij' : bucketOf p.key = bucketOf q.key := by
    rw [ha, hb, bucketOf_copy (D.valid a), bucketOf_copy (D.valid b), D.coherent a b hab]
  rw [(h.wf.placed i p hp).bucketOf, (h.wf.placed j q hq).bucketOf, Option.some.injEq] at hij'
  omega

theorem KeyDomain.models_of_run {D : KeyDomain κ} {ops : List (MapOp κ ν φ)} {hist : History κ ν φ}
    {ht : Hash ν φ} (hrun : D.machine.run ops = some (hist, ht)) : D.Models hist ht := by
  obtain ⟨hist', ht', hrun', hm⟩ := D.run_models ops
  rw [hrun, Option.some.injEq, Prod.mk.injEq] at hrun'
  obtain ⟨rfl, rfl⟩ := hrun'
  exact hm

theorem keysAgree_of_noHiddenTail (hK : NoHiddenTail K) : KeysAgree ν φ K := by
  constructor
  · intro a b hab
    exact calHashStr_congr a.2.1.valid b.2.1.valid (hK a b ((mclStringCmp_eq_zero _ _).mp hab))
  · intro ops hist ht hrun
    rw [strMachine_eq hK] at hrun
    refine (KeyDomain.models_of_run hrun).apart.imp fun {p q} hpq s t hs ht hst => ?_
    rw [hs, ht] at hpq
    simp [keyCmp, hst] at hpq
  · intro ops hist ht hrun
    rw [strMachine_eq hK] at hrun ⊢
    exact (KeyDomain.models_of_run hrun).finds
  · intro ops hist ht op ans ht' hrun hstep a ha b hab
    rw [strMachine_eq hK] at hrun hstep ⊢
    obtain ⟨ans', ht₂, hstep', -, hlaw⟩ := (KeyDomain.models_of_run hrun).step op
    rw [hstep, Option.some.injEq, Prod.mk.injEq] at hstep'
    obtain ⟨rfl, rfl⟩ := hstep'
    exact hlaw.others a ha b hab

theorem strMachine_finds {ht : Hash ν φ} (hwf : ht.WF) (htype : ht.keyType = .str)
    (k : BuiltKey K) :
    (strMachine K : MapMachine (BuiltKey K) ν φ).finds ht k =
      some ((ht.stored (.str k.1)).bind (·.val)) := by
  have hfind := hwf.hashFind_eq (.str k.1)
  simp only [calcHash] at hfind
  simp [MapMachine.finds, strMachine, execStr, MapOp.map, mclStrHashFind, guard, htype, answerFound,
    hfind]

/-- One insert into a new table is enough to see two keys mixed up. -/
theorem strKeys_agree_iff [Inhabited ν] (K : MclString → Prop) :
    KeysAgree ν φ K ↔ NoHiddenTail K := by
  refine ⟨fun h a b hab => ?_, keysAgree_of_noHiddenTail⟩
  by_contra hne
  have hv : (HashKey.str a.1).Valid := a.2.1.valid
  have hcmp : keyCmp (.str b.1) (HashKey.copy (.str a.1)) = true := by
    rw [keyCmp_iff, HashKey.copy_view hv]
    exact congrArg Sum.inr hab.symm
  have hbucket : bucketOf (.str b.1) = bucketOf (HashKey.copy (.str a.1)) := by
    have hc : calcHash (.str b.1) = calcHash (.str a.1) :=
      congrArg BitVec.toInt (h.hash b a ((mclStringCmp_eq_zero _ _).mpr hab.symm))
    rw [bucketOf_copy hv, bucketOf, bucketOf, hc]
  obtain ⟨i, hi⟩ := Option.ne_none_iff_exists'.mp (bucketOf_str a.1)
  have hwf : (Hash.new .str : Hash ν φ).WF := Hash.wf_new .str
  have hroom : Hash.Room false (.str a.1) ((Hash.new .str : Hash ν φ).bucket i) :=
    .inr ⟨rfl, show (0 : ℤ) < 1024 * 1024 by decide⟩
  obtain ⟨ht', hins, hb⟩ := hwf.hashInsert_room (v := (default : ν)) hv rfl hi hroom rfl none
  obtain ⟨ans, hstep⟩ : ∃ ans, (strMachine K : MapMachine (BuiltKey K) ν φ).step (.new .str)
      (.insertSafe a (some default)) = some (ans, ht') :=
    ⟨_, congrArg (Option.map answerRet) hins⟩
  have hkept := h.kept [] [] (.new .str) _ _ _ rfl hstep a rfl b (by simpa [sameContents] using Ne.symm hne)
  rw [strMachine_finds hb.wf hb.keyType, strMachine_finds hwf rfl,
    Hash.stored_put hb ((bucketOf_copy hv).trans hi) fun _ => hbucket] at hkept
  have hnew : (Hash.new .str : Hash ν φ).stored (.str b.1) = none := by
    rw [bucketOf_copy hv, hi] at hbucket
    exact Hash.stored_of_bucketOf hbucket
  simp [hcmp, hnew] at hkept

end Str
end Mcl
