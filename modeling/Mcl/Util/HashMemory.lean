import Mathlib.Algebra.BigOperators.Ring.Finset
import Mcl.Util.HashBuckets

/-! A whole table in memory, and the calls on it. -/
namespace Mcl.HashCode
open Mcl.Library Mcl.Library.HProp ListBlocks StringCode

variable {ν φ : Type}

/-- A bucket that has no list is empty. -/
def slotAt : Option Addr → List (HashPair ν) → HProp (Cell ν φ)
  | none, row => fact (row = [])
  | some list, row => bucketAt list row

/-- The array of buckets and what it points to. -/
def slotsAt (tables : Addr) (slots : ℕ → Option Addr) (rows : ℕ → List (HashPair ν)) : HProp (Cell ν φ) :=
  pts tables (.tables mclHashMaxSize slots) * ∏ i ∈ Finset.range mclHashMaxSize, slotAt (slots i) (rows i)

/-- The buckets with a list. -/
def listsOf (slots : ℕ → Option Addr) : Finset ℕ := (Finset.range mclHashMaxSize).filter fun i => slots i ≠ none

/-- A table with the given lists, and the given pairs in its buckets. -/
def tableAt (ht : Addr) (keyType : DataType) (eraseFn : Option φ) (lists : Finset ℕ)
    (rows : ℕ → List (HashPair ν)) : HProp (Cell ν φ) :=
  ⨆ tables, pts ht (.hash ⟨tables, mclHashMaxSize, keyType, eraseFn⟩) *
    ⨆ slots, fact (listsOf slots = lists) * slotsAt tables slots rows

variable {ht tables list pairp keyp keyData : Addr} {keyType : DataType} {eraseFn freeFn : Option φ}
  {slots : ℕ → Option Addr} {rows : ℕ → List (HashPair ν)} {row : List (HashPair ν)} {i : ℕ} {p : HashPair ν}
  {key : HashKey} {K : HProp (Cell ν φ)} {lists : Finset ℕ}

theorem slotAt_none : (slotAt none [] : HProp (Cell ν φ)) = 1 := by
  ext h
  exact ⟨fun hh => hh.2, fun hh => ⟨rfl, hh⟩⟩

theorem mem_listsOf (hi : i < mclHashMaxSize) : i ∈ listsOf slots ↔ slots i ≠ none := by
  rw [listsOf, Finset.mem_filter, Finset.mem_range]
  exact and_iff_right hi

theorem listsOf_update (hi : i < mclHashMaxSize) (list : Addr) :
    listsOf (Function.update slots i (some list)) = insert i (listsOf slots) := by
  ext j
  rw [Finset.mem_insert]
  by_cases hj : j = i
  · subst hj
    rw [mem_listsOf hi, Function.update_self]
    exact iff_of_true (Option.some_ne_none list) (.inl rfl)
  · rw [listsOf, listsOf, Finset.mem_filter, Finset.mem_filter, Function.update_of_ne hj]
    exact (or_iff_right hj).symm

/-! One bucket and the others. -/

def othersAt (i : ℕ) (slots : ℕ → Option Addr) (rows : ℕ → List (HashPair ν)) : HProp (Cell ν φ) :=
  ∏ j ∈ (Finset.range mclHashMaxSize).erase i, slotAt (slots j) (rows j)

theorem slotsAt_eq (hi : i < mclHashMaxSize) : (slotsAt tables slots rows : HProp (Cell ν φ)) =
    pts tables (.tables mclHashMaxSize slots) * (slotAt (slots i) (rows i) * othersAt i slots rows) := by
  rw [slotsAt, othersAt, Finset.mul_prod_erase _ (fun j => slotAt (slots j) (rows j)) (Finset.mem_range.mpr hi)]

@[simp] theorem othersAt_slot (slot : Option Addr) :
    (othersAt i (Function.update slots i slot) rows : HProp (Cell ν φ)) = othersAt i slots rows := by
  refine Finset.prod_congr rfl fun j hj => ?_
  rw [Function.update_of_ne (Finset.ne_of_mem_erase hj)]

@[simp] theorem othersAt_row :
    (othersAt i slots (Function.update rows i row) : HProp (Cell ν φ)) = othersAt i slots rows := by
  refine Finset.prod_congr rfl fun j hj => ?_
  rw [Function.update_of_ne (Finset.ne_of_mem_erase hj)]

theorem readSlot_reads (hi : i < mclHashMaxSize) :
    Reads (slotsAt tables slots rows : HProp (Cell ν φ)) (readSlot tables i) (slots i) := by
  refine (Reads.load _ _).left.bind ?_
  simp only [if_pos hi]
  exact Reads.pure

theorem writeSlot_spec (hi : i < mclHashMaxSize) (slot : Option Addr) :
    Spec (pts tables (.tables mclHashMaxSize slots) : HProp (Cell ν φ)) (writeSlot tables i slot) fun _ =>
      pts tables (.tables mclHashMaxSize (Function.update slots i slot)) := by
  refine (Reads.load _ _).call ?_
  simp only [if_pos hi]
  exact Spec.store _ _ _

theorem readHash_reads {head : HashHead φ} : Reads (pts ht (.hash head) : HProp (Cell ν φ)) (readHash ht) head :=
  (Reads.load ht (Cell.hash head)).bind Reads.pure

/-- The index is found, and the bucket is a list from then on. -/
theorem findIndex_spec (hi : i < mclHashMaxSize) :
    Spec (slotsAt tables slots rows : HProp (Cell ν φ)) (findIndex tables i) fun list =>
      ⨆ slots', fact (slots' i = some list ∧ listsOf slots' = insert i (listsOf slots)) * (bucketAt list (rows i) *
        (pts tables (.tables mclHashMaxSize slots') * othersAt i slots' rows)) := by
  refine (readSlot_reads hi).call ?_
  rw [slotsAt_eq hi]
  cases hslot : slots i with
  | some list =>
    have hmem : i ∈ listsOf slots := (mem_listsOf hi).mpr (hslot ▸ Option.some_ne_none list)
    refine Spec.pure (le_iSup_of_le slots ?_)
    rw [mul_left_comm]
    exact le_fact_mul ⟨hslot, (Finset.insert_eq_of_mem hmem).symm⟩
  | none =>
    rw [mul_left_comm]
    refine Spec.fact_mul fun hempty => ?_
    have hnew := (mclListNew_spec (ν := ν) (φ := φ)).frame
      (pts tables (.tables mclHashMaxSize slots) * othersAt i slots rows)
    rw [one_mul] at hnew
    refine hnew.bind fun list => ?_
    rw [mul_left_comm]
    refine Spec.call (writeSlot_spec hi (some list)) fun _ => Spec.pure ?_
    refine le_iSup_of_le (Function.update slots i (some list)) ?_
    rw [othersAt_slot, hempty, mul_left_comm]
    exact le_trans (mul_le_mul_left listAt_le_bucketAt _)
      (le_fact_mul ⟨Function.update_self .., listsOf_update hi list⟩)

theorem tableAt_intro : pts ht (.hash ⟨tables, mclHashMaxSize, keyType, eraseFn⟩) *
    (⨆ slots, fact (listsOf slots = lists) * slotsAt tables slots rows) ≤
      (tableAt ht keyType eraseFn lists rows : HProp (Cell ν φ)) :=
  le_iSup (fun tables => pts ht (.hash ⟨tables, mclHashMaxSize, keyType, eraseFn⟩) *
    ⨆ slots, fact (listsOf slots = lists) * slotsAt tables slots rows) tables

theorem slotsAt_le_tableAt (hlists : listsOf slots = lists) :
    pts ht (.hash ⟨tables, mclHashMaxSize, keyType, eraseFn⟩) * slotsAt tables slots rows ≤
      (tableAt ht keyType eraseFn lists rows : HProp (Cell ν φ)) :=
  le_trans (mul_le_mul_right (le_iSup_of_le slots (le_fact_mul hlists)) _) tableAt_intro

theorem slotsAt_none (hi : i < mclHashMaxSize) (hslot : slots i = none) {h : Heap (Cell ν φ)}
    (hh : h ∈ slotsAt tables slots rows) : rows i = [] := by
  rw [slotsAt_eq hi, hslot, mul_left_comm] at hh
  exact (mem_fact_mul.mp hh).1

/-- What a table in memory consists of. -/
theorem of_mem_tableAt {h : Heap (Cell ν φ)} (hh : h ∈ tableAt ht keyType eraseFn lists rows) :
    ∃ tables slots, listsOf slots = lists ∧ h ∈ pts ht (.hash ⟨tables, mclHashMaxSize, keyType, eraseFn⟩) *
        (slotsAt tables slots rows : HProp (Cell ν φ)) ∧
      ∀ i < mclHashMaxSize, slots i = none → rows i = [] := by
  obtain ⟨tables, hh⟩ := mem_iSup.mp hh
  rw [mul_comm] at hh
  obtain ⟨slots, hh⟩ := mem_iSup_mul.mp hh
  rw [mul_assoc, mem_fact_mul] at hh
  obtain ⟨hlists, hh⟩ := hh
  refine ⟨tables, slots, hlists, by rwa [mul_comm], fun i hi hslot => ?_⟩
  obtain ⟨h₁, -, -, -, hslots, -⟩ := hh
  exact slotsAt_none hi hslot hslots

/-- A bucket with a pair has a list. -/
theorem mem_lists (hi : i < mclHashMaxSize) (hne : rows i ≠ []) {h : Heap (Cell ν φ)}
    (hh : h ∈ tableAt ht keyType eraseFn lists rows * K) : i ∈ lists := by
  obtain ⟨h₁, -, -, -, htable, -⟩ := hh
  obtain ⟨tables, slots, rfl, -, hempty⟩ := of_mem_tableAt htable
  exact (mem_listsOf hi).mpr fun hslot => hne (hempty i hi hslot)

/-- A table put together again around the bucket that was worked on. -/
theorem bucketAt_le_tableAt (hi : i < mclHashMaxSize) (hslot : slots i = some list) (hlists : listsOf slots = lists) :
    bucketAt list row * (pts ht (.hash ⟨tables, mclHashMaxSize, keyType, eraseFn⟩) *
      (pts tables (.tables mclHashMaxSize slots) * othersAt i slots rows)) ≤
      (tableAt ht keyType eraseFn lists (Function.update rows i row) : HProp (Cell ν φ)) := by
  have hslots : (slotsAt tables slots (Function.update rows i row) : HProp (Cell ν φ)) =
      pts tables (.tables mclHashMaxSize slots) * (bucketAt list row * othersAt i slots rows) := by
    rw [slotsAt_eq hi, hslot, Function.update_self, othersAt_row]
    rfl
  rw [mul_left_comm, mul_left_comm (bucketAt list row), ← hslots]
  exact slotsAt_le_tableAt hlists

section Body
variable {α : Type} {Q : α → HProp (Cell ν φ)}

/-- What is done with the list at an index is done to that row of the table. -/
theorem table_index (hi : i < mclHashMaxSize) {body : Addr → MclM ν φ α}
    (hbody : ∀ list, Spec (bucketAt list (rows i) * K) (body list) fun r => bucketAt list row * Q r) :
    Spec (tableAt ht keyType eraseFn lists rows * K) (readHash ht >>= fun head => findIndex head.tables i >>= body)
      fun r => tableAt ht keyType eraseFn (insert i lists) (Function.update rows i row) * Q r := by
  refine Spec.exists_mul fun tables => readHash_reads.left.left.call ?_
  rw [mul_right_comm, mul_comm]
  refine Spec.exists_mul fun slots => ?_
  rw [mul_assoc]
  refine Spec.fact_mul fun hlists => Spec.call (findIndex_spec hi) fun list => Spec.exists_mul fun slots' => ?_
  rw [mul_assoc, hlists]
  refine Spec.fact_mul fun hfound => ?_
  rw [mul_comm (pts ht _) K, mul_mul_mul_comm, mul_comm _ (pts ht _)]
  refine ((hbody list).frame _).post fun r => ?_
  rw [mul_right_comm]
  exact mul_le_mul_left (bucketAt_le_tableAt hi hfound.1 hfound.2) _

/-- The same where no list is made. -/
theorem table_slot (hi : i < mclHashMaxSize) {body : Option Addr → MclM ν φ α}
    (hnone : rows i = [] → row = [] ∧ Spec K (body none) Q)
    (hsome : ∀ list, Spec (bucketAt list (rows i) * K) (body (some list)) fun r => bucketAt list row * Q r) :
    Spec (tableAt ht keyType eraseFn lists rows * K) (readHash ht >>= fun head => readSlot head.tables i >>= body)
      fun r => tableAt ht keyType eraseFn lists (Function.update rows i row) * Q r := by
  refine Spec.exists_mul fun tables => readHash_reads.left.left.call ?_
  rw [mul_right_comm, mul_comm]
  refine Spec.exists_mul fun slots => ?_
  rw [mul_assoc]
  refine Spec.fact_mul fun hlists => (readSlot_reads hi).left.call ?_
  have hreorder : ∀ T S O H : HProp (Cell ν φ), T * (S * O) * (H * K) = S * K * (H * (T * O)) := by
    intro T S O H
    ac_rfl
  rw [slotsAt_eq hi, hreorder]
  cases hslot : slots i with
  | none =>
    rw [mul_assoc]
    refine Spec.fact_mul fun hempty => ?_
    obtain ⟨hrow, hbody⟩ := hnone hempty
    have hsame : Function.update rows i row = rows := by rw [hrow, ← hempty, Function.update_eq_self]
    refine (hbody.frame _).post fun r => ?_
    have hslots : pts tables (.tables mclHashMaxSize slots) * othersAt i slots rows ≤
        (slotsAt tables slots rows : HProp (Cell ν φ)) := by
      rw [slotsAt_eq hi, hslot]
      exact mul_le_mul_right (le_fact_mul hempty) _
    rw [hsame, mul_comm]
    exact mul_le_mul_left (le_trans (mul_le_mul_right hslots _) (slotsAt_le_tableAt hlists)) _
  | some list =>
    refine ((hsome list).frame _).post fun r => ?_
    rw [mul_right_comm]
    exact mul_le_mul_left (bucketAt_le_tableAt hi hslot hlists) _

/-- A bucket with a pair in it is not made. -/
theorem table_index_reads (hi : i < mclHashMaxSize) (hne : rows i ≠ []) {body : Addr → MclM ν φ α} {v : α}
    (hbody : ∀ list, Reads (bucketAt list (rows i) * K) (body list) v) :
    Reads (tableAt ht keyType eraseFn lists rows * K) (readHash ht >>= fun head => findIndex head.tables i >>= body) v := by
  have htable : Spec (tableAt ht keyType eraseFn lists rows * K)
      (readHash ht >>= fun head => findIndex head.tables i >>= body) fun r =>
      tableAt ht keyType eraseFn (insert i lists) (Function.update rows i (rows i)) * (fact (r = v) * K) :=
    table_index hi fun list => Reads.mul_iff.mp (hbody list)
  refine Spec.known (fun h hh => mem_lists hi hne hh) fun hmem => Reads.mul_iff.mpr ?_
  rwa [Function.update_eq_self, Finset.insert_eq_of_mem hmem] at htable

theorem table_slot_reads (hi : i < mclHashMaxSize) {body : Option Addr → MclM ν φ α} {v : α}
    (hnone : rows i = [] → Reads K (body none) v)
    (hsome : ∀ list, Reads (bucketAt list (rows i) * K) (body (some list)) v) :
    Reads (tableAt ht keyType eraseFn lists rows * K) (readHash ht >>= fun head => readSlot head.tables i >>= body) v := by
  have htable : Spec (tableAt ht keyType eraseFn lists rows * K)
      (readHash ht >>= fun head => readSlot head.tables i >>= body)
      fun r => tableAt ht keyType eraseFn lists (Function.update rows i (rows i)) * (fact (r = v) * K) :=
    table_slot hi (fun hempty => ⟨hempty, hnone hempty⟩) fun list => Reads.mul_iff.mp (hsome list)
  rw [Function.update_eq_self] at htable
  exact Reads.mul_iff.mpr htable

/-- The head of a table is read; where its array is does not matter. -/
theorem table_head {k : HashHead φ → MclM ν φ α} {S : α → HProp (Cell ν φ)}
    (hk : ∀ tables, Spec (tableAt ht keyType eraseFn lists rows * K) (k ⟨tables, mclHashMaxSize, keyType, eraseFn⟩) S) :
    Spec (tableAt ht keyType eraseFn lists rows * K) (readHash ht >>= k) S := by
  refine Spec.exists_mul fun tables => readHash_reads.left.left.call ?_
  exact (hk tables).pre (mul_le_mul_left tableAt_intro _)

end Body

/-! Inserts. -/

theorem ne_nil_of_not_room {subFlg : Bool} (hno : ¬ Hash.Room subFlg key row) : row ≠ [] := by
  intro hnil
  apply hno
  rw [hnil]
  exact .inr ⟨rfl, show (0 : ℤ) < mclListMaxSize by decide⟩

section Insert
variable (hkey : p.key.Valid) (hrow : ∀ i, ∀ q ∈ rows i, q.key.Valid)
include hkey hrow

theorem doHashInsert_room (hi : bucketOf p.key = some i) (hcap : ((rows i).length : ℤ) ≤ mclListMaxSize)
    {subFlg : Bool} (hroom : Hash.Room subFlg p.key (rows i)) :
    Spec (tableAt ht keyType eraseFn lists rows * pairAt pairp p : HProp (Cell ν φ))
      (doHashInsert (Mcl.calcHash p.key) pairp ht subFlg freeFn) fun r =>
      tableAt ht keyType eraseFn (insert i lists) (Function.update rows i (p :: dropUnder p.key (rows i))) *
        fact (r = (1, (pairUnder p.key (rows i)).elim [] (Mcl.destroyPair · freeFn))) := by
  obtain ⟨hav, hidx⟩ := bucketOf_eq_some.mp hi
  rw [doHashInsert, hidx]
  rw [hidx] at hav
  rw [hav]
  refine table_index (bucketOf_lt hi) fun list => ?_
  simp only [mul_comm (bucketAt list _) (fact _)]
  exact insertIn_room hkey (hrow i) hcap hroom freeFn

theorem doHashInsert_refused {subFlg : Bool} (hno : ∀ i, bucketOf p.key = some i → ¬ Hash.Room subFlg p.key (rows i)) :
    Reads (tableAt ht keyType eraseFn lists rows * pairAt pairp p : HProp (Cell ν φ))
      (doHashInsert (Mcl.calcHash p.key) pairp ht subFlg freeFn) (0, []) := by
  rw [doHashInsert]
  cases hav : availableHashValue (Mcl.calcHash p.key) with
  | false => exact Reads.pure
  | true =>
    have hi : bucketOf p.key = some (Mcl.calcHash p.key).toNat := if_pos hav
    exact table_index_reads (bucketOf_lt hi) (ne_nil_of_not_room (hno _ hi)) fun list =>
      insertIn_refused hkey (hrow _) (hno _ hi) freeFn

end Insert

section InsertKey
variable (hkey : key.Valid) (htype : keyType = key.type) (v : ν) (addr : Addr)
include hkey htype

/-- What an insert does before it looks for the bucket. -/
theorem hashInsert_bind {subFlg : Bool} {S : ℤ × Freed φ ν → HProp (Cell ν φ)}
    (hdo : ∀ pairp, Spec (tableAt ht keyType eraseFn lists rows * pairAt pairp ⟨addr, key.copy, some v⟩)
      (doHashInsert (Mcl.calcHash key.copy) pairp ht subFlg freeFn >>= fun r =>
        if r.1 = 0 then do
          let freed' ← destroyPair pairp none
          pure (r.1, r.2 ++ freed')
        else pure (r.1, r.2)) S) :
    Spec (tableAt ht keyType eraseFn lists rows * dataAt keyData key) (hashInsert keyData key.type (some v) ht subFlg freeFn)
      fun r => S r * dataAt keyData key := by
  refine table_head fun tables => ?_
  rw [if_neg (not_not.mpr htype)]
  refine (calcHash_reads hkey).right.call ?_
  rw [mul_comm, ← HashKey.calcHash_copy hkey]
  refine Spec.call (makePair_spec hkey v addr) fun pairp => ?_
  rw [mul_comm, ← mul_assoc]
  exact (hdo pairp).frame _

variable (hrow : ∀ i, ∀ q ∈ rows i, q.key.Valid)
include hrow

theorem hashInsert_room (hi : bucketOf key = some i) (hcap : ((rows i).length : ℤ) ≤ mclListMaxSize) {subFlg : Bool}
    (hroom : Hash.Room subFlg key (rows i)) (hp : p = ⟨addr, key.copy, some v⟩) :
    Spec (tableAt ht keyType eraseFn lists rows * dataAt keyData key)
      (hashInsert keyData key.type (some v) ht subFlg freeFn) fun r =>
      fact (r = (1, (pairUnder key (rows i)).elim [] (Mcl.destroyPair · freeFn))) *
        tableAt ht keyType eraseFn (insert i lists) (Function.update rows i (p :: dropUnder p.key (rows i))) * dataAt keyData key := by
  subst hp
  have hunder : pairUnder key.copy (rows i) = pairUnder key (rows i) := Hash.WF.pairUnder_copy hkey (rows i)
  have hroom' : Hash.Room subFlg key.copy (rows i) := by
    unfold Hash.Room
    rwa [hunder]
  rw [← hunder]
  refine hashInsert_bind hkey htype v addr fun pairp => ?_
  refine (doHashInsert_room (HashKey.copy_valid hkey) hrow ((bucketOf_copy hkey).trans hi) hcap hroom').bind fun r => ?_
  rw [mul_comm]
  refine Spec.fact_mul fun hr => ?_
  rw [hr, if_neg Int.one_ne_zero]
  exact Spec.ret rfl

theorem hashInsert_refused {subFlg : Bool} (hno : ∀ i, bucketOf key = some i → ¬ Hash.Room subFlg key (rows i)) :
    Reads (tableAt ht keyType eraseFn lists rows * dataAt keyData key)
      (hashInsert keyData key.type (some v) ht subFlg freeFn) (0, []) := by
  have hno' : ∀ i, bucketOf key.copy = some i → ¬ Hash.Room subFlg key.copy (rows i) := by
    intro i hi
    unfold Hash.Room
    rw [Hash.WF.pairUnder_copy hkey]
    exact hno i ((bucketOf_copy hkey).symm.trans hi)
  have hspec : Spec (tableAt ht keyType eraseFn lists rows * dataAt keyData key)
      (hashInsert keyData key.type (some v) ht subFlg freeFn) fun r =>
      fact (r = (0, [])) * tableAt ht keyType eraseFn lists rows * dataAt keyData key := by
    refine hashInsert_bind hkey htype v 0 fun pairp => ?_
    refine (doHashInsert_refused (HashKey.copy_valid hkey) hrow hno').call ?_
    rw [mul_comm, if_pos rfl]
    refine Spec.call (destroyPair_spec none) fun freed => Spec.fact_mul fun hfreed => ?_
    rw [hfreed]
    exact Spec.ret rfl
  simp only [mul_assoc] at hspec
  exact hspec

end InsertKey

/-! The other calls. -/

section Lookup
variable (hkey : key.Valid) (hrow : ∀ i, ∀ q ∈ rows i, q.key.Valid)
include hkey hrow

theorem hashDelete_present (hi : bucketOf key = some i) (hp : pairUnder key (rows i) = some p) :
    Spec (tableAt ht keyType eraseFn lists rows * keyAt keyp keyData key : HProp (Cell ν φ))
      (hashDelete (Mcl.calcHash key) keyp ht freeFn) fun r =>
      tableAt ht keyType eraseFn lists (Function.update rows i (dropUnder key (rows i))) *
        (fact (r = (1, Mcl.destroyPair p freeFn)) * keyAt keyp keyData key) := by
  obtain ⟨hav, hidx⟩ := bucketOf_eq_some.mp hi
  rw [hashDelete, hidx]
  rw [hidx] at hav
  rw [hav]
  refine table_slot (bucketOf_lt hi) (fun hempty => ?_) fun list => ?_
  · rw [hempty] at hp
    exact absurd hp (by simp [pairUnder, KeySame.lookup])
  · simp only [mul_left_comm (bucketAt list _)]
    exact deleteIn_present hkey (hrow i) hp freeFn

end Lookup

section Search
variable (hkey : key.Valid) (hrow : ∀ i, ∀ q ∈ rows i, q.key.Valid)
include hkey hrow

theorem hashDelete_absent (hno : ∀ i, bucketOf key = some i → pairUnder key (rows i) = none) :
    Reads (tableAt ht keyType eraseFn lists rows * keyAt keyp keyData key : HProp (Cell ν φ))
      (hashDelete (Mcl.calcHash key) keyp ht freeFn) (0, []) := by
  rw [hashDelete]
  cases hav : availableHashValue (Mcl.calcHash key) with
  | false => exact table_head fun tables => Reads.pure
  | true =>
    have hi : bucketOf key = some (Mcl.calcHash key).toNat := if_pos hav
    exact table_slot_reads (bucketOf_lt hi) (fun _ => Reads.pure) fun list =>
      deleteIn_absent hkey (hrow _) (hno _ hi) freeFn

theorem hashFind_reads :
    Reads (tableAt ht keyType eraseFn lists rows * keyAt keyp keyData key : HProp (Cell ν φ))
      (hashFind (Mcl.calcHash key) keyp ht) ((hashKeySame.find HashPair.key bucketOf rows key).bind (·.val)) := by
  rw [hashFind]
  cases hav : availableHashValue (Mcl.calcHash key) with
  | false =>
    have hno : bucketOf key = none := by simp [bucketOf, hav]
    rw [KeySame.find, hno]
    exact table_head fun tables => Reads.pure
  | true =>
    have hi : bucketOf key = some (Mcl.calcHash key).toNat := if_pos hav
    rw [KeySame.find, hi]
    refine table_slot_reads (bucketOf_lt hi) (fun hempty => ?_) fun list => findIn_reads hkey (hrow _)
    rw [Option.bind_some, hempty]
    exact Reads.pure

end Search

/-! Clean and destroy. -/

theorem destroyPairs_spec {es : List (Entry ν)} (it : ListIter) (done todo : List (Entry ν)) (fuel : ℕ)
    (hes : es = done ++ todo) (hfuel : todo.length < fuel) :
    Spec (listAt list (es.map Prod.fst) * (todo.map entryAt).prod : HProp (Cell ν φ))
      (destroyPairs freeFn list fuel (atNode it (todo.map Prod.fst))) fun freed =>
      fact (freed = (todo.map Prod.snd).flatMap (Mcl.destroyPair · freeFn)) * listAt list (es.map Prod.fst) := by
  induction todo generalizing done fuel with
  | nil =>
    obtain ⟨fuel, rfl⟩ := Nat.exists_eq_add_one_of_ne_zero (Nat.ne_zero_of_lt hfuel)
    rw [List.map_nil, List.prod_nil, mul_one]
    exact Spec.ret rfl
  | cons e todo ih =>
    obtain ⟨fuel, rfl⟩ := Nat.exists_eq_add_one_of_ne_zero (Nat.ne_zero_of_lt hfuel)
    have hnodes : es.map Prod.fst = done.map Prod.fst ++ e.1 :: todo.map Prod.fst := by
      rw [hes, List.map_append, List.map_cons]
    have hinfo : Reads (listAt list (es.map Prod.fst)) (iterInfo (atNode it (e.1 :: todo.map Prod.fst)) : MclM ν φ _)
        (some e.1.2) := hnodes ▸ iterInfo_reads it
    have hnext : Reads (listAt list (es.map Prod.fst)) (iterNext (atNode it (e.1 :: todo.map Prod.fst)) list : MclM ν φ _)
        (atNode it (todo.map Prod.fst)) := hnodes ▸ iterNext_reads it
    refine hinfo.left.call ?_
    rw [List.map_cons, List.prod_cons, mul_left_comm]
    refine Spec.call (destroyPair_spec freeFn) fun freed => Spec.fact_mul fun hfreed => ?_
    refine hnext.left.call ?_
    refine (ih (done ++ [e]) fuel (by simp [hes]) (Nat.lt_of_succ_lt_succ hfuel)).bind fun rest => ?_
    refine Spec.fact_mul fun hrest => Spec.ret ?_
    rw [hfreed, hrest, List.map_cons, List.flatMap_cons]

/-- `n` places from `i` on, overwritten. -/
def clear {γ : Type} (d : γ) (n i : ℕ) (f : ℕ → γ) (j : ℕ) : γ := if i ≤ j ∧ j < i + n then d else f j

theorem clear_zero {γ : Type} (d : γ) (i : ℕ) (f : ℕ → γ) : clear d 0 i f = f :=
  funext fun j => if_neg (by omega)

theorem clear_succ {γ : Type} (d : γ) (n i : ℕ) (f : ℕ → γ) :
    clear d n (i + 1) (Function.update f i d) = clear d (n + 1) i f := by
  funext j
  by_cases hj : j = i
  · subst hj
    rw [clear, clear, if_neg (by omega), if_pos (by omega), Function.update_self]
  · have hrow : (i + 1 ≤ j ∧ j < i + 1 + n) ↔ (i ≤ j ∧ j < i + (n + 1)) := by omega
    rw [clear, clear, Function.update_of_ne hj]
    simp only [hrow]

/-- One bucket with a list in `mcl_hash_clean`. -/
theorem cleanBucket_spec (hi : i < mclHashMaxSize) (hslot : slots i = some list) {α : Type}
    {k : Freed φ ν → MclM ν φ α} {S : α → HProp (Cell ν φ)}
    (hk : Spec (slotsAt tables (Function.update slots i none) (Function.update rows i []))
      (k ((rows i).flatMap (Mcl.destroyPair · freeFn))) S) :
    Spec (slotsAt tables slots rows) (do
      let fuel ← HeapM.blockCount
      let it ← iterHead .initializer list
      let freed ← destroyPairs freeFn list fuel it
      mclListDestroy list
      writeSlot tables i none
      k freed) S := by
  have hafter : (slotsAt tables (Function.update slots i none) (Function.update rows i []) : HProp (Cell ν φ)) =
      pts tables (.tables mclHashMaxSize (Function.update slots i none)) * othersAt i slots rows := by
    rw [slotsAt_eq hi, Function.update_self, Function.update_self, othersAt_slot, othersAt_row, slotAt_none, one_mul]
  rw [hafter] at hk
  rw [slotsAt_eq hi, hslot, mul_left_comm]
  refine Spec.exists_mul fun es => ?_
  rw [mul_assoc]
  refine Spec.fact_mul fun hes => ?_
  rw [entriesAt, mul_assoc]
  refine Spec.call (Spec.blockCount (listAt_sized list _)) fun fuel => ?_
  rw [mul_assoc, List.length_map]
  refine Spec.fact_mul fun hfuel => ?_
  refine (iterHead_reads _).left.call ?_
  rw [← mul_assoc]
  refine Spec.call (destroyPairs_spec _ [] es fuel (List.nil_append es).symm hfuel) fun freed => ?_
  rw [mul_assoc]
  refine Spec.fact_mul fun hfreed => ?_
  rw [hes] at hfreed
  refine Spec.call mclListDestroy_spec fun _ => ?_
  rw [one_mul, hfreed]
  exact Spec.call (writeSlot_spec hi none) fun _ => hk

theorem cleanLoop_spec (n i : ℕ) (slots : ℕ → Option Addr) (rows : ℕ → List (HashPair ν))
    (hn : i + n ≤ mclHashMaxSize) : Spec (slotsAt tables slots rows : HProp (Cell ν φ))
      (cleanLoop freeFn tables n i) fun freed =>
      fact (freed = ((List.range' i n).flatMap rows).flatMap (Mcl.destroyPair · freeFn)) *
        slotsAt tables (clear none n i slots) (clear [] n i rows) := by
  induction n generalizing i slots rows with
  | zero =>
    rw [clear_zero, clear_zero]
    exact Spec.ret rfl
  | succ n ih =>
    have hi : i < mclHashMaxSize := by omega
    have hrest : ∀ j ∈ List.range' (i + 1) n, Function.update rows i [] j = rows j := by
      intro j hj
      exact Function.update_of_ne (Nat.ne_of_gt (List.mem_range'_1.mp hj).1) _ _
    have hloop := ih (i + 1) (Function.update slots i none) (Function.update rows i []) (by omega)
    rw [clear_succ, clear_succ, List.flatMap_congr hrest] at hloop
    rw [List.range'_succ, List.flatMap_cons, List.flatMap_append]
    refine (readSlot_reads hi).call ?_
    cases hslot : slots i with
    | none =>
      refine Spec.known (fun h hh => slotsAt_none hi hslot hh) fun hempty => ?_
      have hslots : Function.update slots i none = slots := by rw [← hslot, Function.update_eq_self]
      have hrows : Function.update rows i [] = rows := by rw [← hempty, Function.update_eq_self]
      rw [hslots, hrows] at hloop
      rw [hempty]
      exact hloop
    | some list =>
      refine cleanBucket_spec hi hslot (hloop.bind fun rest => Spec.fact_mul fun hrest => Spec.ret ?_)
      rw [hrest]

/-- A table without a list. -/
def clearedAt (ht : Addr) (keyType : DataType) (eraseFn : Option φ) : HProp (Cell ν φ) :=
  ⨆ tables, ⨆ slots, fact (∀ i < mclHashMaxSize, slots i = none) *
    (pts ht (.hash ⟨tables, mclHashMaxSize, keyType, eraseFn⟩) * pts tables (.tables mclHashMaxSize slots))

theorem slotsAt_cleared (hslots : ∀ i < mclHashMaxSize, slots i = none) (hrows : ∀ i < mclHashMaxSize, rows i = []) :
    (slotsAt tables slots rows : HProp (Cell ν φ)) = pts tables (.tables mclHashMaxSize slots) := by
  have hone : ∀ i ∈ Finset.range mclHashMaxSize, (slotAt (slots i) (rows i) : HProp (Cell ν φ)) = 1 := by
    intro i hi
    rw [hslots i (Finset.mem_range.mp hi), hrows i (Finset.mem_range.mp hi), slotAt_none]
  rw [slotsAt, Finset.prod_eq_one hone, mul_one]

theorem clearedAt_intro (hslots : ∀ i < mclHashMaxSize, slots i = none) :
    pts ht (.hash ⟨tables, mclHashMaxSize, keyType, eraseFn⟩) * pts tables (.tables mclHashMaxSize slots) ≤
      (clearedAt ht keyType eraseFn : HProp (Cell ν φ)) :=
  le_iSup_of_le tables (le_iSup_of_le slots (le_fact_mul hslots))

theorem clearedAt_le : clearedAt ht keyType eraseFn ≤ (tableAt ht keyType eraseFn ∅ (fun _ => []) : HProp (Cell ν φ)) := by
  refine iSup_le fun tables => iSup_le fun slots => ?_
  rintro h hh
  obtain ⟨hslots, hblocks⟩ := mem_fact_mul.mp hh
  rw [← slotsAt_cleared hslots fun _ _ => rfl] at hblocks
  have hnone : listsOf slots = ∅ := Finset.filter_eq_empty_iff.mpr fun i hi => not_not.mpr (hslots i (Finset.mem_range.mp hi))
  exact slotsAt_le_tableAt hnone hblocks

theorem clear_all {γ : Type} (d : γ) (n : ℕ) (f : ℕ → γ) : ∀ i < n, clear d n 0 f i = d :=
  fun i hi => if_pos (by omega)

theorem mclHashClean_spec : Spec (tableAt ht keyType eraseFn lists rows : HProp (Cell ν φ)) (mclHashClean ht freeFn)
    fun freed => fact (freed = (KeySame.entries mclHashMaxSize rows).flatMap (Mcl.destroyPair · freeFn)) *
      clearedAt ht keyType eraseFn := by
  refine Spec.exists_pre fun tables => readHash_reads.left.call ?_
  rw [mul_comm]
  refine Spec.exists_mul fun slots => ?_
  rw [mul_assoc]
  refine Spec.fact_mul fun _ => ?_
  refine (Spec.frame (cleanLoop_spec mclHashMaxSize 0 slots rows (Nat.zero_add _).le) _).post fun freed => ?_
  rw [slotsAt_cleared (clear_all none _ slots) (clear_all [] _ rows), mul_assoc, mul_comm (pts tables _),
    ← List.range_eq_range', KeySame.entries]
  exact mul_le_mul_right (clearedAt_intro (clear_all none _ slots)) _

theorem mclHashDestroy_spec : Spec (tableAt ht keyType eraseFn lists rows : HProp (Cell ν φ)) (mclHashDestroy ht freeFn)
    fun freed => fact (freed = (KeySame.entries mclHashMaxSize rows).flatMap (Mcl.destroyPair · freeFn)) := by
  refine mclHashClean_spec.bind fun freed => Spec.fact_mul fun hfreed => ?_
  refine Spec.exists_pre fun tables => Spec.exists_pre fun slots => Spec.fact_mul fun _ => ?_
  refine readHash_reads.left.call ?_
  rw [mul_comm]
  refine Spec.free_bind ((Spec.free _ _).bind fun _ => ?_)
  refine Spec.pure ?_
  rintro h rfl
  exact ⟨hfreed, rfl⟩

theorem mclHashNew_spec (htype : availableHashType keyType = true) : Spec (1 : HProp (Cell ν φ)) (mclHashNew keyType)
    fun r => ⨆ ht, fact (r = some ht) * clearedAt ht keyType none := by
  rw [mclHashNew, htype]
  refine Spec.alloc_bind fun newHash => Spec.alloc_bind fun tables => ?_
  rw [mul_one, mul_comm]
  refine Spec.store_bind (Spec.pure ?_)
  refine le_iSup_of_le newHash (le_trans (clearedAt_intro fun _ _ => rfl) (le_fact_mul rfl))

theorem mclHashCtrl_spec (cmd : DsCtrlCmd) (freeFn : φ) :
    Spec (tableAt ht keyType eraseFn lists rows : HProp (Cell ν φ)) (mclHashCtrl cmd (some freeFn) ht) fun r =>
      fact (r = 1) * tableAt ht keyType (match cmd with
        | .registEraseFn => some freeFn
        | .unregistEraseFn => none) lists rows := by
  refine Spec.exists_pre fun tables => readHash_reads.left.call ?_
  cases cmd with
  | registEraseFn =>
    exact Spec.store_bind (Spec.pre tableAt_intro (Spec.ret rfl))
  | unregistEraseFn =>
    exact Spec.store_bind (Spec.pre tableAt_intro (Spec.ret rfl))

/-! The number of blocks. -/

theorem length_entries (n : ℕ) (rows : ℕ → List (HashPair ν)) :
    (KeySame.entries n rows).length = ∑ i ∈ Finset.range n, (rows i).length := by
  rw [KeySame.entries, List.length_flatMap]
  rfl

theorem slotAt_sized {slot : Option Addr} (hrow : ∀ p ∈ row, p.key.type = keyType) (hempty : slot = none → row = []) :
    Sized (slotAt slot row : HProp (Cell ν φ)) ((if slot ≠ none then 1 else 0) + (3 + dataBlocks keyType) * row.length) := by
  cases slot with
  | none =>
    rw [hempty rfl, slotAt_none]
    exact .one
  | some list =>
    rw [if_pos (Option.some_ne_none list)]
    exact bucketAt_sized hrow

theorem slotsAt_sized (hrows : ∀ i, ∀ p ∈ rows i, p.key.type = keyType)
    (hempty : ∀ i < mclHashMaxSize, slots i = none → rows i = []) :
    Sized (slotsAt tables slots rows : HProp (Cell ν φ))
      (1 + ((listsOf slots).card + (3 + dataBlocks keyType) * (KeySame.entries mclHashMaxSize rows).length)) := by
  have hsum : ∑ i ∈ Finset.range mclHashMaxSize, ((if slots i ≠ none then 1 else 0) +
      (3 + dataBlocks keyType) * (rows i).length) =
      (listsOf slots).card + (3 + dataBlocks keyType) * (KeySame.entries mclHashMaxSize rows).length := by
    rw [Finset.sum_add_distrib, listsOf, Finset.card_filter, length_entries, Finset.mul_sum]
  rw [← hsum]
  exact (Sized.pts _ _).mul (Sized.finset_prod fun i hi =>
    slotAt_sized (hrows i) (hempty i (Finset.mem_range.mp hi)))

/-- Two blocks for the table, one for each list, and for each pair its node, the pair and its key. -/
theorem tableAt_card (hrows : ∀ i, ∀ p ∈ rows i, p.key.type = keyType) {h : Heap (Cell ν φ)}
    (hh : h ∈ tableAt ht keyType eraseFn lists rows) :
    h.keys.card = 2 + lists.card + (3 + dataBlocks keyType) * (KeySame.entries mclHashMaxSize rows).length := by
  obtain ⟨tables, slots, rfl, hh, hempty⟩ := of_mem_tableAt hh
  rw [(Sized.pts _ _).mul (slotsAt_sized hrows hempty) h hh]
  omega

end Mcl.HashCode
