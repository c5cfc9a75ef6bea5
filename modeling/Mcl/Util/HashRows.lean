import Mcl.Util.Hash

/-! What each call of `mcl_hash.c` does to the pairs in the buckets of a well-formed table. -/
namespace Mcl
open Mcl.Library

namespace MclList

variable {α φ : Type} {l : MclList α φ} {ps : List α} {brk : Addr}

/-- The list holds the elements `ps`, none of them NULL, in nodes allocated before `brk`. -/
structure Stores (l : MclList α φ) (brk : Addr) (ps : List α) : Prop where
  elems : l.elems = ps.map some
  size : l.listSz = ps.length
  nodup : (l.ents.map (·.addr)).Nodup
  fresh : ∀ e ∈ l.ents, e.addr < brk

theorem stores_new : (new : MclList α φ).Stores brk [] :=
  ⟨rfl, rfl, List.nodup_nil, fun _ he => absurd he List.not_mem_nil⟩

namespace Stores

theorem mono {brk' : Addr} (h : l.Stores brk ps) (hbrk : brk ≤ brk') : l.Stores brk' ps :=
  ⟨h.elems, h.size, h.nodup, fun e he => Nat.lt_of_lt_of_le (h.fresh e he) hbrk⟩

theorem filterMap_elems (h : l.Stores brk ps) : l.elems.filterMap id = ps := by
  rw [h.elems, List.filterMap_map]
  exact List.filterMap_some

theorem find (h : l.Stores brk ps) (hit : α → Bool) : l.find hit = ps.find? hit := by
  have hmap : (l.ents.find? fun e => e.data.all hit).map (·.data) = (ps.find? hit).map some :=
    calc (l.ents.find? fun e => e.data.all hit).map (·.data)
      _ = l.elems.find? (·.all hit) := by rw [MclList.elems, List.find?_map]; rfl
      _ = (ps.map some).find? (·.all hit) := by rw [h.elems]
      _ = (ps.find? hit).map some := List.find?_map
  unfold MclList.find
  cases hf : l.ents.find? (fun e => e.data.all hit) <;> cases hp : ps.find? hit <;> simp_all

theorem insert (h : l.Stores brk ps) (hlt : ps.length < mclListMaxSize) (p : α) :
    ∃ l', l.insert brk (some p) = (1, l') ∧ l'.Stores (brk + 1) (p :: ps) := by
  have hsz : ¬ l.listSz ≥ mclListMaxSize := by
    rw [h.size]
    omega
  refine ⟨_, if_neg hsz, ?_, ?_, ?_, ?_⟩
  · exact congrArg (some p :: ·) h.elems
  · simp [h.size]
  · refine List.nodup_cons.mpr ⟨fun hm => ?_, h.nodup⟩
    obtain ⟨e, he, hb⟩ := List.mem_map.mp hm
    exact absurd hb (Nat.ne_of_lt (h.fresh e he))
  · intro e he
    rcases List.mem_cons.mp he with rfl | he
    · exact Nat.lt_succ_self brk
    · exact Nat.lt_succ_of_lt (h.fresh e he)

theorem insert_full (h : l.Stores brk ps) (hfull : ¬ ps.length < mclListMaxSize) (node : Addr) (p : α) :
    l.insert node (some p) = (0, l) :=
  if_pos (by rw [h.size]; omega)

theorem delete [DecidableEq α] (h : l.Stores brk ps) {p : α} (hp : p ∈ ps) (freeFn : Option φ) :
    ∃ l', l.delete (some p) freeFn = (1, l', callFree freeFn (some p)) ∧
      l'.Stores brk (ps.eraseP (· == p)) := by
  have hmem : some p ∈ l.elems := by
    rw [h.elems]
    exact List.mem_map_of_mem hp
  obtain ⟨e, he, hd⟩ := List.mem_map.mp hmem
  obtain ⟨x, hx⟩ : ∃ x, l.ents.find? (·.data == some p) = some x := by
    rw [← Option.isSome_iff_exists, List.find?_isSome]
    exact ⟨e, he, by simp [hd]⟩
  have hxd : x.data = some p := by simpa using List.find?_some hx
  refine ⟨{ l with ents := l.ents.eraseP (·.data == some p), listSz := l.listSz - 1 }, ?_, ?_, ?_, ?_, ?_⟩
  · simp only [MclList.delete, del, hx, hxd]
  · calc (l.ents.eraseP (·.data == some p)).map (·.data)
      _ = l.elems.eraseP (· == some p) := by rw [MclList.elems, List.eraseP_map]; rfl
      _ = (ps.map some).eraseP (· == some p) := by rw [h.elems]
      _ = (ps.eraseP (· == p)).map some := by simp [List.eraseP_map, Function.comp_def]
  · have hlen := List.length_eraseP_of_mem (p := (· == p)) hp (by simp)
    have hpos := List.length_pos_of_mem hp
    change l.listSz - 1 = _
    rw [h.size, hlen]
    omega
  · exact h.nodup.sublist (List.eraseP_sublist.map _)
  · exact fun e he => h.fresh e (List.mem_of_mem_eraseP he)

end Stores
end MclList

variable {ν φ : Type}

/-- The pair that `key_cmp` finds under a key. -/
abbrev pairUnder (key : HashKey) (ps : List (HashPair ν)) : Option (HashPair ν) :=
  hashKeySame.lookup HashPair.key key ps

abbrev dropUnder (key : HashKey) (ps : List (HashPair ν)) : List (HashPair ν) :=
  hashKeySame.drop HashPair.key key ps

namespace Hash

/-- The pairs of bucket `i`, in list order. -/
def bucket (ht : Hash ν φ) (i : ℕ) : List (HashPair ν) :=
  match ht.tables i with
  | none => []
  | some list => list.elems.filterMap id

/-- The pair stored under a key. -/
def stored (ht : Hash ν φ) (key : HashKey) : Option (HashPair ν) :=
  hashKeySame.find HashPair.key bucketOf ht.bucket key

/-- A pair that belongs into bucket `i` of a table with keys of the given type. -/
structure Placed (type : DataType) (i : ℕ) (p : HashPair ν) : Prop where
  bucketOf : bucketOf p.key = some i
  type : p.key.type = type
  valid : p.key.Valid
  val : p.val ≠ none

structure WF (ht : Hash ν φ) : Prop where
  maxHashSize : ht.maxHashSize = mclHashMaxSize
  lists : ∀ i list, ht.tables i = some list →
    i < mclHashMaxSize ∧ list.Stores ht.brk (ht.bucket i)
  cap : ∀ i, (ht.bucket i).length ≤ mclListMaxSize
  distinct : ∀ i, hashKeySame.Distinct HashPair.key (ht.bucket i)
  placed : ∀ i, ∀ p ∈ ht.bucket i, Placed ht.keyType i p

/-- The table a call leaves behind: still well formed, with the buckets `t`. -/
structure Becomes (ht ht' : Hash ν φ) (t : ℕ → List (HashPair ν)) : Prop where
  wf : ht'.WF
  bucket : ht'.bucket = t
  keyType : ht'.keyType = ht.keyType
  eraseFn : ht'.eraseFn = ht.eraseFn

variable {ht ht' : Hash ν φ} {i : ℕ} {list : MclList (HashPair ν) φ} {ps : List (HashPair ν)}
  {key : HashKey} {p : HashPair ν}

theorem mem_stored (hs : ht.stored key = some p) :
    ∃ i, bucketOf key = some i ∧ pairUnder key (ht.bucket i) = some p := by
  obtain ⟨i, hi, hp⟩ := Option.bind_eq_some_iff.mp hs
  exact ⟨i, hi, hp⟩

theorem bucket_setTable (h : list.Stores ht.brk ps) :
    (ht.setTable i (some list)).bucket = Function.update ht.bucket i ps := by
  funext j
  by_cases hj : j = i
  · subst hj
    simp only [bucket, setTable, Function.update_self, h.filterMap_elems]
  · simp only [bucket, setTable, Function.update_of_ne hj]

theorem bucket_of_tables_none (hl : ht.tables i = none) : ht.bucket i = [] := by
  simp only [bucket, hl]

theorem wf_new (type : DataType) : (Hash.new type : Hash ν φ).WF :=
  ⟨rfl, fun i list hl => absurd hl (by simp [Hash.new]),
    fun i => by simp [bucket, Hash.new, mclListMaxSize], fun i => List.Pairwise.nil,
    fun i p hp => absurd hp List.not_mem_nil⟩

namespace WF

/-- One list exchanged for another. -/
theorem setTable (h : ht.WF) (hi : i < mclHashMaxSize) (hl : list.Stores ht.brk ps)
    (hcap : ps.length ≤ mclListMaxSize) (hd : hashKeySame.Distinct HashPair.key ps)
    (hp : ∀ p ∈ ps, Placed ht.keyType i p) :
    Becomes ht (ht.setTable i (some list)) (Function.update ht.bucket i ps) := by
  have hb := bucket_setTable (i := i) hl
  refine ⟨⟨h.maxHashSize, ?_, ?_, ?_, ?_⟩, hb, rfl, rfl⟩
  · intro j l hj
    by_cases hji : j = i
    · subst hji
      simp only [Hash.setTable, Function.update_self, Option.some.injEq] at hj
      subst hj
      rw [hb, Function.update_self]
      exact ⟨hi, hl⟩
    · simp only [Hash.setTable, Function.update_of_ne hji] at hj
      rw [hb, Function.update_of_ne hji]
      exact h.lists j l hj
  · rw [hb]
    exact (Function.forall_update_iff _ (p := fun _ ps => (List.length ps : ℤ) ≤ mclListMaxSize)).mpr
      ⟨hcap, fun j _ => h.cap j⟩
  · rw [hb]
    exact (Function.forall_update_iff _ (p := fun _ => hashKeySame.Distinct HashPair.key)).mpr
      ⟨hd, fun j _ => h.distinct j⟩
  · rw [hb]
    exact (Function.forall_update_iff _ (p := fun j ps => ∀ p ∈ ps, Placed ht.keyType j p)).mpr
      ⟨hp, fun j _ => h.placed j⟩

theorem alloc (h : ht.WF) : ht.alloc.2.WF :=
  ⟨h.maxHashSize, fun i l hl => ⟨(h.lists i l hl).1, (h.lists i l hl).2.mono (Nat.le_succ _)⟩,
    h.cap, h.distinct, h.placed⟩

/-- The list that `do_hash_insert` works on, a new one where the bucket has none. -/
theorem getD_stores (h : ht.WF) (i : ℕ) :
    ((ht.tables i).getD .new).Stores ht.brk (ht.bucket i) := by
  cases hl : ht.tables i with
  | none =>
    rw [bucket_of_tables_none hl]
    exact MclList.stores_new
  | some list => exact (h.lists i list hl).2

theorem insertInto (h : ht.WF) (hl : list.Stores ht.brk ps) (hlt : ps.length < mclListMaxSize)
    (hd : hashKeySame.Distinct HashPair.key (p :: ps))
    (hp : ∀ q ∈ p :: ps, Placed ht.keyType i q) :
    ∃ ht', Mcl.insertInto i list p ht = (1, ht') ∧
      Becomes ht ht' (Function.update ht.bucket i (p :: ps)) := by
  obtain ⟨list', hins, hl'⟩ := hl.insert hlt p
  have hi := bucketOf_lt (hp p (by simp)).bucketOf
  have hset := h.alloc.setTable hi hl' (by simp only [List.length_cons]; omega) hd hp
  refine ⟨_, ?_, hset.wf, hset.bucket, hset.keyType, hset.eraseFn⟩
  simp only [Mcl.insertInto, Hash.alloc, hins]

theorem keep (h : ht.WF) : Becomes ht ht ht.bucket := ⟨h, rfl, rfl, rfl⟩

theorem setTable_same (h : ht.WF) (hl : list.Stores ht.brk (ht.bucket i)) (hi : i < mclHashMaxSize) :
    Becomes ht (ht.setTable i (some list)) ht.bucket := by
  have hset := h.setTable hi hl (h.cap i) (h.distinct i) (h.placed i)
  rwa [Function.update_eq_self] at hset

end WF

/-- An insert has room in a bucket: it may replace what is there, or the list can grow. -/
def Room (subFlg : Bool) (key : HashKey) (ps : List (HashPair ν)) : Prop :=
  (pairUnder key ps ≠ none ∧ subFlg = true) ∨
    (pairUnder key ps = none ∧ ps.length < mclListMaxSize)

theorem find_keyPairCmp (h : list.Stores ht.brk ps) : list.find (keyPairCmp key) = pairUnder key ps :=
  h.find _

theorem find_pairPairCmp (h : list.Stores ht.brk ps) : list.find (pairPairCmp p) = pairUnder p.key ps :=
  h.find _

namespace WF

theorem placed_dropUnder (h : ht.WF) : ∀ q ∈ dropUnder key (ht.bucket i), Placed ht.keyType i q :=
  fun q hq => h.placed i q (KeySame.mem_of_mem_drop hq)

variable [DecidableEq ν]

/-- Removing the pair that a lookup returned. -/
theorem removeFound (hl : list.Stores ht.brk ps) (hp : pairUnder key ps = some p) :
    ∃ list', list.delete (some p) none = (1, list', []) ∧
      list'.Stores ht.brk (dropUnder key ps) := by
  obtain ⟨list', hdel, hl'⟩ := hl.delete (KeySame.mem_of_lookup hp).1 none
  rw [KeySame.eraseP_beq_of_lookup hp] at hl'
  exact ⟨list', hdel, hl'⟩

/-- `do_hash_insert` past its range check. -/
theorem doHashInsert_eq (h : ht.WF) (hi : bucketOf p.key = some i) (subFlg : Bool)
    (freeFn : Option φ) :
    doHashInsert (calcHash p.key) p ht subFlg freeFn =
      let list := (ht.tables i).getD .new
      let ht' := ht.setTable i list
      match pairUnder p.key (ht.bucket i) with
      | some q =>
        if !subFlg then (0, ht', [])
        else
          let (ret, ht') := Mcl.insertInto i (list.delete (some q) none).2.1 p ht'
          (ret, ht', destroyPair q freeFn)
      | none =>
        let (ret, ht') := Mcl.insertInto i list p ht'
        (ret, ht', []) := by
  obtain ⟨hav, hidx⟩ := bucketOf_eq_some.mp hi
  rw [hidx] at hav ⊢
  have hfind := find_pairPairCmp (p := p) (h.getD_stores i)
  cases hu : pairUnder p.key (ht.bucket i) with
  | none => simp [doHashInsert, hav, hfind, hu]
  | some q => simp [doHashInsert, hav, hfind, hu]

theorem doHashInsert_refused (h : ht.WF) (hi : bucketOf p.key = some i) {subFlg : Bool}
    (hroom : ¬ Room subFlg p.key (ht.bucket i)) (freeFn : Option φ) :
    ∃ ht', doHashInsert (calcHash p.key) p ht subFlg freeFn = (0, ht', []) ∧
      Becomes ht ht' ht.bucket := by
  have hl := h.getD_stores i
  have hset := h.setTable_same hl (bucketOf_lt hi)
  unfold Room at hroom
  rw [h.doHashInsert_eq hi]
  cases hu : pairUnder p.key (ht.bucket i) with
  | some q =>
    have hsub : subFlg = false := by simpa [hu] using hroom
    exact ⟨_, by simp [hsub], hset⟩
  | none =>
    have hfull := hl.insert_full (by simpa [hu] using hroom) ht.brk p
    -- the node is not linked in: the list is stored back as it was
    have hagain := h.alloc.setTable_same (i := i) (hl.mono (Nat.le_succ _)) (bucketOf_lt hi)
    refine ⟨_, ?_, hagain.wf, hagain.bucket, rfl, rfl⟩
    simp only [Mcl.insertInto, Hash.alloc, Hash.setTable, hfull, Function.update_idem]

theorem doHashInsert_room (h : ht.WF) (hp : Placed ht.keyType i p) {subFlg : Bool}
    (hroom : Room subFlg p.key (ht.bucket i)) (freeFn : Option φ) :
    ∃ ht', doHashInsert (calcHash p.key) p ht subFlg freeFn =
        (1, ht', (pairUnder p.key (ht.bucket i)).elim [] (destroyPair · freeFn)) ∧
      Becomes ht ht' (Function.update ht.bucket i (p :: dropUnder p.key (ht.bucket i))) := by
  have hl := h.getD_stores i
  have hset := h.setTable_same hl (bucketOf_lt hp.bucketOf)
  have hd : hashKeySame.Distinct HashPair.key (p :: dropUnder p.key (ht.bucket i)) :=
    (h.distinct i).cons_drop
  have hplaced : ∀ q ∈ p :: dropUnder p.key (ht.bucket i), Placed ht.keyType i q := by
    intro q hq
    rcases List.mem_cons.mp hq with rfl | hq
    · exact hp
    · exact h.placed_dropUnder q hq
  -- after the removal, if any, the list holds `dropUnder` and is not full
  have hinsert : ∀ list' : MclList (HashPair ν) φ, list'.Stores ht.brk (dropUnder p.key (ht.bucket i)) →
      (dropUnder p.key (ht.bucket i)).length < mclListMaxSize →
      ∃ ht', Mcl.insertInto i list' p (ht.setTable i ((ht.tables i).getD .new)) = (1, ht') ∧
        Becomes ht ht' (Function.update ht.bucket i (p :: dropUnder p.key (ht.bucket i))) := by
    intro list' hl' hlt
    obtain ⟨ht', hins, hb⟩ := hset.wf.insertInto hl' hlt hd hplaced
    rw [hset.bucket] at hb
    exact ⟨ht', hins, hb.wf, hb.bucket, hb.keyType, hb.eraseFn⟩
  rw [h.doHashInsert_eq hp.bucketOf]
  cases hu : pairUnder p.key (ht.bucket i) with
  | some q =>
    have hsub : subFlg = true := by simpa [Room, hu] using hroom
    have hcap := h.cap i
    have hlen : (dropUnder p.key (ht.bucket i)).length + 1 = _ := KeySame.length_drop hu
    obtain ⟨list', hdel, hl'⟩ := removeFound hl hu
    obtain ⟨ht', hins, hb⟩ := hinsert list' hl' (by omega)
    exact ⟨ht', by simp [hsub, hdel, hins], hb⟩
  | none =>
    have hdrop : dropUnder p.key (ht.bucket i) = ht.bucket i := KeySame.drop_of_lookup_eq_none hu
    have hlt : (ht.bucket i).length < mclListMaxSize := by simpa [Room, hu] using hroom
    obtain ⟨ht', hins, hb⟩ := hinsert _ (by rw [hdrop]; exact hl) (by rw [hdrop]; exact hlt)
    exact ⟨ht', by simp [hins], hb⟩

end WF

/-- An insert that is refused and does not replace leaves every list as it was. -/
theorem doHashInsert_zero [DecidableEq ν] {hash : ℤ} {freeFn : Option φ} {freed : Freed φ ν}
    (h : doHashInsert hash p ht false freeFn = (0, ht', freed)) : ht' = { ht with brk := ht'.brk } := by
  unfold doHashInsert at h
  cases hav : availableHashValue hash with
  | false =>
    rw [hav] at h
    obtain ⟨-, rfl, -⟩ := h
    rfl
  | true =>
    simp only [hav, Bool.not_true, Bool.false_eq_true, if_false, Bool.not_false, if_true] at h
    cases hl : ht.tables hash.toNat with
    | none =>
      -- a new list takes the pair
      have hone : (Mcl.insertInto hash.toNat .new p (ht.setTable hash.toNat (some .new))).1 = 1 := rfl
      have hzero : (Mcl.insertInto hash.toNat .new p (ht.setTable hash.toNat (some .new))).1 = 0 := by
        rw [hl] at h
        exact congrArg (·.1) h
      exact absurd (hone.symm.trans hzero) (by simp)
    | some list =>
      have hsame : ht.setTable hash.toNat (some list) = ht := by
        rw [Hash.setTable, ← hl, Function.update_eq_self]
      rw [hl, Option.getD_some, hsame] at h
      cases hfind : list.find (pairPairCmp p) with
      | some pairFound =>
        simp only [hfind] at h
        obtain ⟨-, rfl, -⟩ := h
        rfl
      | none =>
        simp only [hfind, Mcl.insertInto, Hash.alloc, MclList.insert] at h
        split at h
        · obtain ⟨-, rfl, -⟩ := h
          simp only [Hash.setTable, ← hl, Function.update_eq_self]
        · exact absurd (congrArg Prod.fst h) (by simp)

theorem makePair_eq (key : HashKey) (v : ν) (ht : Hash ν φ) :
    makePair key v ht = (⟨ht.brk, key.copy, some v⟩, ht.alloc.2) := by
  cases key <;> rfl

theorem hashInsert_zero [DecidableEq ν] {v : ν} {freeFn : Option φ} {freed : Freed φ ν}
    (h : hashInsert key (some v) ht false freeFn = some (0, ht', freed)) : ht' = { ht with brk := ht'.brk } := by
  simp only [hashInsert, makePair_eq, Option.bind_eq_bind, Option.bind_eq_some_iff] at h
  obtain ⟨-, -, h⟩ := h
  cases hdo : doHashInsert (calcHash key) ⟨ht.brk, key.copy, some v⟩ ht.alloc.2 false freeFn with
  | mk ret r =>
    rw [hdo] at h
    obtain ⟨rfl, rfl, -⟩ := Option.some.inj h
    rw [doHashInsert_zero hdo]
    rfl

namespace WF

variable [DecidableEq ν]

/-! The calls. -/

omit [DecidableEq ν] in
theorem pairUnder_copy (hv : key.Valid) (ps : List (HashPair ν)) :
    pairUnder key.copy ps = pairUnder key ps :=
  (KeySame.lookup_congr (keyCmp_copy hv)).symm

theorem hashInsert_refused (h : ht.WF) (hv : key.Valid) (htype : ht.keyType = key.type)
    {subFlg : Bool} (hno : ∀ i, bucketOf key = some i → ¬ Room subFlg key (ht.bucket i)) (v : ν)
    (freeFn : Option φ) :
    ∃ ht', hashInsert key (some v) ht subFlg freeFn = some (0, ht', []) ∧
      Becomes ht ht' ht.bucket := by
  obtain ⟨ht', hins, hb⟩ : ∃ ht', doHashInsert (calcHash key.copy) ⟨ht.brk, key.copy, some v⟩
      ht.alloc.2 subFlg freeFn = (0, ht', []) ∧ Becomes ht.alloc.2 ht' ht.alloc.2.bucket := by
    cases hb : bucketOf key with
    | none =>
      have hav : availableHashValue (calcHash key.copy) = false := by
        rw [HashKey.calcHash_copy hv]
        simpa [bucketOf] using hb
      exact ⟨ht.alloc.2, by simp [doHashInsert, hav], h.alloc.keep⟩
    | some i =>
      refine h.alloc.doHashInsert_refused (p := ⟨ht.brk, key.copy, some v⟩)
        ((bucketOf_copy hv).trans hb) ?_ freeFn
      unfold Room
      rw [pairUnder_copy hv]
      exact hno i hb
  refine ⟨ht', ?_, hb.wf, hb.bucket, hb.keyType, hb.eraseFn⟩
  simp [hashInsert, htype, makePair_eq, ← HashKey.calcHash_copy hv, hins, destroyPair, callFree]

theorem hashInsert_room (h : ht.WF) (hv : key.Valid) (htype : ht.keyType = key.type)
    {subFlg : Bool} (hi : bucketOf key = some i) (hroom : Room subFlg key (ht.bucket i)) {v : ν}
    (hp : p = ⟨ht.brk, key.copy, some v⟩) (freeFn : Option φ) :
    ∃ ht', hashInsert key (some v) ht subFlg freeFn =
        some (1, ht', (pairUnder key (ht.bucket i)).elim [] (destroyPair · freeFn)) ∧
      Becomes ht ht' (Function.update ht.bucket i (p :: dropUnder p.key (ht.bucket i))) := by
  have hkey : p.key = key.copy := by rw [hp]
  have hplaced : Placed ht.alloc.2.keyType i p := by
    refine ⟨?_, ?_, ?_, ?_⟩
    · rw [hkey, bucketOf_copy hv, hi]
    · rw [hkey, HashKey.copy_type]
      exact htype.symm
    · rw [hkey]
      exact HashKey.copy_valid hv
    · rw [hp]
      exact Option.some_ne_none v
  have hroom' : Room subFlg p.key (ht.alloc.2.bucket i) := by
    unfold Room
    rw [hkey, pairUnder_copy hv]
    exact hroom
  obtain ⟨ht', hins, hb⟩ := h.alloc.doHashInsert_room hplaced hroom' freeFn
  rw [hkey, pairUnder_copy hv, hp] at hins
  refine ⟨ht', ?_, hb.wf, hb.bucket, hb.keyType, hb.eraseFn⟩
  simp [hashInsert, htype, makePair_eq, ← HashKey.calcHash_copy hv, hins]
  rfl

/-- What comes of an insert with a value: its pair is in front of its list, or it is refused. -/
inductive Inserted (key : HashKey) (v : ν) (ht : Hash ν φ) (subFlg : Bool) (freeFn : Option φ) :
    ℤ × Hash ν φ × Freed φ ν → Prop where
  | room {i : ℕ} {ht' : Hash ν φ} (hi : bucketOf key = some i) (hroom : Room subFlg key (ht.bucket i))
      (hb : Becomes ht ht' (Function.update ht.bucket i
        (⟨ht.brk, key.copy, some v⟩ :: dropUnder key.copy (ht.bucket i)))) :
      Inserted key v ht subFlg freeFn (1, ht', (pairUnder key (ht.bucket i)).elim [] (destroyPair · freeFn))
  | refused {ht' : Hash ν φ} (hno : ∀ i, bucketOf key = some i → ¬ Room subFlg key (ht.bucket i))
      (hb : Becomes ht ht' ht.bucket) : Inserted key v ht subFlg freeFn (0, ht', [])

theorem hashInsert_cases (h : ht.WF) (hv : key.Valid) {v : ν} {subFlg : Bool} {freeFn : Option φ}
    {r : ℤ × Hash ν φ × Freed φ ν} (he : hashInsert key (some v) ht subFlg freeFn = some r) :
    ht.keyType = key.type ∧ Inserted key v ht subFlg freeFn r := by
  have htype : ht.keyType = key.type := by
    by_contra hne
    simp [hashInsert, guard, hne] at he
  refine ⟨htype, ?_⟩
  by_cases hroom : ∃ i, bucketOf key = some i ∧ Room subFlg key (ht.bucket i)
  · obtain ⟨i, hi, hroom⟩ := hroom
    obtain ⟨ht', hins, hb⟩ := h.hashInsert_room hv htype hi hroom (p := ⟨ht.brk, key.copy, some v⟩) rfl freeFn
    obtain rfl := Option.some.inj (hins.symm.trans he)
    exact .room hi hroom hb
  · have hno : ∀ i, bucketOf key = some i → ¬ Room subFlg key (ht.bucket i) := fun i hi hr => hroom ⟨i, hi, hr⟩
    obtain ⟨ht', hins, hb⟩ := h.hashInsert_refused hv htype hno v freeFn
    obtain rfl := Option.some.inj (hins.symm.trans he)
    exact .refused hno hb

omit [DecidableEq ν] in
/-- A lookup past the range check, in the bucket's list. -/
theorem stored_eq (h : ht.WF) (hi : bucketOf key = some i) (hl : ht.tables i = some list) :
    list.find (keyPairCmp key) = ht.stored key := by
  rw [find_keyPairCmp (h.lists i list hl).2, stored, KeySame.find, hi]
  rfl

omit [DecidableEq ν] in
theorem stored_eq_none_of_tables (hi : bucketOf key = some i) (hl : ht.tables i = none) :
    ht.stored key = none := by
  rw [stored, KeySame.find, hi, Option.bind_some, bucket_of_tables_none hl]
  rfl

omit [DecidableEq ν] in
theorem hashFind_eq (h : ht.WF) (key : HashKey) :
    hashFind (calcHash key) key ht = (ht.stored key).bind (·.val) := by
  unfold hashFind
  cases hav : availableHashValue (calcHash key) with
  | false => simp [stored, KeySame.find, bucketOf, hav]
  | true =>
    have hi : bucketOf key = some (calcHash key).toNat := if_pos hav
    cases hl : ht.tables (calcHash key).toNat with
    | none => simp [stored_eq_none_of_tables hi hl]
    | some list => simp [h.stored_eq hi hl]

theorem hashDelete_absent (h : ht.WF) (hs : ht.stored key = none) (freeFn : Option φ) :
    hashDelete (calcHash key) key ht freeFn = (0, ht, []) := by
  unfold hashDelete
  cases hav : availableHashValue (calcHash key) with
  | false => rfl
  | true =>
    have hi : bucketOf key = some (calcHash key).toNat := if_pos hav
    cases hl : ht.tables (calcHash key).toNat with
    | none => rfl
    | some list => simp [h.stored_eq hi hl, hs]

omit [DecidableEq ν] in
theorem exists_list_of_pairUnder (hp : pairUnder key (ht.bucket i) = some p) :
    ∃ list, ht.tables i = some list := by
  cases hl : ht.tables i with
  | none =>
    rw [bucket_of_tables_none hl] at hp
    exact absurd hp (by simp [pairUnder, KeySame.lookup])
  | some list => exact ⟨list, rfl⟩

theorem hashDelete_present (h : ht.WF) (hi : bucketOf key = some i)
    (hp : pairUnder key (ht.bucket i) = some p) (freeFn : Option φ) :
    ∃ ht', hashDelete (calcHash key) key ht freeFn = (1, ht', destroyPair p freeFn) ∧
      Becomes ht ht' (Function.update ht.bucket i (dropUnder key (ht.bucket i))) := by
  obtain ⟨hav, hidx⟩ := bucketOf_eq_some.mp hi
  obtain ⟨list, hl⟩ := exists_list_of_pairUnder hp
  have hst := (h.lists i list hl).2
  obtain ⟨list', hdel, hl'⟩ := removeFound hst hp
  have hfind : list.find (keyPairCmp key) = some p := by rw [find_keyPairCmp hst, hp]
  have hlen : (dropUnder key (ht.bucket i)).length + 1 = _ := KeySame.length_drop hp
  have hcap := h.cap i
  refine ⟨_, ?_, h.setTable (bucketOf_lt hi) hl' (by omega) (h.distinct i).drop h.placed_dropUnder⟩
  rw [hidx] at hav ⊢
  simp [hashDelete, hav, hl, hfind, hdel]

end WF

/-- The pairs of the whole table, bucket by bucket. -/
def pairs (ht : Hash ν φ) : List (HashPair ν) := KeySame.entries mclHashMaxSize ht.bucket

theorem WF.mem_pairs (h : ht.WF) : p ∈ ht.pairs ↔ ∃ i, p ∈ ht.bucket i := by
  rw [pairs, KeySame.mem_entries]
  exact exists_congr fun i => and_iff_right_of_imp fun hp => bucketOf_lt (h.placed i p hp).bucketOf

theorem cleanLoop_eq (freeFn : Option φ) (n i : ℕ) (ht : Hash ν φ)
    (h : ∀ j list, ht.tables j = some list → list.elems = (ht.bucket j).map some) :
    cleanLoop freeFn n i ht =
      ({ ht with tables := fun j => if i ≤ j ∧ j < i + n then none else ht.tables j },
        ((List.range' i n).flatMap ht.bucket).flatMap (destroyPair · freeFn)) := by
  induction n generalizing i ht with
  | zero =>
    have htabs : (fun j => if i ≤ j ∧ j < i + 0 then none else ht.tables j) = ht.tables :=
      funext fun j => if_neg (by omega)
    rw [htabs]
    rfl
  | succ n ih =>
    have hrow : ∀ j, (i ≤ j ∧ j < i + (n + 1)) ↔ j = i ∨ (i + 1 ≤ j ∧ j < i + 1 + n) := fun j => by omega
    cases hl : ht.tables i with
    | none =>
      have htabs : (fun j => if i ≤ j ∧ j < i + (n + 1) then none else ht.tables j) =
          fun j => if i + 1 ≤ j ∧ j < i + 1 + n then none else ht.tables j := by
        funext j
        by_cases hj : j = i
        · subst hj
          simp [hl]
        · simp [hrow, hj]
      simp only [cleanLoop, hl, ih (i + 1) ht h, htabs, List.range'_succ, List.flatMap_cons,
        bucket_of_tables_none hl, List.nil_append]
    | some list =>
      have hbucket : ∀ j, j ≠ i → (ht.setTable i none).bucket j = ht.bucket j := fun j hj => by
        simp only [bucket, setTable, Function.update_of_ne hj]
      have hset : ∀ j l, (ht.setTable i none).tables j = some l →
          l.elems = ((ht.setTable i none).bucket j).map some := by
        intro j l hj
        by_cases hji : j = i
        · subst hji
          simp [setTable] at hj
        · simp only [setTable, Function.update_of_ne hji] at hj
          rw [hbucket j hji]
          exact h j l hj
      have htabs : (fun j => if i ≤ j ∧ j < i + (n + 1) then none else ht.tables j) =
          fun j => if i + 1 ≤ j ∧ j < i + 1 + n then none else (ht.setTable i none).tables j := by
        funext j
        by_cases hj : j = i
        · subst hj
          simp [setTable]
        · simp [hrow, hj, setTable]
      have hflat : (List.range' (i + 1) n).flatMap (ht.setTable i none).bucket =
          (List.range' (i + 1) n).flatMap ht.bucket :=
        List.flatMap_congr fun j hj => hbucket j (Nat.ne_of_gt (List.mem_range'_1.mp hj).1)
      simp only [cleanLoop, hl, ih (i + 1) _ hset, htabs, List.range'_succ, List.flatMap_cons,
        List.flatMap_append, hflat, h i list hl, List.flatMap_map, Option.elim_some]
      rfl

namespace WF

theorem mclHashClean_eq (h : ht.WF) (freeFn : Option φ) :
    ∃ ht', mclHashClean ht freeFn = (ht', ht.pairs.flatMap (destroyPair · freeFn)) ∧
      Becomes ht ht' (fun _ => []) := by
  have hnone : ∀ j, (if 0 ≤ j ∧ j < 0 + ht.maxHashSize then none else ht.tables j) = none := by
    intro j
    rw [h.maxHashSize]
    split
    · rfl
    · next hj =>
      cases hl : ht.tables j with
      | none => rfl
      | some list => exact absurd (h.lists j list hl).1 (by omega)
  refine ⟨{ ht with tables := fun _ => none }, ?_, ?_⟩
  · unfold mclHashClean
    rw [cleanLoop_eq freeFn _ _ _ fun j list hl => (h.lists j list hl).2.elems]
    rw [funext hnone, h.maxHashSize, ← List.range_eq_range', pairs, KeySame.entries]
  · exact ⟨⟨h.maxHashSize, fun i list hl => absurd hl (by simp), fun i => by simp [Hash.bucket, mclListMaxSize],
      fun i => List.Pairwise.nil, fun i p hp => absurd hp List.not_mem_nil⟩, rfl, rfl, rfl⟩

/-- The data that `mcl_hash_destroy` hands to the function. -/
theorem mclHashDestroy_vals (h : ht.WF) (freeFn : φ) :
    (mclHashDestroy ht (some freeFn)).2.map (·.2) = ht.pairs.filterMap (·.val) := by
  obtain ⟨ht', hclean, -⟩ := h.mclHashClean_eq (some freeFn)
  rw [mclHashDestroy, hclean]
  generalize ht.pairs = ps
  induction ps with
  | nil => rfl
  | cons p ps ih =>
    dsimp only at ih
    rw [List.flatMap_cons, List.map_append, ih]
    cases hval : p.val with
    | none => simp [destroyPair, callFree, hval]
    | some v => simp [destroyPair, callFree, hval]

theorem mclHashCtrl_wf (h : ht.WF) (cmd : DsCtrlCmd) (data : Option φ) :
    (mclHashCtrl cmd data ht).2.WF ∧ (mclHashCtrl cmd data ht).2.bucket = ht.bucket ∧
      (mclHashCtrl cmd data ht).2.keyType = ht.keyType := by
  cases data with
  | none => exact ⟨h, rfl, rfl⟩
  | some freeFn => cases cmd <;> exact ⟨⟨h.maxHashSize, h.lists, h.cap, h.distinct, h.placed⟩, rfl, rfl⟩

/-- A pair read through an iterator is one of its bucket. -/
theorem mem_of_iterInfo (h : ht.WF) (hl : ht.tables i = some list) {it : HashIter ν}
    (hinfo : list.iterInfo it = some (some p)) : p ∈ ht.bucket i := by
  obtain ⟨e, he, -, -, hp⟩ := MclList.iterInfo_eq_some hinfo
  have hmem : some p ∈ list.elems := hp ▸ List.mem_map_of_mem he
  rw [(h.lists i list hl).2.elems] at hmem
  simpa using hmem

/-- Dropping a pair from its list. -/
theorem becomes_delete [DecidableEq ν] (h : ht.WF) (hl : ht.tables i = some list) (hp : p ∈ ht.bucket i) :
    Becomes ht (ht.setTable i (some (list.delete (some p) none).2.1))
      (Function.update ht.bucket i (dropUnder p.key (ht.bucket i))) := by
  have hu := (h.distinct i).lookup_of_mem hp
  have hi := (h.placed i p hp).bucketOf
  obtain ⟨list', hdel, hl'⟩ := removeFound (h.lists i list hl).2 hu
  have hlen : (dropUnder p.key (ht.bucket i)).length + 1 = _ := KeySame.length_drop hu
  have hcap := h.cap i
  rw [hdel]
  exact h.setTable (bucketOf_lt hi) hl' (by omega) (h.distinct i).drop h.placed_dropUnder

/-- An erase through any iterator value whatever, if it is defined: it removes one pair or
does nothing. -/
theorem defHashIterErase_eq_some [DecidableEq ν] (h : ht.WF) {it it' : HashIter ν} {freed : Freed φ ν}
    (he : defHashIterErase it ht = some (it', ht', freed)) :
    (ht' = ht ∧ freed = []) ∨
      ∃ i list p, ht.tables i = some list ∧ p ∈ ht.bucket i ∧ freed = destroyPair p ht.eraseFn ∧
        ht' = ht.setTable i (some (list.delete (some p) none).2.1) := by
  unfold defHashIterErase at he
  split at he
  · simp only [Option.some.injEq, Prod.mk.injEq] at he
    exact .inl ⟨he.2.1.symm, he.2.2.symm⟩
  dsimp only at he
  split at he
  · simp only [Option.some.injEq, Prod.mk.injEq] at he
    exact .inl ⟨he.2.1.symm, he.2.2.symm⟩
  next list hl =>
  simp only [Option.bind_eq_bind, Option.bind_eq_some_iff] at he
  obtain ⟨pair, hinfo, it'', hnext, he⟩ := he
  cases pair with
  | none =>
    simp only [Option.some.injEq, Prod.mk.injEq] at he
    exact .inl ⟨he.2.1.symm, he.2.2.symm⟩
  | some p =>
    simp only [Option.some.injEq, Prod.mk.injEq] at he
    exact .inr ⟨_, list, p, hl, h.mem_of_iterInfo hl hinfo, he.2.2.symm, he.2.1.symm⟩

theorem defHashIterErase_cases [DecidableEq ν] (h : ht.WF) {it it' : HashIter ν} {freed : Freed φ ν}
    (he : defHashIterErase it ht = some (it', ht', freed)) :
    (ht' = ht ∧ freed = []) ∨
      ∃ i p, p ∈ ht.bucket i ∧ freed = destroyPair p ht.eraseFn ∧
        Becomes ht ht' (Function.update ht.bucket i (dropUnder p.key (ht.bucket i))) := by
  rcases h.defHashIterErase_eq_some he with hsame | ⟨i, list, p, hl, hp, hfreed, rfl⟩
  · exact .inl hsame
  · exact .inr ⟨i, p, hp, hfreed, h.becomes_delete hl hp⟩

end WF

/-! What a lookup sees after a change. Keys that are the same must have the same bucket. -/

theorem stored_put (hb : Becomes ht ht' (Function.update ht.bucket i (p :: dropUnder p.key (ht.bucket i))))
    (hi : bucketOf p.key = some i) (hco : keyCmp key p.key = true → bucketOf key = bucketOf p.key) :
    ht'.stored key = if keyCmp key p.key then some p else ht.stored key := by
  rw [stored, hb.bucket]
  exact KeySame.find_put hi hco

theorem stored_remove (h : ht.WF) {key' : HashKey}
    (hb : Becomes ht ht' (Function.update ht.bucket i (dropUnder key' (ht.bucket i))))
    (hi : bucketOf key' = some i) (hco : keyCmp key key' = true → bucketOf key = bucketOf key') :
    ht'.stored key = if keyCmp key key' then none else ht.stored key := by
  rw [stored, hb.bucket]
  exact KeySame.find_remove (h.distinct i) hi hco

theorem stored_clear (hb : Becomes ht ht' (fun _ => [])) (key : HashKey) : ht'.stored key = none := by
  rw [stored, hb.bucket]
  cases h : bucketOf key <;> simp [KeySame.find, KeySame.lookup, h]

theorem stored_same (hb : Becomes ht ht' ht.bucket) (key : HashKey) : ht'.stored key = ht.stored key := by
  rw [stored, hb.bucket]
  rfl

theorem stored_of_bucketOf (hi : bucketOf key = some i) :
    ht.stored key = pairUnder key (ht.bucket i) := by
  rw [stored, KeySame.find, hi]
  rfl

theorem stored_eq_none_of_bucketOf (hb : bucketOf key = none) : ht.stored key = none := by
  rw [stored, KeySame.find, hb]
  rfl

/-! The same for the keys of an int table, which are the same when they are equal. -/

theorem storedInt_put {n : BitVec 32}
    (hb : Becomes ht ht' (Function.update ht.bucket i (p :: ht.bucket i))) (hkey : p.key = .int n)
    (hi : bucketOf (.int n) = some i) (hroom : Room false (.int n) (ht.bucket i)) (m : BitVec 32) :
    ht'.stored (.int m) = if m = n then some p else ht.stored (.int m) := by
  have hdrop : dropUnder p.key (ht.bucket i) = ht.bucket i := by
    rw [hkey]
    exact KeySame.drop_of_lookup_eq_none (hroom.resolve_left (by simp)).1
  rw [← hdrop] at hb
  have hco : keyCmp (.int m) p.key = true → bucketOf (.int m) = bucketOf p.key := fun hsame => by
    rw [hkey] at hsame ⊢
    rw [of_decide_eq_true hsame]
  rw [stored_put hb (by rw [hkey, hi]) hco, hkey]
  exact if_congr (decide_eq_true_iff (p := m = n)) rfl rfl

theorem storedInt_remove {n : BitVec 32} (h : ht.WF)
    (hb : Becomes ht ht' (Function.update ht.bucket i (dropUnder p.key (ht.bucket i))))
    (hp : p ∈ ht.bucket i) (hkey : p.key = .int n) (m : BitVec 32) :
    ht'.stored (.int m) = if m = n then none else ht.stored (.int m) := by
  have hco : keyCmp (.int m) p.key = true → bucketOf (.int m) = bucketOf p.key := fun hsame => by
    rw [hkey] at hsame ⊢
    rw [of_decide_eq_true hsame]
  rw [stored_remove h hb (h.placed i p hp).bucketOf hco, hkey]
  exact if_congr (decide_eq_true_iff (p := m = n)) rfl rfl

/-- Fewer keys than a list may have entries. -/
theorem WF.length_lt_of_keys (h : ht.WF)
    (hkeys : ∀ p ∈ ht.bucket i, ∃ n : BitVec 32, p.key = .int n ∧ n.toNat < 1024) :
    (ht.bucket i).length < mclListMaxSize := by
  have hnodup : ((ht.bucket i).map (·.key)).Nodup := by
    refine List.pairwise_map.mpr ((h.distinct i).imp ?_)
    intro p q hdiffer heq
    rw [heq, hashKeySame.refl] at hdiffer
    exact absurd hdiffer (by simp)
  have hsub : (ht.bucket i).map (·.key) ⊆ (List.range 1024).map fun n => .int (.ofNat 32 n) := by
    intro key hkey
    obtain ⟨p, hp, rfl⟩ := List.mem_map.mp hkey
    obtain ⟨n, hn, hlt⟩ := hkeys p hp
    refine List.mem_map.mpr ⟨n.toNat, List.mem_range.mpr hlt, ?_⟩
    rw [hn, BitVec.ofNat_toNat, BitVec.setWidth_eq]
  have hlen := (List.subperm_of_subset hnodup hsub).length_le
  rw [List.length_map, List.length_map, List.length_range] at hlen
  rw [mclListMaxSize]
  omega

/-- NULL is never stored, so a lookup that finds a pair returns data. -/
theorem WF.stored_val (h : ht.WF) (key : HashKey) :
    (ht.stored key).bind (·.val) = none ↔ ht.stored key = none := by
  constructor
  · intro hv
    cases hs : ht.stored key with
    | none => rfl
    | some p =>
      obtain ⟨i, -, hu⟩ := mem_stored hs
      rw [hs] at hv
      exact absurd hv (h.placed i p (KeySame.mem_of_lookup hu).1).val
  · intro hs
    rw [hs]
    rfl

end Hash
end Mcl
