import Mcl.Library.Scan
import Mcl.Util.HashCursor

/-! Traversals of a hash table in the course of which it is changed. -/
namespace Mcl
open Mcl.Library

variable {ν φ : Type}

namespace Hash

variable {ht ht' mid : Hash ν φ} {i j : ℕ} {it : HashIter ν} {p q x : HashPair ν} {ps : List (HashPair ν)}
  {hit : HashPair ν → Prop} {key : HashKey}

/-! What becomes of the other pairs. -/

theorem Keeps.bucket (hk : Keeps ht ht') (i : ℕ) : ht'.bucket i = ht.bucket i := by
  rw [bucket_eq_nodes, bucket_eq_nodes, hk.nodes]

/-- A pair is in one place only. -/
theorem WF.bucket_unique (h : ht.WF) (hi : p ∈ ht.bucket i) (hj : p ∈ ht.bucket j) : i = j := by
  have hpi := (h.placed i p hi).bucketOf
  rw [(h.placed j p hj).bucketOf] at hpi
  exact (Option.some.inj hpi).symm

theorem filterMap_eraseP {nodes : List (ListEnt (HashPair ν))} {hit : ListEnt (HashPair ν) → Bool}
    (hhit : ∀ e, hit e = true ↔ e.data = some q) (hnodup : (nodes.filterMap (·.data)).Nodup) :
    q ∉ (nodes.eraseP hit).filterMap (·.data) := by
  induction nodes with
  | nil => exact List.not_mem_nil
  | cons e nodes ih =>
    by_cases he : hit e = true
    · rw [List.eraseP_cons_of_pos he]
      rw [List.filterMap_cons_some ((hhit e).mp he)] at hnodup
      exact (List.nodup_cons.mp hnodup).1
    · rw [List.eraseP_cons_of_neg he]
      cases hdata : e.data with
      | none =>
        rw [List.filterMap_cons_none hdata] at hnodup ⊢
        exact ih hnodup
      | some x =>
        rw [List.filterMap_cons_some hdata] at hnodup ⊢
        intro hc
        rcases List.mem_cons.mp hc with rfl | hc
        · exact he ((hhit e).mpr hdata)
        · exact ih (List.nodup_cons.mp hnodup).2 hc

theorem WF.removed (h : ht.WF) (hq : q ∈ ht.bucket j) (hrem : Removes ht ht' j q) (i : ℕ) : q ∉ ht'.bucket i := by
  intro hc
  obtain rfl := h.bucket_unique (hrem.mem_of_mem hc) hq
  obtain ⟨hit, hhit, hn⟩ := hrem.nodes
  have hnodup := (h.distinct i).nodup
  rw [bucket_eq_nodes] at hc hnodup
  rw [hn, Function.update_self] at hc
  exact filterMap_eraseP hhit hnodup hc

/-- What is ahead is a part of the table, from some place on. -/
theorem Ahead.isSuffix (ha : Ahead ht it ps) : ps <:+ ht.pairs := by
  cases ha with
  | done hnull => exact List.nil_suffix
  | @on i n list pre suf e p hin hl hents hp hptr hdata hu hcursor =>
    have hsplit : ht.pairs = ht.pairsFrom 0 i ++ (pre.filterMap (·.data) ++
        p :: (suf.filterMap (·.data) ++ ht.pairsFrom (i + 1) n)) := by
      have hbuckets : ht.pairsFrom 0 mclHashMaxSize = ht.pairsFrom 0 i ++ ht.pairsFrom i (n + 1) := by
        rw [pairsFrom, pairsFrom, pairsFrom, ← List.flatMap_append, ← hin]
        congr 1
        rw [← List.range'_append, Nat.one_mul, Nat.zero_add]
      rw [pairs_eq_pairsFrom, hbuckets, pairsFrom_succ, bucket_split hl hents hp, List.append_assoc, List.cons_append]
    rw [hsplit]
    exact (List.suffix_append _ _).trans (List.suffix_append _ _)

theorem WF.pairs_nodup (h : ht.WF) : ht.pairs.Nodup := by
  rw [pairs, KeySame.entries, List.nodup_flatMap]
  refine ⟨fun i _ => (h.distinct i).nodup, List.nodup_range.imp fun {i j} hij => ?_⟩
  exact List.disjoint_left.mpr fun p hi hj => hij (h.bucket_unique hi hj)

/-! What a call does to the nodes. -/

/-- At most one pair leaves, one that `hit` allows, and at most one new pair comes. -/
def Alters (hit : HashPair ν → Prop) (ht ht' : Hash ν φ) : Prop :=
  ∃ mid, (Keeps ht mid ∨ ∃ i p, p ∈ ht.bucket i ∧ hit p ∧ Removes ht mid i p) ∧
    (Keeps mid ht' ∨ ∃ i q, Puts mid ht' i q ∧ ht.brk ≤ q.addr ∧ q.addr < ht'.brk)

theorem Alters.of_keeps (hk : Keeps ht ht') : Alters hit ht ht' := ⟨ht, .inl (.refl ht), .inl hk⟩

theorem Alters.of_removes (hp : p ∈ ht.bucket i) (hhit : hit p) (hrem : Removes ht ht' i p) : Alters hit ht ht' :=
  ⟨ht', .inr ⟨i, p, hp, hhit, hrem⟩, .inl (.refl ht')⟩

theorem Alters.mono {hit' : HashPair ν → Prop} (h : Alters hit ht ht') (hle : ∀ p, hit p → hit' p) : Alters hit' ht ht' := by
  obtain ⟨mid, hfirst, hsecond⟩ := h
  refine ⟨mid, hfirst.imp_right fun htakes => ?_, hsecond⟩
  obtain ⟨i, p, hp, hhit, hrem⟩ := htakes
  exact ⟨i, p, hp, hle p hhit, hrem⟩

theorem Alters.brk (h : Alters hit ht ht') : ht.brk ≤ ht'.brk := by
  obtain ⟨mid, hfirst, hsecond⟩ := h
  have hmid : ht.brk ≤ mid.brk := by
    rcases hfirst with hk | ⟨i, p, -, -, hrem⟩
    · exact hk.brk
    · exact hrem.brk
  rcases hsecond with hk | ⟨i, q, hputs, -⟩
  · exact Nat.le_trans hmid hk.brk
  · exact Nat.le_trans hmid hputs.brk

/-- A pair in the table afterwards was there before, or is new. -/
theorem Alters.mem (h : Alters hit ht ht') (hx : x ∈ ht'.bucket i) :
    x ∈ ht.bucket i ∨ ht.brk ≤ x.addr ∧ x.addr < ht'.brk := by
  obtain ⟨mid, hfirst, hsecond⟩ := h
  have hmid : x ∈ mid.bucket i ∨ ht.brk ≤ x.addr ∧ x.addr < ht'.brk := by
    rcases hsecond with hk | ⟨j, q, hputs, hlo, hhi⟩
    · exact .inl (by rwa [← hk.bucket])
    · rcases hputs.mem_bucket.mp hx with hx | ⟨-, rfl⟩
      · exact .inl hx
      · exact .inr ⟨hlo, hhi⟩
  refine hmid.imp_left fun hx => ?_
  rcases hfirst with hk | ⟨j, p, -, -, hrem⟩
  · rwa [← hk.bucket]
  · exact hrem.mem_of_mem hx

theorem Alters.ahead (h : Alters hit ht ht') (hwf : ht.WF) (ha : Ahead ht it ps) (hspares : ∀ p ∈ ps.head?, ¬ hit p)
    (hold : ∀ x ∈ ps, x.addr < ht.brk) : ∃ ps', Ahead ht' it ps' ∧ ps'.head? = ps.head? ∧
      (∀ x ∈ ps', x ∈ ps ∨ ht.brk ≤ x.addr ∧ x.addr < ht'.brk) ∧ ∀ i, ∀ x ∈ ps, x ∈ ht'.bucket i → x ∈ ps' := by
  obtain ⟨mid, hfirst, hsecond⟩ := h
  have hmid : ∃ ps', Ahead mid it ps' ∧ ps'.head? = ps.head? ∧ (∀ x ∈ ps', x ∈ ps) ∧
      ∀ i, ∀ x ∈ ps, x ∈ mid.bucket i → x ∈ ps' := by
    rcases hfirst with hk | ⟨j, q, hq, hhit, hrem⟩
    · exact ⟨ps, ha.keeps hk, rfl, fun _ hx => hx, fun _ _ hx _ => hx⟩
    · obtain ⟨ps', ha', hhead, hsub, hsup⟩ := ha.removes hrem fun hc => hspares q hc hhit
      refine ⟨ps', ha', hhead, hsub, fun i x hx hin => hsup x hx ?_⟩
      rintro rfl
      exact hwf.removed hq hrem i hin
  obtain ⟨ps', ha', hhead, hsub, hsup⟩ := hmid
  rcases hsecond with hk | ⟨j, q, hputs, hlo, hhi⟩
  · exact ⟨ps', ha'.keeps hk, hhead, fun x hx => .inl (hsub x hx), fun i x hx hin => hsup i x hx (hk.bucket i ▸ hin)⟩
  · obtain ⟨ps'', ha'', hhead', hsub', hsup'⟩ := ha'.puts hputs
    refine ⟨ps'', ha'', hhead'.trans hhead, fun x hx => ?_, fun i x hx hin => hsup' x ?_⟩
    · rcases hsub' x hx with hx | ⟨rfl, -⟩
      · exact .inl (hsub x hx)
      · exact .inr ⟨hlo, hhi⟩
    · rcases hputs.mem_bucket.mp hin with hin | ⟨-, rfl⟩
      · exact hsup i x hx hin
      · exact absurd (hold x hx) (Nat.not_lt.mpr hlo)

section Calls

variable [DecidableEq ν]

omit [DecidableEq ν] in
theorem find_mem {list : MclList (HashPair ν) φ} {hit : HashPair ν → Bool} (hf : list.find hit = some p) :
    p ∈ list.ents.filterMap (·.data) ∧ hit p = true := by
  obtain ⟨e, he, hp⟩ := Option.bind_eq_some_iff.mp hf
  have hhit := List.find?_some he
  rw [hp] at hhit
  exact ⟨List.mem_filterMap.mpr ⟨e, List.mem_of_find?_eq_some he, hp⟩, hhit⟩

omit [DecidableEq ν] in
theorem insertInto_puts {list : MclList (HashPair ν) φ} (hl : list.ents = ht.nodes i) (q : HashPair ν) :
    Keeps ht (insertInto i list q ht).2 ∨ Puts ht (insertInto i list q ht).2 i q := by
  unfold insertInto
  simp only [Hash.alloc, MclList.insert]
  split
  · refine .inl ⟨?_, Nat.le_succ _⟩
    rw [nodes_setTable, hl]
    exact Function.update_eq_self _ _
  · refine .inr ⟨⟨ht.brk, Nat.le_refl _, ?_⟩, Nat.le_succ _⟩
    rw [nodes_setTable]
    exact congrArg (fun l => Function.update ht.nodes i (⟨ht.brk, some q⟩ :: l)) hl

omit [DecidableEq ν] in
theorem insertInto_setTable (list : MclList (HashPair ν) φ) (q : HashPair ν) (list' : Option (MclList (HashPair ν) φ)) :
    insertInto i list q (ht.setTable i list') = insertInto i list q ht := by
  simp only [insertInto, Hash.alloc, Hash.setTable, Function.update_idem]

theorem doHashInsert_alters (hash : ℤ) (q : HashPair ν) (ht : Hash ν φ) (subFlg : Bool) (freeFn : Option φ) :
    ∃ mid i, (Keeps ht mid ∨ ∃ p, p ∈ ht.bucket i ∧ (subFlg = true ∧ pairPairCmp q p = true) ∧ Removes ht mid i p) ∧
      (Keeps mid (doHashInsert hash q ht subFlg freeFn).2.1 ∨ Puts mid (doHashInsert hash q ht subFlg freeFn).2.1 i q) := by
  unfold doHashInsert
  split
  · exact ⟨ht, 0, .inl (.refl ht), .inl (.refl ht)⟩
  have hk := keeps_setTable ht hash.toNat
  have hents : ((ht.tables hash.toNat).getD .new).ents =
      (ht.setTable hash.toNat (some ((ht.tables hash.toNat).getD .new))).nodes hash.toNat := by
    rw [hk.nodes, nodes_getD]
  dsimp only
  split
  · next found hfind =>
    split
    · exact ⟨_, 0, .inl hk, .inl (.refl _)⟩
    · next hsub =>
      obtain ⟨hmem, hhit⟩ := find_mem hfind
      rw [hents, ← bucket_eq_nodes, hk.bucket] at hmem
      have htable : (ht.setTable hash.toNat (some ((ht.tables hash.toNat).getD .new))).tables hash.toNat =
          some ((ht.tables hash.toNat).getD .new) := Function.update_self _ _ _
      have hrem := removes_setTable htable found
      refine ⟨_, hash.toNat, .inr ⟨found, hmem, ⟨by simpa using hsub, hhit⟩, ?_, hrem.brk⟩, ?_⟩
      · rw [← hk.nodes]
        exact hrem.nodes
      · rw [← insertInto_setTable _ q (some (((ht.tables hash.toNat).getD .new).delete (some found) none).2.1)]
        refine insertInto_puts ?_ q
        rw [nodes_setTable, Function.update_self]
  · exact ⟨_, hash.toNat, .inl hk, insertInto_puts hents q⟩

theorem hashInsert_alters (hv : key.Valid) {data : Option ν} {subFlg : Bool} {freeFn : Option φ} {ret : ℤ}
    {freed : Freed φ ν} (hins : hashInsert key data ht subFlg freeFn = some (ret, ht', freed)) :
    Alters (fun p => subFlg = true ∧ keyCmp key p.key = true) ht ht' := by
  unfold hashInsert at hins
  cases data with
  | none =>
    obtain rfl : ht = ht' := congrArg (·.2.1) (Option.some.inj hins)
    exact .of_keeps (.refl ht)
  | some v =>
    simp only [makePair_eq, Option.bind_eq_bind, Option.bind_eq_some_iff] at hins
    obtain ⟨-, -, hins⟩ := hins
    obtain rfl : (doHashInsert (calcHash key) ⟨ht.brk, key.copy, some v⟩ ht.alloc.2 subFlg freeFn).2.1 = ht' :=
      congrArg (·.2.1) (Option.some.inj hins)
    obtain ⟨mid, i, hfirst, hsecond⟩ := doHashInsert_alters (calcHash key) ⟨ht.brk, key.copy, some v⟩ ht.alloc.2 subFlg freeFn
    have hbrk : ht.brk < mid.brk := by
      rcases hfirst with hk | ⟨p, -, -, hrem⟩
      · exact hk.brk
      · exact hrem.brk
    refine ⟨mid, ?_, ?_⟩
    · rcases hfirst with hk | ⟨p, hp, hhit, hrem⟩
      · exact .inl ⟨hk.nodes, Nat.le_of_lt hbrk⟩
      · refine .inr ⟨i, p, hp, ⟨hhit.1, ?_⟩, hrem.nodes, Nat.le_of_lt hbrk⟩
        rw [keyCmp_iff, ← HashKey.copy_view hv]
        exact (keyCmp_iff _ _).mp hhit.2
    · rcases hsecond with hk | hputs
      · exact .inl hk
      · exact .inr ⟨i, _, hputs, Nat.le_refl _, Nat.lt_of_lt_of_le hbrk hputs.brk⟩

end Calls

end Hash

/-- Whether a call may take the pair under a key out. -/
def MapOp.takes (op : MapOp HashKey ν φ) (k : HashKey) : Bool :=
  match op with
  | insert key _ _ | delete key _ => keyCmp key k
  | insertSafe _ _ | find _ => false
  | clean _ => true

namespace Hash

variable [DecidableEq ν] {ht ht' : Hash ν φ} {i : ℕ} {p : HashPair ν}

theorem execKey_alters (h : ht.WF) {op : MapOp { key : HashKey // key.Valid } ν φ} (hclean : ∀ freeFn, op ≠ .clean freeFn)
    {ans : Answer ν φ} (hs : execKey ht (op.map Subtype.val) = some (ans, ht')) :
    Alters (fun p => (op.map Subtype.val).takes p.key = true) ht ht' := by
  cases op with
  | insert key data freeFn =>
    obtain ⟨⟨ret, ht'', freed⟩, hins, heq⟩ := Option.map_eq_some_iff.mp hs
    cases heq
    exact (hashInsert_alters key.2 hins).mono fun p hhit => hhit.2
  | insertSafe key data =>
    obtain ⟨⟨ret, ht'', freed⟩, hins, heq⟩ := Option.map_eq_some_iff.mp hs
    cases heq
    exact (hashInsert_alters key.2 hins).mono fun p hhit => absurd hhit.1 Bool.false_ne_true
  | delete key freeFn =>
    simp only [MapOp.map, execKey, Option.bind_eq_bind, Option.bind_eq_some_iff, Option.some.injEq] at hs
    obtain ⟨-, -, hdel⟩ := hs
    cases hst : ht.stored key.1 with
    | none =>
      rw [h.hashDelete_absent hst] at hdel
      cases hdel
      exact .of_keeps (.refl ht)
    | some p =>
      obtain ⟨i, hi, hu⟩ := mem_stored hst
      obtain ⟨ht'', hdel', -, hrem⟩ := h.hashDelete_removes hi hu freeFn
      rw [hdel'] at hdel
      cases hdel
      obtain ⟨hp, hhit⟩ := KeySame.mem_of_lookup hu
      exact .of_removes hp hhit hrem
  | find key =>
    simp only [MapOp.map, execKey, Option.bind_eq_bind, Option.bind_eq_some_iff, Option.some.injEq] at hs
    obtain ⟨-, -, hfind⟩ := hs
    cases hfind
    exact .of_keeps (.refl ht)
  | clean freeFn => exact absurd rfl (hclean freeFn)

/-- Pairs are told apart by their addresses, which are never used twice. -/
def Below (ht : Hash ν φ) : Prop := ∀ i, ∀ p ∈ ht.bucket i, p.addr < ht.brk

omit [DecidableEq ν] in
theorem Below.alters {hit : HashPair ν → Prop} (hb : Below ht) (ha : Alters hit ht ht') : Below ht' := by
  intro i p hp
  rcases ha.mem hp with hp | ⟨-, hnew⟩
  · exact Nat.lt_of_lt_of_le (hb i p hp) ha.brk
  · exact hnew

omit [DecidableEq ν] in
theorem ctrl_keeps (cmd : DsCtrlCmd) (data : Option φ) (ht : Hash ν φ) : Keeps ht (mclHashCtrl cmd data ht).2 := by
  cases data with
  | none => exact .refl ht
  | some freeFn => cases cmd <;> exact ⟨rfl, Nat.le_refl _⟩

theorem Below.execHash (hb : Below ht) (h : ht.WF) {op : HashOp ν φ} {ans : Answer ν φ}
    (hs : Mcl.execHash (some ht) op = some (ans, some ht')) : Below ht' := by
  cases op with
  | call op =>
    obtain ⟨⟨ans', ht''⟩, hcall, heq⟩ := Option.map_eq_some_iff.mp hs
    cases heq
    by_cases hclean : ∃ freeFn, op = .clean freeFn
    · obtain ⟨freeFn, rfl⟩ := hclean
      obtain ⟨ht'', hclean, hbecomes⟩ := h.mclHashClean_eq freeFn
      simp only [execKey, MapOp.map, hclean, Option.some.injEq] at hcall
      cases hcall
      intro i p hp
      rw [hbecomes.bucket] at hp
      exact absurd hp List.not_mem_nil
    · exact hb.alters (execKey_alters h (fun freeFn hc => hclean ⟨freeFn, hc⟩) hcall)
  | ctrl cmd data =>
    cases hs
    exact hb.alters (show Alters (fun _ => True) ht _ from .of_keeps (ctrl_keeps cmd data ht))
  | iterErase it =>
    simp only [Mcl.execHash, Option.bind_eq_bind, Option.bind_eq_some_iff, Prod.exists, Option.some.injEq,
      Prod.mk.injEq] at hs
    obtain ⟨it', ht'', freed, herase, -, rfl⟩ := hs
    rcases h.defHashIterErase_removes herase with ⟨rfl, -⟩ | ⟨i, p, hp, -, hrem, -⟩
    · exact hb
    · exact hb.alters (show Alters (fun _ => True) ht _ from .of_removes hp trivial hrem)
  | destroy freeFn =>
    obtain ⟨ht'', hclean, -⟩ := h.mclHashClean_eq freeFn
    simp [Mcl.execHash, mclHashDestroy, hclean] at hs

theorem hashMachine_below {type : DataType} {ops : List (HashOp ν φ)} {hist : List (HashOp ν φ × Answer ν φ)}
    (hrun : (hashMachine type).run ops = some (hist, some ht)) : Below ht := by
  have hinv : ∀ s, (hashMachine type).Reach (fun _ _ => True) hist s →
      ∀ ht : Hash ν φ, s = some ht → ht.WF ∧ Below ht := by
    intro s hr
    refine hr.invariant (P := fun s => ∀ ht, s = some ht → ht.WF ∧ Below ht) ?_ ?_
    · rintro ht ⟨⟩
      exact ⟨Hash.wf_new type, fun i p hp => absurd hp List.not_mem_nil⟩
    · rintro (_ | ht) op ans s' hP - hs ht' rfl
      · exact absurd hs (by simp [hashMachine, Mcl.execHash])
      · obtain ⟨hwf, hb⟩ := hP ht rfl
        obtain ⟨gone, added, hex⟩ := execHash_exchange hwf hs
        exact ⟨hex.wf ht' rfl, hb.execHash hwf hs⟩
  exact (hinv _ (Machine.reach_of_run hrun) ht rfl).2

end Hash

/-! The traversal. -/

/-- What may happen between the head of a table and its end: calls on the table, and steps of the iterator. -/
inductive ScanOp (ν φ : Type) where
  | call (op : MapOp { key : HashKey // key.Valid } ν φ)
  | ctrl (cmd : DsCtrlCmd) (data : Option φ)
  | next
  | erase

section Scan
variable [DecidableEq ν]

def scanStep (s : Hash ν φ × HashIter ν) : ScanOp ν φ → Option (Answer ν φ × Hash ν φ × HashIter ν)
  | .call op => (execKey s.1 (op.map Subtype.val)).map fun (ans, ht) => (ans, ht, s.2)
  | .ctrl cmd data =>
    let (ret, ht) := mclHashCtrl cmd data s.1
    some (⟨ret, none, []⟩, ht, s.2)
  | .next =>
    if s.2.isNull then none
    else (defHashIterNext s.2 s.1).map fun it => (⟨0, none, []⟩, s.1, it)
  | .erase =>
    if s.2.isNull then none
    else (defHashIterErase s.2 s.1).map fun (it, ht, freed) => (⟨1, none, freed⟩, ht, it)

def scanMachine (ht : Hash ν φ) (it : HashIter ν) : Machine (Hash ν φ × HashIter ν) (ScanOp ν φ) (Answer ν φ) :=
  ⟨(ht, it), scanStep⟩

end Scan

/-- The pair that an iterator is on. -/
def under (s : Hash ν φ × HashIter ν) : Option (HashPair ν) :=
  if s.2.isNull then none else ((s.1.nodes s.2.cursor.toNat).find? fun e => some e.addr == s.2.ptr).bind (·.data)

/-- The pair that a step of the iterator leads to. -/
def shown (_ : Hash ν φ × HashIter ν) (op : ScanOp ν φ) (s : Hash ν φ × HashIter ν) : List (HashPair ν) :=
  match op with
  | .next | .erase => (under s).toList
  | _ => []

/-- The loop takes the pair it is on out through the iterator only, and does not empty the table. -/
def ScanOp.spares (it : HashIter ν) : ScanOp ν φ → Bool
  | call (.clean _) => false
  | call op =>
    match it.isNull, mclHashIterKey it with
    | false, some (some k) => !(op.map Subtype.val).takes k
    | _, _ => true
  | _ => true

namespace Hash

variable {ht ht' : Hash ν φ} {i : ℕ} {it it' : HashIter ν} {p : HashPair ν} {ps seen : List (HashPair ν)}
  {start : Set (HashPair ν)}

theorem WF.under_ahead (h : ht.WF) (ha : Ahead ht it ps) : under (ht, it) = ps.head? := by
  unfold under
  cases ha with
  | done hnull =>
    have hend : it.isNull = true := by rw [Iter.isNull, hnull]; rfl
    rw [if_pos hend]
    rfl
  | @on i n list pre suf e p hin hl hents hp hptr hdata hu hcursor =>
    have hon : it.isNull = false := by rw [Iter.isNull, hptr]; rfl
    have hfind : (list.ents.find? fun e' => some e'.addr == it.ptr) = some e := by
      have hnodup := (h.lists i list hl).2.nodup
      rw [hents, List.map_append, List.map_cons] at hnodup
      rw [hents, hptr, List.find?_append, List.find?_eq_none.mpr, List.find?_cons_of_pos]
      · rfl
      · exact beq_self_eq_true _
      · intro x hx hc
        have heq : x.addr = e.addr := Option.some.inj (beq_iff_eq.mp hc)
        exact (List.nodup_append.mp hnodup).2.2 _ (List.mem_map_of_mem hx) _ List.mem_cons_self heq
    rw [if_neg (by rw [hon]; exact Bool.false_ne_true), hcursor, Int.toNat_natCast, nodes_of_tables hl]
    dsimp only
    rw [hfind]
    exact hp

/-- What holds between two steps: the iterator is on a stored pair or at the end, and the traversal has
shown what it should have. -/
structure Scanning (start : Set (HashPair ν)) (seen : List (HashPair ν)) (s : Hash ν φ × HashIter ν) : Prop where
  wf : s.1.WF
  below : Below s.1
  scan : ∃ ps, Ahead s.1 s.2 ps ∧ Scan start seen ps {p | ∃ i, p ∈ s.1.bucket i} {p | p.addr < s.1.brk}

theorem Scanning.alters {hit : HashPair ν → Prop} (hs : Scanning start seen (ht, it)) (hwf : ht'.WF) (ha : Alters hit ht ht')
    (hspares : ∀ p, under (ht, it) = some p → ¬ hit p) : Scanning start seen (ht', it) := by
  obtain ⟨h, hbelow, ps, hahead, hscan⟩ := hs
  dsimp only at h hbelow hahead hscan
  have hold : ∀ x ∈ ps, x.addr < ht.brk := fun x hx => by
    obtain ⟨i, hi⟩ := hahead.mem hx
    exact hbelow i x hi
  rw [h.under_ahead hahead] at hspares
  obtain ⟨ps', hahead', hhead, hsub, hsup⟩ := ha.ahead h hahead hspares hold
  have hbelow' : Below ht' := hbelow.alters ha
  refine ⟨hwf, hbelow', ps', hahead', hscan.change hhead ?_ ?_ ?_ ?_ ?_ ?_⟩
  · exact hwf.pairs_nodup.sublist hahead'.isSuffix.sublist
  · intro x hx
    exact (hsub x hx).imp_right fun hnew => Nat.not_lt.mpr hnew.1
  · rintro x hx ⟨i, hin⟩
    exact hsup i x hx hin
  · rintro x ⟨i, hin⟩
    rcases ha.mem hin with hin | hnew
    · exact .inl ⟨i, hin⟩
    · exact .inr (Nat.not_lt.mpr hnew.1)
  · exact fun x hx => Nat.lt_of_lt_of_le hx ha.brk
  · intro x hx
    obtain ⟨i, hi⟩ := hahead'.mem hx
    exact hbelow' i x hi

theorem Scanning.next (hs : Scanning start seen (ht, it)) (hon : it.isNull = false) : ∃ it',
    defHashIterNext it ht = some it' ∧ Scanning start (seen ++ (under (ht, it')).toList) (ht, it') := by
  obtain ⟨h, hbelow, ps, hahead, hscan⟩ := hs
  dsimp only at h hbelow hahead hscan
  cases ps with
  | nil =>
    cases hahead with
    | done hnull =>
      rw [Iter.isNull, hnull] at hon
      exact absurd hon (by decide)
  | cons p ps =>
    obtain ⟨it', hnext, hahead'⟩ := h.iterNext_ahead hahead
    refine ⟨it', hnext, h, hbelow, ps, hahead', ?_⟩
    rw [h.under_ahead hahead']
    exact hscan.next

variable [DecidableEq ν]

theorem Scanning.erase (hs : Scanning start seen (ht, it)) (hon : it.isNull = false) : ∃ it' ht' freed,
    defHashIterErase it ht = some (it', ht', freed) ∧
      Scanning start (seen ++ (under (ht', it')).toList) (ht', it') := by
  obtain ⟨h, hbelow, ps, hahead, hscan⟩ := hs
  dsimp only at h hbelow hahead hscan
  cases ps with
  | nil =>
    cases hahead with
    | done hnull =>
      rw [Iter.isNull, hnull] at hon
      exact absurd hon (by decide)
  | cons p ps =>
    obtain ⟨it', ht', i, herase, hp, hrem, hb, hahead'⟩ := h.defHashIterErase_ahead hahead
    have halters : Alters (fun q => q = p) ht ht' := .of_removes hp rfl hrem
    have hbelow' : Below ht' := hbelow.alters halters
    refine ⟨it', ht', _, herase, hb.wf, hbelow', ps, hahead', ?_⟩
    rw [hb.wf.under_ahead hahead']
    refine hscan.next.change rfl ?_ ?_ ?_ ?_ ?_ ?_
    · exact hb.wf.pairs_nodup.sublist hahead'.isSuffix.sublist
    · exact fun x hx => .inl hx
    · exact fun x hx _ => hx
    · rintro x ⟨j, hj⟩
      exact .inl ⟨j, hrem.mem_of_mem hj⟩
    · exact fun x hx => Nat.lt_of_lt_of_le hx halters.brk
    · intro x hx
      obtain ⟨j, hj⟩ := hahead'.mem hx
      exact hbelow' j x hj

/-- The iterator shows the pair that it is on, and can go on from it. -/
structure Shows (s : Hash ν φ × HashIter ν) : Prop where
  pair : ∃ p ∈ s.1.pairs, under s = some p ∧ mclHashIterKey s.2 = some (some p.key) ∧ mclHashIterVal s.2 = some p.val
  next : ∃ it', defHashIterNext s.2 s.1 = some it'
  erase : ∃ r, defHashIterErase s.2 s.1 = some r

theorem Scanning.shows {s : Hash ν φ × HashIter ν} (hs : Scanning start seen s) (hon : s.2.isNull = false) : Shows s := by
  obtain ⟨ht, it⟩ := s
  obtain ⟨it₁, hnext, -⟩ := hs.next hon
  obtain ⟨it₂, ht', freed, herase, -⟩ := hs.erase hon
  refine ⟨?_, ⟨it₁, hnext⟩, ⟨_, herase⟩⟩
  obtain ⟨h, hbelow, ps, hahead, hscan⟩ := hs
  dsimp only at h hbelow hahead hscan hon ⊢
  have hunder := h.under_ahead hahead
  cases ps with
  | nil =>
    cases hahead with
    | done hnull =>
      rw [Iter.isNull, hnull] at hon
      exact absurd hon (by decide)
  | cons p ps =>
    have hu := hahead.head.2
    refine ⟨p, hahead.isSuffix.subset List.mem_cons_self, hunder, ?_, ?_⟩
    · rw [mclHashIterKey, hu]
    · rw [mclHashIterVal, hu]

theorem Scanning.step {s s' : Hash ν φ × HashIter ν} (hs : Scanning start seen s) {op : ScanOp ν φ} {ans : Answer ν φ}
    (hop : op.spares s.2 = true) (hstep : scanStep s op = some (ans, s')) :
    Scanning start (seen ++ shown s op s') s' := by
  obtain ⟨ht, it⟩ := s
  cases op with
  | call op =>
    obtain ⟨⟨ans', ht'⟩, hcall, heq⟩ := Option.map_eq_some_iff.mp hstep
    cases heq
    have hclean : ∀ freeFn, op ≠ .clean freeFn := by
      rintro freeFn rfl
      exact Bool.false_ne_true hop
    have hwf : ht'.WF := by
      have he : execHash (some ht) (.call op) = some (ans, some ht') := by rw [execHash, hcall]; rfl
      obtain ⟨gone, added, hex⟩ := execHash_exchange hs.wf he
      exact hex.wf ht' rfl
    change Scanning start (seen ++ []) _
    rw [List.append_nil]
    refine hs.alters hwf (execKey_alters hs.wf hclean hcall) fun p hp htakes => ?_
    have hon : it.isNull = false := by
      by_contra hnull
      rw [under, if_pos (Bool.of_not_eq_false hnull)] at hp
      exact absurd hp (by simp)
    obtain ⟨q, -, hq, hkey, -⟩ := (hs.shows hon).pair
    obtain rfl := Option.some.inj (hp.symm.trans hq)
    cases op with
    | clean freeFn => exact absurd rfl (hclean freeFn)
    | _ => simp [ScanOp.spares, hon, hkey, htakes] at hop
  | ctrl cmd data =>
    cases hstep
    change Scanning start (seen ++ []) _
    rw [List.append_nil]
    have halters : Alters (fun _ => False) ht (mclHashCtrl cmd data ht).2 := .of_keeps (ctrl_keeps cmd data ht)
    exact hs.alters (hs.wf.mclHashCtrl_wf cmd data).1 halters fun p _ hc => hc
  | next =>
    obtain ⟨hon, hmap⟩ := Option.ite_none_left_eq_some.mp hstep
    obtain ⟨it', hnext, heq⟩ := Option.map_eq_some_iff.mp hmap
    cases heq
    obtain ⟨it'', hnext', hscan⟩ := hs.next (Bool.eq_false_iff.mpr hon)
    obtain rfl := Option.some.inj (hnext.symm.trans hnext')
    exact hscan
  | erase =>
    obtain ⟨hon, hmap⟩ := Option.ite_none_left_eq_some.mp hstep
    obtain ⟨⟨it', ht', freed⟩, herase, heq⟩ := Option.map_eq_some_iff.mp hmap
    cases heq
    obtain ⟨it'', ht'', freed', herase', hscan⟩ := hs.erase (Bool.eq_false_iff.mpr hon)
    cases herase.symm.trans herase'
    exact hscan

omit [DecidableEq ν] in
theorem WF.scanning_head (h : ht.WF) (hbelow : Below ht) (it : HashIter ν) : ∃ it₀, defHashIterHead it ht = some it₀ ∧
    Scanning {p | p ∈ ht.pairs} (under (ht, it₀)).toList (ht, it₀) := by
  obtain ⟨it₀, hhead, hahead⟩ := h.iterHead_ahead it
  have hstored : ∀ p ∈ ht.pairs, p.addr < ht.brk := fun p hp => by
    obtain ⟨i, hi⟩ := h.mem_pairs.mp hp
    exact hbelow i p hi
  refine ⟨it₀, hhead, h, hbelow, ht.pairs, hahead, ?_⟩
  rw [h.under_ahead hahead]
  exact .begin h.pairs_nodup hstored hstored fun p hp => hp

theorem Scanning.reach {it₀ : HashIter ν} (hs : Scanning start (under (ht, it₀)).toList (ht, it₀))
    {changes : List (ScanOp ν φ × Answer ν φ)} {x : List (HashPair ν) × Hash ν φ × HashIter ν}
    (hr : ((scanMachine ht it₀).logged shown).Reach (fun x op => op.spares x.2.2 = true) changes x) :
    Scanning start ((under (ht, it₀)).toList ++ x.1) x.2 := by
  refine hr.invariant (P := fun x => Scanning start ((under (ht, it₀)).toList ++ x.1) x.2) ?_ ?_
  · rwa [show ((scanMachine ht it₀).logged shown).init.1 = [] from rfl, List.append_nil]
  · rintro ⟨seen, s⟩ op ans ⟨seen', s'⟩ hP hop hstep
    obtain ⟨hstep', rfl⟩ := Machine.logged_step.mp hstep
    rw [← List.append_assoc]
    exact hP.step hop hstep'

omit [DecidableEq ν] in
theorem Scanning.visited {s : Hash ν φ × HashIter ν} (hs : Scanning start seen s) (hend : s.2.isNull = true)
    (hp : p ∈ start) (hin : p ∈ s.1.pairs) : p ∈ seen := by
  obtain ⟨h, hbelow, ps, hahead, hscan⟩ := hs
  cases hahead with
  | done => exact hscan.ends hp (h.mem_pairs.mp hin)
  | on hin hl hents hp hptr =>
    rw [Iter.isNull, hptr] at hend
    exact absurd hend (by simp)

end Hash

/-- The pairs on which a traversal has been, with the first one. -/
def visited (s : Hash ν φ × HashIter ν) (seen : List (HashPair ν)) : List (HashPair ν) := (under s).toList ++ seen

/-- A traversal of a table that is changed on the way comes to no pair twice, is on a stored pair until it ends,
and has then been on each pair that was there all along. -/
theorem hash_scan [DecidableEq ν] {type : DataType} {ops : List (HashOp ν φ)} {hist : List (HashOp ν φ × Answer ν φ)}
    {ht : Hash ν φ} (hrun : (hashMachine type).run ops = some (hist, some ht)) (it : HashIter ν) :
    ∃ it₀, defHashIterHead it ht = some it₀ ∧
      ∀ changes seen s,
        ((scanMachine ht it₀).logged shown).Reach (fun x op => op.spares x.2.2 = true) changes (seen, s) →
          (visited (ht, it₀) seen).Nodup ∧
          (s.2.isNull = false → Hash.Shows s) ∧
          (s.2.isNull = true → ∀ p ∈ ht.pairs, p ∈ s.1.pairs → p ∈ visited (ht, it₀) seen) := by
  obtain ⟨it₀, hhead, hs⟩ := (hashMachine_wf hrun).scanning_head (Hash.hashMachine_below hrun) it
  refine ⟨it₀, hhead, fun changes seen s hr => ?_⟩
  have hscan := hs.reach hr
  obtain ⟨ps, -, hps⟩ := hscan.scan
  exact ⟨hps.nodup, hscan.shows, fun hend p hp hin => hscan.visited hend hp hin⟩

/-- A traversal of three pairs: one comes, one goes behind its back, and one is erased under the iterator. -/
theorem hash_scan_three : ∃ hist, ∃ ht : Hash ℕ Unit, ∃ it₀, ∃ seen : List (HashPair ℕ), ∃ s : Hash ℕ Unit × HashIter ℕ,
    (hashMachine .int).run ([1, 2, 3].map fun n => .call (.insert ⟨.int n, trivial⟩ (some 7) none)) =
      some (hist, some ht) ∧ defHashIterHead .initializer ht = some it₀ ∧
      (visited (ht, it₀) seen).map (·.key) = [.int 1, .int 3, .int 4] ∧ (visited (ht, it₀) seen).Nodup ∧
      s.2.isNull = true ∧ ∀ p ∈ ht.pairs, p ∈ s.1.pairs → p ∈ visited (ht, it₀) seen := by
  obtain ⟨hist, s₀, hrun, hall⟩ := (hashMachine .int).exists_of_run
    ([1, 2, 3].map fun n => .call (.insert ⟨.int n, trivial⟩ (some 7) none))
    (fun r => r.2.any fun ht : Hash ℕ Unit => (defHashIterHead .initializer ht).any fun it₀ =>
      ((((scanMachine ht it₀).logged shown).restrict fun x op => op.spares x.2.2).run
        [.call (.insert ⟨.int 4, trivial⟩ (some 8) none), .call (.delete ⟨.int 2, trivial⟩ none), .next, .erase, .next]).any
          fun r => decide ((visited (ht, it₀) r.2.1).map (·.key) = [.int 1, .int 3, .int 4] ∧ r.2.2.2.isNull = true))
    (by decide +kernel)
  obtain ⟨ht, rfl, hscan⟩ := (Option.any_eq_true _ _).mp hall
  obtain ⟨it₀, hhead, hscan⟩ := (Option.any_eq_true _ _).mp hscan
  obtain ⟨changes, ⟨seen, s⟩, hr, hkeys, hend⟩ := Machine.exists_of_restrict _ _ _ _ hscan
  obtain ⟨it₁, hhead₁, hruns⟩ := hash_scan hrun .initializer
  obtain rfl := Option.some.inj (hhead.symm.trans hhead₁)
  obtain ⟨hnodup, -, hvisited⟩ := hruns changes seen s hr
  exact ⟨hist, ht, it₀, seen, s, hrun, hhead, hkeys, hnodup, hend, hvisited hend⟩

end Mcl
