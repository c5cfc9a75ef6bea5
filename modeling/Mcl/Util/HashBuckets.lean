import Mcl.Util.HashBlocks

/-! One bucket of a table in memory: a list whose nodes point to pairs. -/
namespace Mcl.HashCode
open Mcl.Library Mcl.Library.HProp ListBlocks StringCode

variable {ν φ : Type}

/-- A node with the pair it points to. -/
abbrev Entry (ν : Type) := Node × HashPair ν

def entryAt (e : Entry ν) : HProp (Cell ν φ) := pairAt e.1.2 e.2

def entriesAt (list : Addr) (es : List (Entry ν)) : HProp (Cell ν φ) :=
  listAt list (es.map Prod.fst) * (es.map entryAt).prod

def bucketAt (list : Addr) (row : List (HashPair ν)) : HProp (Cell ν φ) :=
  ⨆ es : List (Entry ν), fact (es.map Prod.snd = row) * entriesAt list es

variable {list pairp keyp keyData : Addr} {row : List (HashPair ν)} {es pre suf : List (Entry ν)} {e : Entry ν}
  {p : HashPair ν} {key : HashKey} {K : HProp (Cell ν φ)}

theorem entriesAt_le (es : List (Entry ν)) : entriesAt list es ≤ (bucketAt list (es.map Prod.snd) : HProp (Cell ν φ)) :=
  le_iSup_of_le es (le_fact_mul rfl)

theorem listAt_le_bucketAt : listAt list [] ≤ (bucketAt list [] : HProp (Cell ν φ)) := by
  refine le_trans ?_ (entriesAt_le [])
  rw [entriesAt, List.map_nil, List.map_nil, List.prod_nil, mul_one]

/-- Two nodes do not share a pair. -/
theorem entriesAt_nodup {h : Heap (Cell ν φ)} (hh : h ∈ entriesAt list es) : (es.map (·.1.2)).Nodup := by
  obtain ⟨-, h₂, -, -, -, hpairs⟩ := hh
  exact Owns.nodup (fun e : Entry ν => pairAt_owns e.1.2 e.2) hpairs

/-- The blocks of a row of pairs and of its list. -/
theorem bucketAt_sized {type : DataType} (hrow : ∀ p ∈ row, p.key.type = type) :
    Sized (bucketAt list row : HProp (Cell ν φ)) (1 + (3 + dataBlocks type) * row.length) := by
  refine Sized.iSup fun es => Sized.fact_mul fun hes => ?_
  have hentry : ∀ e ∈ es, Sized (entryAt e : HProp (Cell ν φ)) (2 + dataBlocks type) := by
    intro e he
    rw [← hrow e.2 (hes ▸ List.mem_map_of_mem he)]
    exact pairAt_sized _ _
  have hlen : 1 + (3 + dataBlocks type) * row.length =
      (es.map Prod.fst).length + 1 + (2 + dataBlocks type) * es.length := by
    rw [← hes, List.length_map, List.length_map, Nat.add_mul, Nat.add_mul]
    omega
  rw [hlen]
  exact (listAt_sized list _).mul (Sized.prod hentry)

/-! Search. -/

theorem entries_find {cmpFunc : Addr → MclM ν φ Bool} {hit : HashPair ν → Bool}
    (hcmp : ∀ e ∈ es, Reads (pairAt e.1.2 e.2 * K) (cmpFunc e.1.2) (hit e.2)) :
    Reads (entriesAt list es * K) (mclListFind cmpFunc list) ((es.find? fun e => hit e.2).map (·.1.2)) := by
  rw [entriesAt, mul_assoc]
  refine mclListFind_reads Prod.fst fun e he => ?_
  obtain ⟨pre, suf, rfl⟩ := List.append_of_mem he
  rw [prod_split, mul_right_comm]
  exact (hcmp e he).left

/-- The first entry that is hit, where there is one. -/
theorem exists_hit {hit : HashPair ν → Bool} (hp : (es.map Prod.snd).find? hit = some p) :
    ∃ pre e suf, es = pre ++ e :: suf ∧ e.2 = p ∧ es.find? (fun e => hit e.2) = some e ∧
      (es.map Prod.snd).eraseP hit = (pre ++ suf).map Prod.snd := by
  rw [List.find?_map] at hp
  obtain ⟨e, he, rfl⟩ := Option.map_eq_some_iff.mp hp
  obtain ⟨hhit, pre, suf, rfl, hpre⟩ := List.find?_eq_some_iff_append.mp he
  refine ⟨pre, e, suf, rfl, rfl, he, ?_⟩
  have hbefore : ∀ q ∈ pre.map Prod.snd, ¬ hit q = true := by
    intro q hq
    obtain ⟨e', he', rfl⟩ := List.mem_map.mp hq
    simpa using hpre e' he'
  have hfirst : (e.2 :: suf.map Prod.snd).eraseP hit = suf.map Prod.snd := List.eraseP_cons_of_pos hhit
  rw [List.map_append, List.map_cons, List.eraseP_append_right _ hbefore, hfirst, List.map_append]

/-- A search in a bucket, and what is done with its result. -/
theorem bucket_find {cmpFunc : Addr → MclM ν φ Bool} (hit : HashPair ν → Bool) {α : Type}
    {k : Option Addr → MclM ν φ α} {S : α → HProp (Cell ν φ)}
    (hcmp : ∀ a, ∀ p ∈ row, Reads (pairAt a p * K) (cmpFunc a) (hit p))
    (hnone : row.find? hit = none → Spec (bucketAt list row * K) (k none) S)
    (hsome : ∀ pre e suf, row.find? hit = some e.2 → (pre ++ e :: suf).map Prod.snd = row →
      row.eraseP hit = (pre ++ suf).map Prod.snd → Spec (entriesAt list (pre ++ e :: suf) * K) (k (some e.1.2)) S) :
    Spec (bucketAt list row * K) (mclListFind cmpFunc list >>= k) S := by
  refine Spec.exists_mul fun es => ?_
  rw [mul_assoc]
  refine Spec.fact_mul fun hes => ?_
  subst hes
  refine (entries_find fun e he => hcmp e.1.2 e.2 (List.mem_map_of_mem he)).call ?_
  cases hp : (es.map Prod.snd).find? hit with
  | none =>
    have hall : es.find? (fun e => hit e.2) = none := by
      rw [List.find?_map, Option.map_eq_none_iff] at hp
      exact hp
    rw [hall]
    exact (hnone hp).pre (mul_le_mul_left (entriesAt_le _) _)
  | some p =>
    obtain ⟨pre, e, suf, rfl, rfl, he, herase⟩ := exists_hit hp
    rw [he]
    exact hsome pre e suf hp rfl herase

/-! Changes. -/

theorem entries_remove (freeFn : Option φ) {α : Type} {k : Freed φ ν → MclM ν φ α} {S : α → HProp (Cell ν φ)}
    (hk : Spec (entriesAt list (pre ++ suf) * K) (k (Mcl.destroyPair e.2 freeFn)) S) :
    Spec (entriesAt list (pre ++ e :: suf) * K)
      (mclListDelete e.1.2 list >>= fun _ => destroyPair e.1.2 freeFn >>= k) S := by
  have hnd : ∀ h ∈ (entriesAt list (pre ++ e :: suf) * K : HProp (Cell ν φ)),
      ((pre ++ e :: suf).map (·.1.2)).Nodup := by
    rintro h ⟨h₁, -, -, -, hh, -⟩
    exact entriesAt_nodup hh
  refine Spec.known hnd fun hnodup => ?_
  have hnot : e.1.2 ∉ (pre.map Prod.fst).map Prod.snd := by
    rw [List.map_map]
    rw [List.map_append, List.map_cons] at hnodup
    exact fun hc => (List.nodup_append.mp hnodup).2.2 _ hc _ List.mem_cons_self rfl
  rw [entriesAt, prod_split, List.map_append, List.map_cons, mul_assoc]
  refine Spec.call (mclListDelete_spec hnot) fun r => ?_
  rw [mul_assoc]
  refine Spec.fact_mul fun _ => ?_
  have hreorder : listAt list (pre.map Prod.fst ++ suf.map Prod.fst) *
        (entryAt e * ((pre ++ suf).map entryAt).prod * K) =
      (pairAt e.1.2 e.2 * (entriesAt list (pre ++ suf) * K) : HProp (Cell ν φ)) := by
    rw [entriesAt, entryAt, List.map_append (f := Prod.fst)]
    ac_rfl
  rw [hreorder]
  refine Spec.call (destroyPair_spec freeFn) fun freed => ?_
  refine Spec.fact_mul fun hfreed => ?_
  rw [hfreed]
  exact hk

theorem bucket_insert (hlt : (row.length : ℤ) < mclListMaxSize) :
    Spec (bucketAt list row * pairAt pairp p : HProp (Cell ν φ)) (mclListInsert pairp list) fun r =>
      fact (r = 1) * bucketAt list (p :: row) := by
  refine Spec.exists_mul fun es => ?_
  rw [mul_assoc]
  refine Spec.fact_mul fun hes => ?_
  subst hes
  rw [List.length_map] at hlt
  rw [entriesAt, mul_assoc]
  refine (Spec.frame (mclListInsert_spec pairp (by rwa [List.length_map])) _).post fun r => ?_
  rw [Quantale.iSup_mul_distrib]
  refine iSup_le fun node => ?_
  have hreorder : fact (r = 1) * listAt list ((node, pairp) :: es.map Prod.fst) *
        ((es.map entryAt).prod * pairAt pairp p) =
      (fact (r = 1) * entriesAt list (((node, pairp), p) :: es) : HProp (Cell ν φ)) := by
    rw [entriesAt, List.map_cons, List.map_cons, List.prod_cons, entryAt]
    ac_rfl
  rw [hreorder]
  exact mul_le_mul_right (entriesAt_le _) _

theorem bucket_insert_full (hfull : ¬ (row.length : ℤ) < mclListMaxSize) :
    Reads (bucketAt list row : HProp (Cell ν φ)) (mclListInsert pairp list) 0 := by
  refine Gives.iSup fun es => Reads.fact_mul fun hes => ?_
  rw [← hes, List.length_map] at hfull
  exact Reads.left (mclListInsert_full pairp (by rwa [List.length_map]))

/-! The calls. -/

section Calls
variable (hkey : key.Valid) (hrow : ∀ p ∈ row, p.key.Valid)
include hkey hrow

theorem findIn_reads : Reads (bucketAt list row * keyAt keyp keyData key : HProp (Cell ν φ)) (findIn list keyp)
    ((pairUnder key row).bind (·.val)) := by
  refine bucket_find (Mcl.keyPairCmp key) (fun a p hp => keyPairCmp_reads hkey (hrow p hp)) (fun hnone => ?_) fun pre e suf hp hes _ => ?_
  · have hunder : pairUnder key row = none := hnone
    rw [hunder]
    exact Reads.pure
  · have hunder : pairUnder key row = some e.2 := hp
    rw [hunder]
    have hval : Reads (entriesAt list (pre ++ e :: suf) * keyAt keyp keyData key : HProp (Cell ν φ))
        (readPair e.1.2 >>= fun r => pure r.2) e.2.val := by
      rw [entriesAt, prod_split, mul_left_comm, mul_assoc]
      exact Reads.pair fun _ _ => readPair_reads.left.left.bind Reads.pure
    refine Spec.post hval fun r => mul_le_mul_right (mul_le_mul_left ?_ _) _
    rw [← hes]
    exact entriesAt_le _

theorem deleteIn_present (hp : pairUnder key row = some p) (freeFn : Option φ) :
    Spec (bucketAt list row * keyAt keyp keyData key : HProp (Cell ν φ)) (deleteIn list keyp freeFn) fun r =>
      fact (r = (1, Mcl.destroyPair p freeFn)) * (bucketAt list (dropUnder key row) * keyAt keyp keyData key) := by
  refine bucket_find (Mcl.keyPairCmp key) (fun a p hp => keyPairCmp_reads hkey (hrow p hp)) (fun hnone => ?_)
    fun pre e suf he hes herase => ?_
  · exact absurd (hnone.symm.trans hp) (Option.some_ne_none p).symm
  · obtain rfl : e.2 = p := Option.some.inj (he.symm.trans hp)
    refine entries_remove freeFn ?_
    have hdrop : dropUnder key row = (pre ++ suf).map Prod.snd := herase
    rw [hdrop]
    exact Spec.pre (mul_le_mul_left (entriesAt_le _) _) Reads.pure

theorem deleteIn_absent (hnone : pairUnder key row = none) (freeFn : Option φ) :
    Reads (bucketAt list row * keyAt keyp keyData key : HProp (Cell ν φ)) (deleteIn list keyp freeFn) (0, []) := by
  refine bucket_find (Mcl.keyPairCmp key) (fun a p hp => keyPairCmp_reads hkey (hrow p hp)) (fun _ => Reads.pure) fun pre e suf he _ _ => ?_
  exact absurd (hnone.symm.trans he) (Option.some_ne_none e.2).symm

end Calls

section Insert
variable (hkey : p.key.Valid) (hrow : ∀ q ∈ row, q.key.Valid)
include hkey hrow

theorem insertIn_room (hcap : (row.length : ℤ) ≤ mclListMaxSize) {subFlg : Bool} (hroom : Hash.Room subFlg p.key row)
    (freeFn : Option φ) :
    Spec (bucketAt list row * pairAt pairp p : HProp (Cell ν φ)) (insertIn list pairp subFlg freeFn) fun r =>
      fact (r = (1, (pairUnder p.key row).elim [] (Mcl.destroyPair · freeFn))) *
        bucketAt list (p :: dropUnder p.key row) := by
  refine bucket_find (Mcl.pairPairCmp p) (fun a q hq => ?_) (fun hnone => ?_) fun pre e suf he hes herase => ?_
  · rw [mul_comm]
    exact pairPairCmp_reads hkey (hrow q hq)
  · have hunder : pairUnder p.key row = none := hnone
    have hdrop : dropUnder p.key row = row := KeySame.drop_of_lookup_eq_none hunder
    have hlt : (row.length : ℤ) < mclListMaxSize := by simpa [Hash.Room, hunder] using hroom
    rw [hunder, hdrop]
    exact (bucket_insert hlt).bind fun r => Spec.fact_mul fun hr => hr ▸ Spec.ret rfl
  · have hunder : pairUnder p.key row = some e.2 := he
    have hsub : subFlg = true := by simpa [Hash.Room, hunder] using hroom
    have hdrop : dropUnder p.key row = (pre ++ suf).map Prod.snd := herase
    have hlen : (dropUnder p.key row).length + 1 = row.length := KeySame.length_drop hunder
    rw [hsub, hunder, hdrop]
    refine entries_remove freeFn ?_
    refine Spec.pre (mul_le_mul_left (entriesAt_le _) _) ((bucket_insert ?_).bind fun r => ?_)
    · rw [← hdrop]
      omega
    · exact Spec.fact_mul fun hr => hr ▸ Spec.ret rfl

theorem insertIn_refused {subFlg : Bool} (hroom : ¬ Hash.Room subFlg p.key row) (freeFn : Option φ) :
    Reads (bucketAt list row * pairAt pairp p : HProp (Cell ν φ)) (insertIn list pairp subFlg freeFn) (0, []) := by
  refine bucket_find (Mcl.pairPairCmp p) (fun a q hq => ?_) (fun hnone => ?_) fun pre e suf he hes _ => ?_
  · rw [mul_comm]
    exact pairPairCmp_reads hkey (hrow q hq)
  · have hunder : pairUnder p.key row = none := hnone
    exact (bucket_insert_full (by simpa [Hash.Room, hunder] using hroom)).left.bind Reads.pure
  · have hunder : pairUnder p.key row = some e.2 := he
    have hsub : subFlg = false := by simpa [Hash.Room, hunder] using hroom
    rw [hsub, ← hes]
    exact Spec.post Reads.pure fun r => mul_le_mul_right (mul_le_mul_left (entriesAt_le _) _) _

end Insert

end Mcl.HashCode
