import Mcl.Util.HashTraversal

/-! What happens to an iterator when the table is changed between two steps of a traversal. -/
namespace Mcl
open Mcl.Library

variable {ν φ : Type}

namespace Hash

variable {ht ht' : Hash ν φ} {i j : ℕ} {list : MclList (HashPair ν) φ} {it : HashIter ν}
  {p q : HashPair ν} {ps : List (HashPair ν)} {key : HashKey} {v : ν}

/-- The list nodes of bucket `i`. -/
def nodes (ht : Hash ν φ) (i : ℕ) : List (ListEnt (HashPair ν)) :=
  match ht.tables i with
  | none => []
  | some list => list.ents

theorem nodes_of_tables (hl : ht.tables i = some list) : ht.nodes i = list.ents := by
  simp only [nodes, hl]

theorem nodes_getD (ht : Hash ν φ) (i : ℕ) : ((ht.tables i).getD .new).ents = ht.nodes i := by
  cases hl : ht.tables i <;> simp [nodes, hl, MclList.new]

theorem bucket_eq_nodes (ht : Hash ν φ) (i : ℕ) : ht.bucket i = (ht.nodes i).filterMap (·.data) := by
  cases hl : ht.tables i with
  | none => simp [nodes, hl, bucket_of_tables_none hl]
  | some list => rw [bucket_of_ents hl, nodes_of_tables hl]

theorem nodes_setTable (ht : Hash ν φ) (i : ℕ) (list : MclList (HashPair ν) φ) :
    (ht.setTable i (some list)).nodes = Function.update ht.nodes i list.ents := by
  funext j
  by_cases hj : j = i
  · subst hj
    simp only [nodes, setTable, Function.update_self]
  · simp only [nodes, setTable, Function.update_of_ne hj]

/-- Every node stays where it is. -/
structure Keeps (ht ht' : Hash ν φ) : Prop where
  nodes : ht'.nodes = ht.nodes
  brk : ht.brk ≤ ht'.brk

/-- A new node with the pair `q` goes to the front of bucket `i`. -/
structure Puts (ht ht' : Hash ν φ) (i : ℕ) (q : HashPair ν) : Prop where
  nodes : ∃ a, ht.brk ≤ a ∧ ht'.nodes = Function.update ht.nodes i (⟨a, some q⟩ :: ht.nodes i)
  brk : ht.brk ≤ ht'.brk

/-- The node with the pair `q` leaves bucket `i`. -/
structure Removes (ht ht' : Hash ν φ) (i : ℕ) (q : HashPair ν) : Prop where
  nodes : ∃ hit : ListEnt (HashPair ν) → Bool, (∀ e, hit e = true ↔ e.data = some q) ∧
    ht'.nodes = Function.update ht.nodes i ((ht.nodes i).eraseP hit)
  brk : ht.brk ≤ ht'.brk

theorem Keeps.refl (ht : Hash ν φ) : Keeps ht ht := ⟨rfl, le_refl _⟩

/-! The iterator still on its pair. -/

theorem bucket_split {pre suf : List (ListEnt (HashPair ν))} {e : ListEnt (HashPair ν)}
    (hl : ht.tables i = some list) (hents : list.ents = pre ++ e :: suf) (hp : e.data = some p) :
    ht.bucket i = pre.filterMap (·.data) ++ p :: suf.filterMap (·.data) := by
  rw [bucket_of_ents hl, hents, List.filterMap_append, List.filterMap_cons_some hp]

theorem Ahead.of_nodes {n : ℕ} {pre suf : List (ListEnt (HashPair ν))} {e : ListEnt (HashPair ν)}
    (hin : i + (n + 1) = mclHashMaxSize) (hn : ht.nodes i = pre ++ e :: suf)
    (hp : e.data = some p) (hptr : it.ptr = some e.addr) (hdata : it.data = some e.addr)
    (hu : it.u = .pair (some p.key) p.val) (hcursor : it.cursor = i) :
    Ahead ht it (p :: (suf.filterMap (·.data) ++ ht.pairsFrom (i + 1) n)) := by
  cases hl : ht.tables i with
  | none => simp [nodes, hl] at hn
  | some list =>
    rw [nodes_of_tables hl] at hn
    exact .on hin hl hn hp hptr hdata hu hcursor

theorem mem_pairsFrom {n : ℕ} : q ∈ ht.pairsFrom i n ↔ ∃ j, i ≤ j ∧ j < i + n ∧ q ∈ ht.bucket j := by
  simp [pairsFrom, List.mem_range'_1, and_assoc]

theorem pairsFrom_congr (hn : ht'.nodes = ht.nodes) (i n : ℕ) : ht'.pairsFrom i n = ht.pairsFrom i n := by
  have hb : ht'.bucket = ht.bucket := by
    funext j
    rw [bucket_eq_nodes, bucket_eq_nodes, hn]
  rw [pairsFrom, pairsFrom, hb]

theorem Ahead.mem (ha : Ahead ht it ps) (hq : q ∈ ps) : ∃ i, q ∈ ht.bucket i := by
  cases ha with
  | done => exact absurd hq List.not_mem_nil
  | @on i n list pre suf e p hin hl hents hp hptr hdata hu hcursor =>
    have hbucket := bucket_split hl hents hp
    rcases List.mem_cons.mp hq with rfl | hq
    · exact ⟨i, by rw [hbucket]; simp⟩
    · rcases List.mem_append.mp hq with hq | hq
      · exact ⟨i, by rw [hbucket]; simp [hq]⟩
      · obtain ⟨j, -, -, hj⟩ := mem_pairsFrom.mp hq
        exact ⟨j, hj⟩

theorem Ahead.bucket (ha : Ahead ht it (p :: ps)) :
    ∃ i : ℕ, it.cursor = i ∧ p ∈ ht.bucket i := by
  cases ha with
  | @on i n list pre suf e p hin hl hents hp hptr hdata hu hcursor =>
    refine ⟨i, hcursor, ?_⟩
    rw [bucket_split hl hents hp]
    simp

/-- A traversal does not come back to the pair it is on. -/
theorem WF.not_mem_ahead (h : ht.WF) (ha : Ahead ht it (p :: ps)) : p ∉ ps := by
  cases ha with
  | @on i n list pre suf e p hin hl hents hp hptr hdata hu hcursor =>
    intro hmem
    have hd := h.distinct i
    have hbucket := bucket_split hl hents hp
    rw [hbucket] at hd
    rcases List.mem_append.mp hmem with hmem | hmem
    · have hsame := (List.pairwise_cons.mp (List.pairwise_append.mp hd).2.1).1 p hmem
      rw [hashKeySame.refl] at hsame
      exact absurd hsame (by simp)
    · obtain ⟨j, hij, -, hj⟩ := mem_pairsFrom.mp hmem
      have hpi := (h.placed i p (by rw [hbucket]; simp)).bucketOf
      rw [(h.placed j p hj).bucketOf] at hpi
      have := Option.some.inj hpi
      omega

theorem Ahead.keeps (ha : Ahead ht it ps) (hk : Keeps ht ht') : Ahead ht' it ps := by
  cases ha with
  | done hnull => exact .done hnull
  | @on i n list pre suf e p hin hl hents hp hptr hdata hu hcursor =>
    rw [← pairsFrom_congr hk.nodes]
    have hn : ht'.nodes i = pre ++ e :: suf := by rw [hk.nodes, nodes_of_tables hl, hents]
    exact .of_nodes hin hn hp hptr hdata hu hcursor

/-- A pair that a traversal has before it: the one it is on, one behind it in its list, or one of a later list. -/
theorem mem_onward {n : ℕ} {suf : List (ListEnt (HashPair ν))} :
    x ∈ p :: (suf.filterMap (·.data) ++ ht.pairsFrom (i + 1) n) ↔
      x = p ∨ (∃ e ∈ suf, e.data = some x) ∨ ∃ k, i < k ∧ k < i + 1 + n ∧ x ∈ ht.bucket k := by
  rw [List.mem_cons, List.mem_append, List.mem_filterMap, mem_pairsFrom]
  rfl

theorem Puts.mem_bucket (hputs : Puts ht ht' j q) : x ∈ ht'.bucket i ↔ x ∈ ht.bucket i ∨ i = j ∧ x = q := by
  obtain ⟨a, -, hn⟩ := hputs.nodes
  rw [bucket_eq_nodes, bucket_eq_nodes, hn]
  by_cases hij : i = j
  · subst hij
    have hfront : (⟨a, some q⟩ :: ht.nodes i).filterMap (·.data) = q :: (ht.nodes i).filterMap (·.data) := rfl
    rw [Function.update_self, hfront, List.mem_cons]
    constructor
    · rintro (rfl | hx)
      · exact .inr ⟨rfl, rfl⟩
      · exact .inl hx
    · rintro (hx | ⟨-, rfl⟩)
      · exact .inr hx
      · exact .inl rfl
  · rw [Function.update_of_ne hij]
    exact ⟨.inl, fun hx => hx.resolve_right fun hc => hij hc.1⟩

/-- The new pair is met later only if its bucket is. -/
theorem Ahead.puts (ha : Ahead ht it ps) (hputs : Puts ht ht' j q) :
    ∃ ps', Ahead ht' it ps' ∧ ps'.head? = ps.head? ∧
      (∀ x ∈ ps', x ∈ ps ∨ (x = q ∧ it.ptr ≠ none ∧ it.cursor < j)) ∧ ∀ x ∈ ps, x ∈ ps' := by
  obtain ⟨a, -, hn⟩ := hputs.nodes
  cases ha with
  | done hnull => exact ⟨[], .done hnull, rfl, fun x hx => absurd hx List.not_mem_nil, fun x hx => hx⟩
  | @on i n list pre suf e p hin hl hents hp hptr hdata hu hcursor =>
    have hpre : ∃ pre', ht'.nodes i = pre' ++ e :: suf := by
      by_cases hij : i = j
      · subst hij
        exact ⟨⟨a, some q⟩ :: pre, by rw [hn, Function.update_self, nodes_of_tables hl, hents]; rfl⟩
      · exact ⟨pre, by rw [hn, Function.update_of_ne hij, nodes_of_tables hl, hents]⟩
    obtain ⟨pre', hpre⟩ := hpre
    refine ⟨_, .of_nodes hin hpre hp hptr hdata hu hcursor, rfl, fun x hx => ?_, fun x hx => ?_⟩
    · rcases mem_onward.mp hx with rfl | hsuf | ⟨k, hik, hkn, hk⟩
      · exact .inl List.mem_cons_self
      · exact .inl (mem_onward.mpr (.inr (.inl hsuf)))
      · rcases hputs.mem_bucket.mp hk with hk | ⟨rfl, rfl⟩
        · exact .inl (mem_onward.mpr (.inr (.inr ⟨k, hik, hkn, hk⟩)))
        · exact .inr ⟨rfl, by simp [hptr], by omega⟩
    · refine mem_onward.mpr ((mem_onward.mp hx).imp_right (.imp_right ?_))
      exact fun ⟨k, hik, hkn, hk⟩ => ⟨k, hik, hkn, hputs.mem_bucket.mpr (.inl hk)⟩

theorem mem_eraseP_of_ne {nodes : List (ListEnt (HashPair ν))} {hit : ListEnt (HashPair ν) → Bool}
    (hhit : ∀ e, hit e = true ↔ e.data = some q) {e : ListEnt (HashPair ν)} (he : e ∈ nodes) (hne : e.data ≠ some q) :
    e ∈ nodes.eraseP hit := (List.mem_eraseP_of_neg (by rwa [hhit])).mpr he

/-- In a list the node of another pair stays. Of the nodes behind it none is new, and those of other pairs stay. -/
theorem Removes.split (hrem : Removes ht ht' j q) {pre suf : List (ListEnt (HashPair ν))}
    {e : ListEnt (HashPair ν)} (hn : ht.nodes i = pre ++ e :: suf) (he : e.data ≠ some q) :
    ∃ pre' suf', ht'.nodes i = pre' ++ e :: suf' ∧ (∀ x ∈ suf', x ∈ suf) ∧
      (∀ x ∈ suf, x.data ≠ some q → x ∈ suf') ∧ ((∀ x ∈ suf, x.data ≠ some q) → suf' = suf) := by
  obtain ⟨hit, hhit, hnodes⟩ := hrem.nodes
  by_cases hij : i = j
  · subst hij
    rw [hnodes, Function.update_self, hn]
    by_cases hpre : ∃ x ∈ pre, hit x = true
    · obtain ⟨x, hx, hxq⟩ := hpre
      exact ⟨_, suf, List.eraseP_append_left hxq _ hx, fun _ h => h, fun _ h _ => h, fun _ => rfl⟩
    · have hmiss : ∀ x ∈ pre, ¬ hit x = true := fun x hx hc => hpre ⟨x, hx, hc⟩
      have he' : ¬ hit e = true := by rwa [hhit]
      rw [List.eraseP_append_right _ hmiss, List.eraseP_cons_of_neg he']
      refine ⟨pre, _, rfl, fun x hx => List.mem_of_mem_eraseP hx, fun x hx hne => mem_eraseP_of_ne hhit hx hne, ?_⟩
      intro hsuf
      apply List.eraseP_of_forall_not
      intro x hx
      rw [hhit]
      exact hsuf x hx
  · rw [hnodes, Function.update_of_ne hij]
    exact ⟨pre, suf, hn, fun _ h => h, fun _ h _ => h, fun _ => rfl⟩

theorem Removes.mem_of_ne (hrem : Removes ht ht' j q) (hx : x ∈ ht.bucket i) (hne : x ≠ q) : x ∈ ht'.bucket i := by
  obtain ⟨hit, hhit, hn⟩ := hrem.nodes
  rw [bucket_eq_nodes] at hx ⊢
  rw [hn]
  by_cases hij : i = j
  · subst hij
    rw [Function.update_self]
    obtain ⟨e, he, hex⟩ := List.mem_filterMap.mp hx
    refine List.mem_filterMap.mpr ⟨e, mem_eraseP_of_ne hhit he ?_, hex⟩
    rw [hex]
    exact fun hc => hne (Option.some.inj hc)
  · rwa [Function.update_of_ne hij]

theorem Removes.mem_of_mem (hrem : Removes ht ht' j q) (hp : p ∈ ht'.bucket i) : p ∈ ht.bucket i := by
  obtain ⟨hit, -, hn⟩ := hrem.nodes
  rw [bucket_eq_nodes] at hp ⊢
  rw [hn] at hp
  by_cases hij : i = j
  · subst hij
    rw [Function.update_self] at hp
    obtain ⟨x, hx, hxp⟩ := List.mem_filterMap.mp hp
    exact List.mem_filterMap.mpr ⟨x, List.mem_of_mem_eraseP hx, hxp⟩
  · rwa [Function.update_of_ne hij] at hp

theorem Removes.bucket_of_not_mem (hrem : Removes ht ht' j q) (hq : q ∉ ht.bucket i) :
    ht'.bucket i = ht.bucket i := by
  obtain ⟨hit, hhit, hn⟩ := hrem.nodes
  rw [bucket_eq_nodes, bucket_eq_nodes, hn]
  by_cases hij : i = j
  · subst hij
    rw [Function.update_self, List.eraseP_of_forall_not]
    intro x hx hc
    rw [hhit] at hc
    rw [bucket_eq_nodes] at hq
    exact hq (List.mem_filterMap.mpr ⟨x, hx, hc⟩)
  · rw [Function.update_of_ne hij]

/-- Removing a pair the iterator is not on. -/
theorem Ahead.removes (ha : Ahead ht it ps) (hrem : Removes ht ht' j q) (hne : ps.head? ≠ some q) :
    ∃ ps', Ahead ht' it ps' ∧ ps'.head? = ps.head? ∧ (∀ x ∈ ps', x ∈ ps) ∧ ∀ x ∈ ps, x ≠ q → x ∈ ps' := by
  cases ha with
  | done hnull => exact ⟨[], .done hnull, rfl, fun x hx => absurd hx List.not_mem_nil, fun x hx _ => hx⟩
  | @on i n list pre suf e p hin hl hents hp hptr hdata hu hcursor =>
    have he : e.data ≠ some q := by
      rw [hp]
      exact hne
    obtain ⟨pre', suf', hents', hsub, hstay, -⟩ := hrem.split ((nodes_of_tables hl).trans hents) he
    refine ⟨_, .of_nodes hin hents' hp hptr hdata hu hcursor, rfl, fun x hx => ?_, fun x hx hxq => ?_⟩
    · refine mem_onward.mpr ((mem_onward.mp hx).imp_right (.imp ?_ ?_))
      · exact fun ⟨y, hy, hyx⟩ => ⟨y, hsub y hy, hyx⟩
      · exact fun ⟨k, hik, hkn, hk⟩ => ⟨k, hik, hkn, hrem.mem_of_mem hk⟩
    · refine mem_onward.mpr ((mem_onward.mp hx).imp_right (.imp ?_ ?_))
      · rintro ⟨y, hy, hyx⟩
        refine ⟨y, hstay y hy ?_, hyx⟩
        rw [hyx]
        exact fun hc => hxq (Option.some.inj hc)
      · exact fun ⟨k, hik, hkn, hk⟩ => ⟨k, hik, hkn, hrem.mem_of_ne hk hxq⟩

/-- Removing a pair that is not ahead. -/
theorem Ahead.removes_behind (ha : Ahead ht it ps) (hrem : Removes ht ht' j q) (hq : q ∉ ps) :
    Ahead ht' it ps := by
  cases ha with
  | done hnull => exact .done hnull
  | @on i n list pre suf e p hin hl hents hp hptr hdata hu hcursor =>
    have he : e.data ≠ some q := by
      rw [hp]
      rintro ⟨⟩
      exact hq List.mem_cons_self
    obtain ⟨pre', suf', hents', -, -, hsame⟩ := hrem.split ((nodes_of_tables hl).trans hents) he
    have hsuf : ∀ x ∈ suf, x.data ≠ some q := fun x hx hxq =>
      hq (List.mem_cons_of_mem _ (List.mem_append_left _ (List.mem_filterMap.mpr ⟨x, hx, hxq⟩)))
    have hbehind : ht'.pairsFrom (i + 1) n = ht.pairsFrom (i + 1) n := by
      apply List.flatMap_congr
      intro k hk
      apply hrem.bucket_of_not_mem
      intro hqk
      exact hq (List.mem_cons_of_mem _ (List.mem_append_right _ (List.mem_flatMap.mpr ⟨k, hk, hqk⟩)))
    rw [hsame hsuf] at hents'
    rw [← hbehind]
    exact .of_nodes hin hents' hp hptr hdata hu hcursor

/-! The iterator whose node has been freed. -/

def Dangling (ht : Hash ν φ) (it : HashIter ν) : Prop :=
  ∃ a, it.ptr = some a ∧ a < ht.brk ∧ ∀ e ∈ ht.nodes it.cursor.toNat, e.addr ≠ a

namespace Dangling

theorem keeps (hd : Dangling ht it) (hk : Keeps ht ht') : Dangling ht' it := by
  obtain ⟨a, hptr, hlt, hfree⟩ := hd
  exact ⟨a, hptr, lt_of_lt_of_le hlt hk.brk, by rwa [hk.nodes]⟩

theorem puts (hd : Dangling ht it) (hputs : Puts ht ht' j q) : Dangling ht' it := by
  obtain ⟨a, hptr, hlt, hfree⟩ := hd
  obtain ⟨b, hb, hn⟩ := hputs.nodes
  refine ⟨a, hptr, lt_of_lt_of_le hlt hputs.brk, ?_⟩
  intro e he
  rw [hn] at he
  by_cases hj : it.cursor.toNat = j
  · rw [← hj, Function.update_self] at he
    rcases List.mem_cons.mp he with rfl | he
    · exact Nat.ne_of_gt (lt_of_lt_of_le hlt hb)
    · exact hfree e he
  · rw [Function.update_of_ne hj] at he
    exact hfree e he

theorem removes (hd : Dangling ht it) (hrem : Removes ht ht' j q) : Dangling ht' it := by
  obtain ⟨a, hptr, hlt, hfree⟩ := hd
  obtain ⟨hit, -, hn⟩ := hrem.nodes
  refine ⟨a, hptr, lt_of_lt_of_le hlt hrem.brk, ?_⟩
  intro e he
  rw [hn] at he
  by_cases hj : it.cursor.toNat = j
  · rw [← hj, Function.update_self] at he
    exact hfree e (List.mem_of_mem_eraseP he)
  · rw [Function.update_of_ne hj] at he
    exact hfree e he

end Dangling

/-- Removing the pair the iterator is on. -/
theorem WF.dangling_of_removes (h : ht.WF) (ha : Ahead ht it (p :: ps)) (hj : p ∈ ht.bucket j)
    (hrem : Removes ht ht' j p) : Dangling ht' it := by
  cases ha with
  | @on i n list pre suf e p hin hl hents hp hptr hdata hu hcursor =>
    have hst := (h.lists i list hl).2
    have he : e ∈ list.ents := by simp [hents]
    have hi : p ∈ ht.bucket i := by
      rw [bucket_of_ents hl]
      exact List.mem_filterMap.mpr ⟨e, he, hp⟩
    have hij : j = i := by
      have hpj := (h.placed j p hj).bucketOf
      rw [(h.placed i p hi).bucketOf] at hpj
      exact (Option.some.inj hpj).symm
    subst hij
    obtain ⟨hit, hhit, hn⟩ := hrem.nodes
    refine ⟨e.addr, hptr, lt_of_lt_of_le (hst.fresh e he) hrem.brk, ?_⟩
    rw [hcursor, Int.toNat_natCast, hn, Function.update_self, nodes_of_tables hl, hents]
    -- no node before `e` has its pair, so it is `e` that goes
    have hd := h.distinct j
    rw [bucket_split hl hents hp] at hd
    have hpre : ∀ x ∈ pre, ¬ hit x = true := by
      intro x hx hxp
      have hpx : p ∈ pre.filterMap (·.data) := List.mem_filterMap.mpr ⟨x, hx, (hhit x).mp hxp⟩
      have hsame := (List.pairwise_append.mp hd).2.2 p hpx p List.mem_cons_self
      rw [hashKeySame.refl] at hsame
      exact absurd hsame (by simp)
    rw [List.eraseP_append_right _ hpre, List.eraseP_cons_of_pos ((hhit e).mpr hp)]
    have hnd := hst.nodup
    rw [hents, List.map_append, List.map_cons] at hnd
    obtain ⟨-, hsuf, hdisj⟩ := List.nodup_append.mp hnd
    intro x hx hc
    rcases List.mem_append.mp hx with hx | hx
    · exact hdisj x.addr (List.mem_map_of_mem hx) e.addr (by simp) hc
    · exact (List.nodup_cons.mp hsuf).1 (hc ▸ List.mem_map_of_mem hx)

/-! The calls. -/

theorem delete_ents [DecidableEq ν] (list : MclList (HashPair ν) φ) (q : HashPair ν) :
    (list.delete (some q) none).2.1.ents = list.ents.eraseP (·.data == some q) := by
  unfold MclList.delete MclList.del
  cases hf : list.ents.find? (·.data == some q) with
  | none =>
    rw [List.find?_eq_none] at hf
    simp only [List.eraseP_of_forall_not hf]
  | some e => rfl

theorem removes_setTable [DecidableEq ν] (hl : ht.tables i = some list) (q : HashPair ν) :
    Removes ht (ht.setTable i (some (list.delete (some q) none).2.1)) i q :=
  ⟨⟨(·.data == some q), fun e => beq_iff_eq, by rw [nodes_setTable, delete_ents, nodes_of_tables hl]⟩,
    le_refl _⟩

theorem keeps_setTable (ht : Hash ν φ) (i : ℕ) : Keeps ht (ht.setTable i ((ht.tables i).getD .new)) :=
  ⟨by rw [nodes_setTable, nodes_getD, Function.update_eq_self], le_refl _⟩

/-- An insert that does not replace. -/
theorem doHashInsert_nodes [DecidableEq ν] (hash : ℤ) (pair : HashPair ν) (ht : Hash ν φ)
    (freeFn : Option φ) :
    ∃ ret ht', doHashInsert hash pair ht false freeFn = (ret, ht', []) ∧
      (ret = 0 ∧ Keeps ht ht' ∨ ret = 1 ∧ Puts ht ht' hash.toNat pair) := by
  unfold doHashInsert
  cases hav : availableHashValue hash with
  | false => exact ⟨0, ht, rfl, .inl ⟨rfl, .refl ht⟩⟩
  | true =>
    have hkeep := keeps_setTable ht hash.toNat
    simp only [Bool.not_true, Bool.false_eq_true, if_false, Bool.not_false, if_true]
    cases ((ht.tables hash.toNat).getD .new).find (pairPairCmp pair) with
    | some pairFound => exact ⟨0, _, rfl, .inl ⟨rfl, hkeep⟩⟩
    | none =>
      refine ⟨_, _, rfl, ?_⟩
      simp only [insertInto, Hash.alloc, MclList.insert]
      split
      · refine .inl ⟨rfl, ?_, Nat.le_succ _⟩
        rw [nodes_setTable, nodes_getD]
        exact (congrArg (Function.update · _ _) hkeep.nodes).trans (Function.update_eq_self _ _)
      · refine .inr ⟨rfl, ⟨ht.brk, le_refl _, ?_⟩, Nat.le_succ _⟩
        rw [nodes_setTable, nodes_getD]
        exact congrArg (Function.update · _ _) hkeep.nodes

namespace WF

variable [DecidableEq ν]

theorem insertSafe_cases (h : ht.WF) (hv : key.Valid) (htype : ht.keyType = key.type) (v : ν) :
    (∃ ht', hashInsert key (some v) ht false none = some (0, ht', []) ∧
        (∀ i, bucketOf key = some i → ¬ Room false key (ht.bucket i)) ∧
        Becomes ht ht' ht.bucket ∧ Keeps ht ht') ∨
      ∃ ht' i q, hashInsert key (some v) ht false none = some (1, ht', []) ∧
        bucketOf key = some i ∧ Room false key (ht.bucket i) ∧
        q = ⟨ht.brk, key.copy, some v⟩ ∧
        Becomes ht ht' (Function.update ht.bucket i (q :: ht.bucket i)) ∧ Puts ht ht' i q := by
  obtain ⟨ret, ht₁, hdo, hnodes⟩ :=
    doHashInsert_nodes (calcHash key) ⟨ht.brk, key.copy, some v⟩ ht.alloc.2 (none : Option φ)
  have hins : hashInsert key (some v) ht false none = some (ret, ht₁, []) := by
    simp only [hashInsert, htype, guard, if_true, makePair_eq, hdo]
    split <;> rfl
  by_cases hroom : ∃ i, bucketOf key = some i ∧ Room false key (ht.bucket i)
  · obtain ⟨i, hi, hr⟩ := hroom
    obtain ⟨ht', hins', hb⟩ := h.hashInsert_room hv htype hi hr (v := v) rfl none
    obtain ⟨hret, rfl⟩ : ret = 1 ∧ ht₁ = ht' := by
      have := Option.some.inj (hins.symm.trans hins')
      exact ⟨congrArg Prod.fst this, congrArg (·.2.1) this⟩
    subst hret
    obtain ⟨-, hputs⟩ := hnodes.resolve_left (by simp)
    have hnone : pairUnder key (ht.bucket i) = none := (hr.resolve_left (by simp)).1
    have hdrop : dropUnder key.copy (ht.bucket i) = ht.bucket i :=
      KeySame.drop_of_lookup_eq_none ((pairUnder_copy hv _).trans hnone)
    simp only [hdrop] at hb
    obtain ⟨-, hidx⟩ := bucketOf_eq_some.mp hi
    obtain ⟨a, ha, hn⟩ := hputs.nodes
    rw [hidx, Int.toNat_natCast] at hn
    exact .inr ⟨ht₁, i, _, hins, hi, hr, rfl, hb,
      ⟨a, le_of_lt ha, hn⟩, le_trans (Nat.le_succ _) hputs.brk⟩
  · have hno : ∀ i, bucketOf key = some i → ¬ Room false key (ht.bucket i) :=
      fun i hi hr => hroom ⟨i, hi, hr⟩
    obtain ⟨ht', hins', hb⟩ := h.hashInsert_refused hv htype hno v none
    obtain ⟨hret, rfl⟩ : ret = 0 ∧ ht₁ = ht' := by
      have := Option.some.inj (hins.symm.trans hins')
      exact ⟨congrArg Prod.fst this, congrArg (·.2.1) this⟩
    subst hret
    obtain ⟨-, hkeep⟩ := hnodes.resolve_right (by simp)
    exact .inl ⟨ht₁, hins, hno, hb, hkeep.nodes, le_trans (Nat.le_succ _) hkeep.brk⟩

theorem hashDelete_removes (h : ht.WF) (hi : bucketOf key = some i)
    (hp : pairUnder key (ht.bucket i) = some p) (freeFn : Option φ) :
    ∃ ht', hashDelete (calcHash key) key ht freeFn = (1, ht', destroyPair p freeFn) ∧
      Becomes ht ht' (Function.update ht.bucket i (dropUnder key (ht.bucket i))) ∧
      Removes ht ht' i p := by
  obtain ⟨ht', hdel, hb⟩ := h.hashDelete_present hi hp freeFn
  refine ⟨ht', hdel, hb, ?_⟩
  obtain ⟨hav, hidx⟩ := bucketOf_eq_some.mp hi
  obtain ⟨list, hl⟩ := exists_list_of_pairUnder hp
  have hfind : list.find (keyPairCmp key) = some p := by
    rw [find_keyPairCmp (h.lists i list hl).2, hp]
  have hset : hashDelete (calcHash key) key ht freeFn =
      (1, ht.setTable i (some (list.delete (some p) none).2.1), destroyPair p freeFn) := by
    rw [hidx] at hav ⊢
    simp [hashDelete, hav, hl, hfind]
  obtain rfl : _ = ht' := congrArg (·.2.1) (hset.symm.trans hdel)
  exact removes_setTable hl p

theorem defHashIterErase_removes (h : ht.WF) {it it' : HashIter ν} {freed : Freed φ ν}
    (he : defHashIterErase it ht = some (it', ht', freed)) :
    (ht' = ht ∧ freed = []) ∨
      ∃ i p, p ∈ ht.bucket i ∧ freed = destroyPair p ht.eraseFn ∧ Removes ht ht' i p ∧
        Becomes ht ht' (Function.update ht.bucket i (dropUnder p.key (ht.bucket i))) := by
  rcases h.defHashIterErase_eq_some he with hsame | ⟨i, list, p, hl, hp, hfreed, rfl⟩
  · exact .inl hsame
  · exact .inr ⟨i, p, hp, hfreed, removes_setTable hl p, h.becomes_delete hl hp⟩

/-- An erase through an iterator that is still on its pair. -/
theorem defHashIterErase_ahead (h : ht.WF) (ha : Ahead ht it (p :: ps)) :
    ∃ it' ht' i, defHashIterErase it ht = some (it', ht', destroyPair p ht.eraseFn) ∧
      p ∈ ht.bucket i ∧ Removes ht ht' i p ∧
      Becomes ht ht' (Function.update ht.bucket i (dropUnder p.key (ht.bucket i))) ∧ Ahead ht' it' ps := by
  obtain ⟨it', hnext, ha'⟩ := h.iterNext_ahead ha
  have hnot := h.not_mem_ahead ha
  cases ha with
  | @on i n list pre suf e p hin hl hents hp hptr hdata hu hcursor =>
    have hst := (h.lists i list hl).2
    have hok : cursorOk it ht = true := by
      rw [cursorOk, h.maxHashSize, hcursor]
      simp only [decide_eq_true_eq]
      omega
    have hinfo : list.iterInfo it = some (some p) := by
      rw [← hp]
      exact MclList.iterInfo_of_pos hents hst.nodup hdata hptr
    have hrem := removes_setTable hl p
    have hmem : p ∈ ht.bucket i := by
      rw [bucket_split hl hents hp]
      simp
    refine ⟨it', _, i, ?_, hmem, hrem, h.becomes_delete hl hmem, ha'.removes_behind hrem hnot⟩
    simp [defHashIterErase, hok, hcursor, hl, hinfo, hnext]

end WF
end Hash
end Mcl
