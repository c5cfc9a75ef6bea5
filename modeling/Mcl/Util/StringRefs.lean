import Mcl.Library.Runs
import Mcl.Util.StringCode

/-! References to strings over whole runs: a string is in memory exactly as long as it has an owner. -/
namespace Mcl.StringCode
open Mcl.Library Mcl.Library.HProp
open HeapM (fault)

variable {ν φ : Type}

/-- What clients do with strings, which are numbered in the order they are made in. -/
inductive StrOp where
  | alloc (strp : List Byte) (len : ℤ)
  | copy (src : ℕ)
  | ref (str : ℕ)
  | deref (str : ℕ)
  | cmp (one another : ℕ)

/-- A string and the number of those that own it, none once it is gone. -/
structure Owned where
  str : MclString
  owners : ℕ

def live (strs : List Owned) (i : ℕ) : Option Owned := strs[i]?.filter fun o => 0 < o.owners

/-- Clients that use a string only while one of them owns it, and less than 2^31 of them. -/
def strStep (strs : List Owned) : StrOp → Option (Option ℤ × List Owned)
  | .alloc strp len =>
    if 0 ≤ len ∧ len < 2 ^ 31 ∧ len ≤ strp.length then some (none, strs ++ [⟨Mcl.mclStringAlloc strp len, 1⟩])
    else none
  | .copy src => do
    let o ← live strs src
    some (none, strs ++ [⟨Mcl.mclStringCopy o.str, 1⟩])
  | .ref str => do
    let o ← live strs str
    if o.owners + 1 < 2 ^ 31 then some (none, strs.set str { o with owners := o.owners + 1 }) else none
  | .deref str => do
    let o ← live strs str
    some (none, strs.set str { o with owners := o.owners - 1 })
  | .cmp one another => do
    let o ← live strs one
    let o' ← live strs another
    some (some (Mcl.mclStringCmp o.str o'.str), strs)

def strClients : Machine (List Owned) StrOp (Option ℤ) := ⟨[], strStep⟩

/-- The calls, with the pointer to each string. -/
def execStr (ptrs : List Addr) : StrOp → MclM ν φ (Option ℤ × List Addr)
  | .alloc strp len => do
    let a ← mclStringAlloc strp len
    pure (none, ptrs ++ [a])
  | .copy src =>
    match ptrs[src]? with
    | none => fault
    | some a => do
      let b ← mclStringCopy a
      pure (none, ptrs ++ [b])
  | .ref str =>
    match ptrs[str]? with
    | none => fault
    | some a => do
      mclStringRef a
      pure (none, ptrs)
  | .deref str =>
    match ptrs[str]? with
    | none => fault
    | some a => do
      mclStringDeref a
      pure (none, ptrs)
  | .cmp one another =>
    match ptrs[one]? with
    | none => fault
    | some a =>
      match ptrs[another]? with
      | none => fault
      | some b => do
        let r ← mclStringCmp a b
        pure (some r, ptrs)

/-- The blocks of a string with its owners counted in `_ref`, and no block when there is none. -/
def ownedAt (x : Addr × Owned) : HProp (Cell ν φ) :=
  if x.2.owners = 0 then 1 else strAt x.1 { x.2.str with ref := x.2.owners }

def strsAt (strs : List Owned) (ptrs : List Addr) : HProp (Cell ν φ) :=
  ⨆ xs : List (Addr × Owned), fact (xs.map Prod.fst = ptrs ∧ xs.map Prod.snd = strs) * (xs.map ownedAt).prod

variable {strs strs' : List Owned} {ptrs : List Addr} {i : ℕ} {o : Owned} {xs : List (Addr × Owned)}

theorem live_eq_some (hl : live strs i = some o) : strs[i]? = some o ∧ 0 < o.owners := by
  obtain ⟨hget, hpos⟩ := Option.filter_eq_some_iff.mp hl
  exact ⟨hget, of_decide_eq_true hpos⟩

theorem strsAt_intro : (xs.map ownedAt).prod ≤ (strsAt (xs.map Prod.snd) (xs.map Prod.fst) : HProp (Cell ν φ)) :=
  le_iSup_of_le xs (le_fact_mul ⟨rfl, rfl⟩)

theorem ownedAt_live {a : Addr} (hpos : 0 < o.owners) :
    (ownedAt (a, o) : HProp (Cell ν φ)) = strAt a { o.str with ref := o.owners } := if_neg (Nat.ne_of_gt hpos)

/-- One string that has an owner, and the others. -/
def splitAt (strs : List Owned) (ptrs : List Addr) (i : ℕ) (o : Owned)
    (x : Addr × List (Addr × Owned) × List (Addr × Owned)) : HProp (Cell ν φ) :=
  fact (ptrs[i]? = some x.1 ∧ x.2.1.length = i ∧ (x.2.1 ++ (x.1, o) :: x.2.2).map Prod.fst = ptrs ∧
      (x.2.1 ++ (x.1, o) :: x.2.2).map Prod.snd = strs) *
    (strAt x.1 { o.str with ref := o.owners } * ((x.2.1 ++ x.2.2).map ownedAt).prod)

theorem strsAt_le_split (hl : live strs i = some o) :
    (strsAt strs ptrs : HProp (Cell ν φ)) ≤ ⨆ x, splitAt strs ptrs i o x := by
  obtain ⟨hget, hpos⟩ := live_eq_some hl
  intro h hh
  obtain ⟨xs, hxs⟩ := mem_iSup.mp hh
  obtain ⟨⟨rfl, rfl⟩, hblocks⟩ := mem_fact_mul.mp hxs
  rw [List.getElem?_map] at hget
  obtain ⟨⟨a, o⟩, hx, rfl⟩ := Option.map_eq_some_iff.mp hget
  obtain ⟨hlt, heq⟩ := List.getElem?_eq_some_iff.mp hx
  have hsplit : xs.take i ++ (a, o) :: xs.drop (i + 1) = xs := by
    rw [← heq, ← List.drop_eq_getElem_cons hlt, List.take_append_drop]
  have hptr : (xs.map Prod.fst)[i]? = some a := by rw [List.getElem?_map, hx]; rfl
  refine mem_iSup.mpr ⟨(a, xs.take i, xs.drop (i + 1)), mem_fact_mul.mpr ⟨⟨hptr, ?_, ?_, ?_⟩, ?_⟩⟩
  · exact List.length_take_of_le (Nat.le_of_lt hlt)
  · rw [hsplit]
  · rw [hsplit]
  · rwa [← ownedAt_live hpos, ← prod_split, hsplit]

theorem strsAt_live (hl : live strs i = some o) {α : Type} {k : Addr → MclM ν φ α} {S : α → HProp (Cell ν φ)}
    (hk : ∀ a pre suf, (pre ++ (a, o) :: suf).map Prod.fst = ptrs → (pre ++ (a, o) :: suf).map Prod.snd = strs →
      pre.length = i → Spec (strAt a { o.str with ref := o.owners } * ((pre ++ suf).map ownedAt).prod) (k a) S) :
    Spec (strsAt strs ptrs) (match ptrs[i]? with
      | none => fault
      | some a => k a) S := by
  refine Spec.pre (strsAt_le_split hl) (Spec.exists_pre fun x => Spec.fact_mul fun hx => ?_)
  obtain ⟨hptr, hlen, hptrs, hstrs⟩ := hx
  rw [hptr]
  exact hk x.1 x.2.1 x.2.2 hptrs hstrs hlen

theorem str_change {c : Addr → MclM ν φ Unit} {o' : Owned} (hl : live strs i = some o)
    (hc : ∀ a, Spec (strAt a { o.str with ref := o.owners }) (c a) fun _ => ownedAt (a, o')) :
    Spec (strsAt strs ptrs) (match ptrs[i]? with
      | none => fault
      | some a => do
        c a
        pure ((none : Option ℤ), ptrs)) fun x => fact (x.1 = none) * strsAt (strs.set i o') x.2 := by
  refine strsAt_live hl fun a pre suf hptrs hstrs hlen => Spec.call (hc a) fun _ => Spec.pure ?_
  have hset : (pre ++ (a, o') :: suf).map Prod.snd = strs.set i o' := by
    rw [← hstrs, ← hlen, List.map_append, List.map_append, List.map_cons, List.map_cons,
      ← List.length_map (f := Prod.snd), List.set_append_right _ _ (le_refl _), Nat.sub_self, List.set_cons_zero]
  have hsame : (pre ++ (a, o') :: suf).map Prod.fst = ptrs := by
    rw [← hptrs, List.map_append, List.map_append, List.map_cons, List.map_cons]
  rw [← prod_split, ← hset, ← hsame]
  exact le_trans strsAt_intro (le_fact_mul rfl)

theorem strsAt_append {b : Addr} : ownedAt (b, o) * strsAt strs ptrs ≤
    (strsAt (strs ++ [o]) (ptrs ++ [b]) : HProp (Cell ν φ)) := by
  rw [mul_comm]
  rintro h ⟨h₁, h₂, hd, rfl, hstrs, hnew⟩
  obtain ⟨xs, hxs⟩ := mem_iSup.mp hstrs
  obtain ⟨⟨rfl, rfl⟩, hblocks⟩ := mem_fact_mul.mp hxs
  refine mem_iSup.mpr ⟨xs ++ [(b, o)], mem_fact_mul.mpr ⟨⟨by simp, by simp⟩, ?_⟩⟩
  rw [List.map_append, List.prod_append, List.map_singleton, List.prod_singleton]
  exact ⟨h₁, h₂, hd, rfl, hblocks, hnew⟩

theorem mclStringRef_spec {a : Addr} {s : MclString} {n : ℕ} (hn : n + 1 < 2 ^ 31) :
    Spec (strAt a { s with ref := n } : HProp (Cell ν φ)) (mclStringRef a) fun _ => ownedAt (a, ⟨s, n + 1⟩) := by
  rw [ownedAt_live (Nat.succ_pos n)]
  refine Spec.exists_pre fun lenp => Spec.load_bind ?_
  change Spec _ (toInt ((n : ℤ) + 1) >>= _) _
  rw [toInt_pure (by omega) (by omega), pure_bind]
  exact (Spec.frame (Spec.store a _ _) _).post fun _ => le_iSup_of_le lenp (le_refl _)

theorem mclStringDeref_spec {a : Addr} {s : MclString} {n : ℕ} (hpos : 0 < n) (hn : n < 2 ^ 31) :
    Spec (strAt a { s with ref := n } : HProp (Cell ν φ)) (mclStringDeref a) fun _ => ownedAt (a, ⟨s, n - 1⟩) := by
  obtain ⟨n, rfl⟩ := Nat.exists_eq_add_one_of_ne_zero (Nat.ne_of_gt hpos)
  cases n with
  | zero => exact mclStringFree_spec rfl
  | succ n =>
    rw [ownedAt_live (show 0 < n + 1 + 1 - 1 by omega)]
    refine Spec.exists_pre fun lenp => Spec.load_bind ?_
    have href : ((n + 1 + 1 : ℕ) : ℤ) - 1 = (n + 1 : ℕ) := by omega
    change Spec _ (toInt (((n + 1 + 1 : ℕ) : ℤ) - 1) >>= _) _
    rw [href, toInt_pure (by omega) (by omega), pure_bind]
    refine Spec.store_bind ?_
    rw [if_neg (by omega)]
    exact Spec.pure (le_iSup_of_le lenp (le_refl _))

theorem strAt_le_strsAt {a : Addr} {pre suf : List (Addr × Owned)} (hpos : 0 < o.owners)
    (hptrs : (pre ++ (a, o) :: suf).map Prod.fst = ptrs) (hstrs : (pre ++ (a, o) :: suf).map Prod.snd = strs) :
    strAt a { o.str with ref := o.owners } * ((pre ++ suf).map ownedAt).prod ≤ (strsAt strs ptrs : HProp (Cell ν φ)) := by
  rw [← ownedAt_live hpos, ← prod_split, ← hptrs, ← hstrs]
  exact strsAt_intro

theorem strAt_new {b : Addr} {s : MclString} (hs : s.ref = 1) :
    strAt b s * strsAt strs ptrs ≤ (strsAt (strs ++ [⟨s, 1⟩]) (ptrs ++ [b]) : HProp (Cell ν φ)) := by
  have hb : (strAt b s : HProp (Cell ν φ)) = ownedAt (b, ⟨s, 1⟩) := by
    rw [ownedAt_live Nat.one_pos]
    exact congrArg (strAt b) (congrArg (MclString.mk s.len · s.ptr) hs)
  rw [hb]
  exact strsAt_append

/-- One place of a list, or another one. -/
theorem mem_of_getElem?_ne {ε : Type} {pre suf : List ε} {x y : ε} {j : ℕ} (hj : (pre ++ x :: suf)[j]? = some y)
    (hne : j ≠ pre.length) : y ∈ pre ++ suf := by
  rcases Nat.lt_or_gt_of_ne hne with hlt | hgt
  · rw [List.getElem?_append_left hlt] at hj
    exact List.mem_append_left _ (List.mem_of_getElem? hj)
  · rw [List.getElem?_append_right (Nat.le_of_lt hgt)] at hj
    obtain ⟨d, hd⟩ := Nat.exists_eq_add_one_of_ne_zero (Nat.sub_ne_zero_of_lt hgt)
    rw [hd, List.getElem?_cons_succ] at hj
    exact List.mem_append_right _ (List.mem_of_getElem? hj)

theorem mclStringCmp_self {a : Addr} {s : MclString} (hs : s.Valid) :
    Reads (strAt a s : HProp (Cell ν φ)) (mclStringCmp a a) (Mcl.mclStringCmp s s) := by
  have hnul := List.mem_of_getElem? hs.term
  refine Gives.iSup fun _ => (Reads.load _ _).left.bind ((Reads.load _ _).left.bind ?_)
  simp only [strcmpIn_eq hnul hnul]
  exact Reads.pure

def Good (strs : List Owned) : Prop := ∀ o ∈ strs, o.str.Valid ∧ o.owners < 2 ^ 31

theorem Good.concat (hgood : Good strs) {s : MclString} (hvalid : s.Valid) : Good (strs ++ [⟨s, 1⟩]) := by
  intro o ho
  rcases List.mem_append.mp ho with ho | ho
  · exact hgood o ho
  · rw [List.mem_singleton.mp ho]
    exact ⟨hvalid, show 1 < 2 ^ 31 by decide⟩

/-- The owners of a string change, its bytes do not. -/
theorem Good.set (hgood : Good strs) (hl : live strs i = some o) {n : ℕ} (h31 : n < 2 ^ 31) :
    Good (strs.set i { o with owners := n }) := by
  intro o' ho'
  rcases List.mem_or_eq_of_mem_set ho' with ho' | rfl
  · exact hgood o' ho'
  · exact ⟨(hgood o (List.mem_of_getElem? (live_eq_some hl).1)).1, h31⟩

theorem str_copy (hgood : Good strs) (hl : live strs i = some o) :
    Spec (strsAt strs ptrs : HProp (Cell ν φ)) (execStr ptrs (.copy i)) fun x =>
      fact (x.1 = none) * strsAt (strs ++ [⟨Mcl.mclStringCopy o.str, 1⟩]) x.2 := by
  obtain ⟨hget, hpos⟩ := live_eq_some hl
  have hvalid := (hgood o (List.mem_of_getElem? hget)).1
  refine strsAt_live hl fun a pre suf hptrs hstrs _ => ?_
  refine Spec.call (mclStringCopy_spec ⟨hvalid.nonneg, hvalid.term⟩) fun b => Spec.pure ?_
  rw [mul_assoc]
  refine le_trans (mul_le_mul_right (strAt_le_strsAt hpos hptrs hstrs) _) ?_
  exact le_trans (strAt_new rfl) (le_fact_mul rfl)

theorem str_cmp (hgood : Good strs) {j : ℕ} {o' : Owned} (hl : live strs i = some o) (hl' : live strs j = some o') :
    Spec (strsAt strs ptrs : HProp (Cell ν φ)) (execStr ptrs (.cmp i j)) fun x =>
      fact (x.1 = some (Mcl.mclStringCmp o.str o'.str)) * strsAt strs x.2 := by
  obtain ⟨hget, hpos⟩ := live_eq_some hl
  obtain ⟨hget', hpos'⟩ := live_eq_some hl'
  have hvalid := (hgood o (List.mem_of_getElem? hget)).1
  have hvalid' := (hgood o' (List.mem_of_getElem? hget')).1
  refine strsAt_live hl fun a pre suf hptrs hstrs hlen => ?_
  have hxs : ∃ b, (pre ++ (a, o) :: suf)[j]? = some (b, o') := by
    rw [← hstrs, List.getElem?_map] at hget'
    obtain ⟨⟨b, o''⟩, hx, rfl⟩ := Option.map_eq_some_iff.mp hget'
    exact ⟨b, hx⟩
  obtain ⟨b, hb⟩ := hxs
  have hptr : ptrs[j]? = some b := by rw [← hptrs, List.getElem?_map, hb]; rfl
  have hback : strAt a { o.str with ref := o.owners } * ((pre ++ suf).map ownedAt).prod ≤
      (strsAt strs ptrs : HProp (Cell ν φ)) := strAt_le_strsAt hpos hptrs hstrs
  have hcmp : Reads (strAt a { o.str with ref := o.owners } * ((pre ++ suf).map ownedAt).prod : HProp (Cell ν φ))
      (mclStringCmp a b) (Mcl.mclStringCmp o.str o'.str) := by
    by_cases hj : j = i
    · subst hj
      obtain rfl := Option.some.inj (hl.symm.trans hl')
      rw [← hlen, List.getElem?_append_right (le_refl _), Nat.sub_self] at hb
      cases hb
      exact Reads.left (mclStringCmp_self (s := { o.str with ref := o.owners }) ⟨hvalid.nonneg, hvalid.term⟩)
    · obtain ⟨pre', suf', hsplit⟩ := List.append_of_mem (mem_of_getElem?_ne hb (by rwa [hlen]))
      rw [hsplit, prod_split, ownedAt_live hpos', ← mul_assoc]
      exact Reads.left (mclStringCmp_reads (s := { o.str with ref := o.owners }) ⟨hvalid.nonneg, hvalid.term⟩
        ⟨hvalid'.nonneg, hvalid'.term⟩)
  rw [hptr]
  exact hcmp.call (Spec.pure (le_trans hback (le_fact_mul rfl)))

theorem execStr_spec (hgood : Good strs) {op : StrOp} {ans : Option ℤ} (hs : strStep strs op = some (ans, strs')) :
    Good strs' ∧ ∀ ptrs, Spec (strsAt strs ptrs : HProp (Cell ν φ)) (execStr ptrs op) fun x =>
      fact (x.1 = ans) * strsAt strs' x.2 := by
  cases op with
  | alloc strp len =>
    obtain ⟨⟨h0, h31, hlen⟩, heq⟩ := Option.ite_none_right_eq_some.mp hs
    cases heq
    have hbuilt : (Mcl.mclStringAlloc strp len).Built := ⟨strp, len, h0, h31, hlen, rfl⟩
    refine ⟨hgood.concat hbuilt.valid, fun ptrs => ?_⟩
    have halloc := (mclStringAlloc_spec (ν := ν) (φ := φ) h0 hlen).frame (strsAt strs ptrs)
    rw [one_mul] at halloc
    exact halloc.bind fun a => Spec.pure (le_trans (strAt_new rfl) (le_fact_mul rfl))
  | copy src =>
    obtain ⟨o, hl, heq⟩ := Option.bind_eq_some_iff.mp hs
    cases heq
    have hvalid := (hgood o (List.mem_of_getElem? (live_eq_some hl).1)).1
    exact ⟨hgood.concat hvalid.copy_valid, fun ptrs => str_copy hgood hl⟩
  | ref str =>
    obtain ⟨o, hl, heq⟩ := Option.bind_eq_some_iff.mp hs
    obtain ⟨h31, heq⟩ := Option.ite_none_right_eq_some.mp heq
    cases heq
    exact ⟨hgood.set hl h31, fun ptrs => str_change hl fun a => mclStringRef_spec h31⟩
  | deref str =>
    obtain ⟨o, hl, heq⟩ := Option.bind_eq_some_iff.mp hs
    cases heq
    obtain ⟨hget, hpos⟩ := live_eq_some hl
    have h31 := (hgood o (List.mem_of_getElem? hget)).2
    exact ⟨hgood.set hl (by omega), fun ptrs => str_change hl fun a => mclStringDeref_spec hpos h31⟩
  | cmp one another =>
    obtain ⟨o, hl, heq⟩ := Option.bind_eq_some_iff.mp hs
    obtain ⟨o', hl', heq⟩ := Option.bind_eq_some_iff.mp heq
    cases heq
    exact ⟨hgood, fun ptrs => str_cmp hgood hl hl'⟩

theorem ownedAt_sized (x : Addr × Owned) :
    Sized (ownedAt x : HProp (Cell ν φ)) (if 0 < x.2.owners then 2 else 0) := by
  unfold ownedAt
  split
  · next hnone =>
    rw [if_neg (by omega)]
    exact Sized.one
  · next hsome =>
    rw [if_pos (Nat.pos_of_ne_zero hsome)]
    exact strAt_sized _ _

theorem strsAt_sized : Sized (strsAt strs ptrs : HProp (Cell ν φ)) (2 * strs.countP (0 < ·.owners)) := by
  refine Sized.iSup fun xs => Sized.fact_mul fun hxs => ?_
  have hsum : (xs.map fun x => if 0 < x.2.owners then 2 else 0).sum = 2 * strs.countP (0 < ·.owners) := by
    rw [← hxs.2]
    clear hxs
    induction xs with
    | nil => rfl
    | cons x xs ih =>
      rw [List.map_cons, List.sum_cons, ih, List.map_cons, List.countP_cons]
      split <;> simp_all
      omega
  rw [← hsum]
  exact Sized.prod_sum fun x _ => ownedAt_sized x

/-- What is in memory for a string that has an owner. -/
theorem strsAt_lookup (hl : live strs i = some o) {h : Heap (Cell ν φ)} {F : HProp (Cell ν φ)}
    (hh : h ∈ strsAt strs ptrs * F) :
    ∃ a lenp, ptrs[i]? = some a ∧ h.lookup a = some (.string lenp o.owners o.str.ptr) ∧
      h.lookup lenp = some (.len o.str.len) := by
  obtain ⟨x, hx⟩ := mem_iSup_mul.mp (mul_le_mul_left (strsAt_le_split hl) F hh)
  rw [splitAt, mul_assoc, mem_fact_mul, mul_assoc] at hx
  obtain ⟨⟨hptr, -⟩, hx⟩ := hx
  obtain ⟨lenp, hx⟩ := mem_iSup_mul.mp hx
  rw [mul_assoc] at hx
  refine ⟨x.1, lenp, hptr, lookup_pts hx, ?_⟩
  rw [mul_left_comm] at hx
  exact lookup_pts hx

/-- Wherever `malloc` places its blocks: the calls run and answer as the clients expect, every string
that has an owner is in memory with its owners counted and its bytes as they were made, no other block
is left or touched. -/
theorem strClients_run {ops : List StrOp} {hist : List (StrOp × Option ℤ)} (hrun : strClients.run ops = some (hist, strs))
    (malloc : Malloc (Cell ν φ)) (m : Memory (Cell ν φ)) :
    ∃ ptrs m', HeapM.calls execStr [] ops malloc m = some ((hist.map Prod.snd, ptrs), m') ∧
      (∀ i o, live strs i = some o → ∃ a lenp, ptrs[i]? = some a ∧
        m'.blocks.lookup a = some (.string lenp o.owners o.str.ptr) ∧ m'.blocks.lookup lenp = some (.len o.str.len)) ∧
      m'.blocks.keys.card = m.blocks.keys.card + 2 * strs.countP (0 < ·.owners) ∧
      ∀ a ∈ m.blocks, m'.blocks.lookup a = m.blocks.lookup a := by
  have hgood : Good [] := fun o ho => absurd ho List.not_mem_nil
  have hstep : ∀ strs op ans strs', Good strs → strClients.step strs op = some (ans, strs') → Good strs' ∧
      ∀ ptrs, Spec (strsAt strs ptrs : HProp (Cell ν φ)) (execStr ptrs op) fun x =>
        fact (x.1 = ans) * strsAt strs' x.2 := fun _ _ _ _ hg hs => execStr_spec hg hs
  have hcalls := Spec.runFrom hstep hgood hrun []
  have hm : m.blocks ∈ strsAt [] [] * ({m.blocks} : HProp (Cell ν φ)) := by
    have hnil : (1 : HProp (Cell ν φ)) ≤ strsAt [] [] := le_iSup_of_le [] (le_fact_mul ⟨rfl, rfl⟩)
    refine mul_le_mul_left hnil _ ?_
    rw [one_mul]
    rfl
  obtain ⟨⟨answers, ptrs⟩, m', hexec, hm'⟩ := hcalls malloc {m.blocks} m hm
  rw [mul_assoc, mem_fact_mul] at hm'
  obtain ⟨rfl, hm'⟩ := hm'
  refine ⟨ptrs, m', hexec, fun i o hl => strsAt_lookup hl hm', ?_, fun a ha => lookup_frame hm' ha⟩
  rw [(strsAt_sized.mul (Sized.single m.blocks)) _ hm', Nat.add_comm]

/-- A string shared by two owners, its copy, and a string that is gone. -/
theorem strClients_run_three : ∃ hist strs ptrs, ∃ m' : Memory (Cell ℕ Unit),
    strClients.run [.alloc [97, 98] 2, .ref 0, .copy 0, .alloc [] 0, .cmp 0 1, .deref 0, .deref 2] = some (hist, strs) ∧
      strs.countP (0 < ·.owners) = 2 ∧
      HeapM.calls execStr [] [.alloc [97, 98] 2, .ref 0, .copy 0, .alloc [] 0, .cmp 0 1, .deref 0, .deref 2]
        (Malloc.behind _) ⟨∅, 0⟩ = some ((hist.map Prod.snd, ptrs), m') ∧
      m'.blocks.keys.card = 4 := by
  obtain ⟨hist, strs, hrun, htwo⟩ := strClients.exists_of_run
    [.alloc [97, 98] 2, .ref 0, .copy 0, .alloc [] 0, .cmp 0 1, .deref 0, .deref 2]
    (fun r => r.2.countP (0 < ·.owners) = 2) (by decide +kernel)
  obtain ⟨ptrs, m', hexec, -, hcard, -⟩ := strClients_run (ν := ℕ) (φ := Unit) hrun (Malloc.behind _) ⟨∅, 0⟩
  rw [show strs.countP (0 < ·.owners) = 2 from htwo] at hcard
  exact ⟨hist, strs, ptrs, m', hrun, htwo, hexec, hcard.trans (Nat.zero_add 4)⟩

end Mcl.StringCode
