import Mcl.Library.Runs
import Mcl.Util.ListRefinement

/-! Whole runs of `mcl_list.c` against a list that is nothing but its elements. -/
namespace Mcl.ListCode
open Mcl.Library

variable {α φ κ ν : Type}

/-- The calls that change a list, each with the arguments its caller chooses. -/
inductive ListOp (α φ : Type) where
  | insert (data : Option α)
  | insertTail (data : Option α)
  | delete (data : Option α) (freeFn : Option φ)
  | delCmp (data : Option α) (cmpFunc : ListCmpFunc α) (freeFn : Option φ)

def execList [DecidableEq α] (m : ListMem α φ) :
    ListOp α φ → Option ((ℤ × Freed φ α) × ListMem α φ)
  | .insert data => (mclListInsert data m).map fun (r, m) => ((r, []), m)
  | .insertTail data => (mclListInsertTail data m).map fun (r, m) => ((r, []), m)
  | .delete data freeFn => (mclListDelete data m freeFn).map fun (r, m, f) => ((r, f), m)
  | .delCmp data cmpFunc freeFn =>
    (mclListDelCmp data m cmpFunc freeFn).map fun (r, m, f) => ((r, f), m)

def listMachine [DecidableEq α] : Machine (ListMem α φ) (ListOp α φ) (ℤ × Freed φ α) :=
  ⟨mclListNew, execList⟩

/-- What `delete` (no comparison) and `del_cmp` look for. -/
def Matches (data : Option α) (cmpFunc : ListCmpFunc α) (x : Option α) : Prop :=
  x = data ∨ ∃ cmp, cmpFunc = some cmp ∧ cmp data x ≠ 0

instance [DecidableEq α] (data : Option α) (cmpFunc : ListCmpFunc α) (x : Option α) :
    Decidable (Matches data cmpFunc x) :=
  match cmpFunc with
  | none => decidable_of_iff (x = data) (by simp [Matches])
  | some cmp => decidable_of_iff (x = data ∨ cmp data x ≠ 0) (by simp [Matches])

/-- The abstract list of elements. -/
def removeFirst [DecidableEq α] (data : Option α) (cmpFunc : ListCmpFunc α) (freeFn : Option φ)
    (xs : List (Option α)) : (ℤ × Freed φ α) × List (Option α) :=
  match xs.find? fun x => Matches data cmpFunc x with
  | none => ((0, []), xs)
  | some x => ((1, callFree freeFn x), xs.eraseP fun x => Matches data cmpFunc x)

def execElems [DecidableEq α] (xs : List (Option α)) :
    ListOp α φ → (ℤ × Freed φ α) × List (Option α)
  | .insert data => if xs.length < mclListMaxSize then ((1, []), data :: xs) else ((0, []), xs)
  | .insertTail data =>
    if xs.length < mclListMaxSize then ((1, []), xs ++ [data]) else ((0, []), xs)
  | .delete data freeFn => removeFirst data none freeFn xs
  | .delCmp data cmpFunc freeFn => removeFirst data cmpFunc freeFn xs

def elemsMachine [DecidableEq α] : Machine (List (Option α)) (ListOp α φ) (ℤ × Freed φ α) :=
  ⟨[], fun xs op => some (execElems xs op)⟩

/-- The nodes met by following `link` until the sentinel comes back. -/
def ringWalk (link : ListHead → Ent) (m : ListMem α φ) : ℕ → Ent → Option (List Addr)
  | 0, _ => none
  | fuel + 1, e => do
    let h ← m.head e
    match link h with
    | .entries => some []
    | .node a => do
      let as ← ringWalk link m fuel (.node a)
      some (a :: as)

/-- The memory of a list that holds the elements `xs`. -/
structure Holds (m : ListMem α φ) (xs : List (Option α)) : Prop where
  nodes : ∃ ns : List Addr, ns.Nodup ∧ m.listSz = ns.length ∧ m.listSz ≤ mclListMaxSize ∧
    (∀ a, m.nodes a ≠ none ↔ a ∈ ns) ∧
    ringWalk (·.next) m (m.brk + 1) .entries = some ns ∧
    ringWalk (·.prev) m (m.brk + 1) .entries = some ns.reverse ∧
    ns.map m.datas = xs.map some
  foreach : ∀ it : ListIter Unit Unit, mclForeach it m = some xs
  foreachReverse : ∀ it : ListIter Unit Unit, mclForeachReverse it m = some xs.reverse

variable {m : ListMem α φ} {l : MclList α φ}

theorem rep_seam (h : Rep m l) {pre suf : List (ListEnt α)} (hl : l.ents = pre ++ suf) :
    m.links.next (lastPosOf pre) = some (posOf suf) ∧
      m.links.prev (posOf suf) = some (lastPosOf pre) :=
  h.ring.seam pre suf hl

theorem ringWalk_next (h : Rep m l) (pre suf : List (ListEnt α)) (fuel : ℕ)
    (hl : l.ents = pre ++ suf) (hfuel : suf.length < fuel) :
    ringWalk (·.next) m fuel (lastPosOf pre) = some (suf.map (·.addr)) := by
  induction suf generalizing pre fuel with
  | nil =>
    obtain ⟨fuel, rfl⟩ : ∃ k, fuel = k + 1 := ⟨fuel - 1, by simp at hfuel; omega⟩
    obtain ⟨hd, hh, hn⟩ := Option.map_eq_some_iff.mp (rep_seam h hl).1
    simp [ringWalk, hh, hn, posOf]
  | cons x suf ih =>
    obtain ⟨fuel, rfl⟩ : ∃ k, fuel = k + 1 := ⟨fuel - 1, by simp at hfuel; omega⟩
    obtain ⟨hd, hh, hn⟩ := Option.map_eq_some_iff.mp (rep_seam h hl).1
    have hrest := ih (pre ++ [x]) fuel (by simp [hl]) (by simp at hfuel; omega)
    rw [lastPosOf_concat] at hrest
    simp [ringWalk, hh, hn, posOf, hrest]

theorem ringWalk_prev (h : Rep m l) (pre suf : List (ListEnt α)) (fuel : ℕ)
    (hl : l.ents = pre.reverse ++ suf) (hfuel : pre.length < fuel) :
    ringWalk (·.prev) m fuel (posOf suf) = some (pre.map (·.addr)) := by
  induction pre generalizing suf fuel with
  | nil =>
    obtain ⟨fuel, rfl⟩ : ∃ k, fuel = k + 1 := ⟨fuel - 1, by simp at hfuel; omega⟩
    obtain ⟨hd, hh, hp⟩ := Option.map_eq_some_iff.mp (rep_seam h hl).2
    simp [ringWalk, hh, hp, lastPosOf]
  | cons x pre ih =>
    obtain ⟨fuel, rfl⟩ : ∃ k, fuel = k + 1 := ⟨fuel - 1, by simp at hfuel; omega⟩
    obtain ⟨hd, hh, hp⟩ := Option.map_eq_some_iff.mp (rep_seam h hl).2
    have hrest := ih (x :: suf) fuel (by simp [hl]) (by simp at hfuel; omega)
    rw [List.reverse_cons, lastPosOf_concat] at hp
    rw [show posOf (x :: suf) = .node x.addr from rfl] at hrest
    simp [ringWalk, hh, hp, hrest]

theorem holds_of_rep (h : Rep m l) (hsz : l.listSz = l.ents.length)
    (hmax : l.listSz ≤ mclListMaxSize) : Holds m l.elems := by
  have hfuel := h.length_le_brk
  refine ⟨⟨l.ents.map (·.addr), h.addrs_nodup, ?_, ?_, ?_, ?_, ?_, ?_⟩, mclForeach_rep h,
    mclForeachReverse_rep h⟩
  · rw [h.listSz, hsz, List.length_map]
  · rwa [h.listSz]
  · intro a
    constructor
    · exact fun ha => h.live a (by simpa [ListMem.datas] using ha)
    · intro ha hc
      obtain ⟨e, he, rfl⟩ := List.mem_map.mp ha
      have := h.data e he
      simp [ListMem.datas, hc] at this
  · exact ringWalk_next h [] l.ents _ rfl (by omega)
  · have := ringWalk_prev h l.ents.reverse [] (m.brk + 1) (by simp) (by simp; omega)
    rwa [List.map_reverse] at this
  · rw [MclList.elems, List.map_map, List.map_map]
    exact List.map_congr_left fun e he => h.data e he

/-! One call. -/

theorem delHit_eq_matches [DecidableEq α] (data : Option α) (cmpFunc : ListCmpFunc α)
    (x : Option α) : delHit data cmpFunc x = decide (Matches data cmpFunc x) := by
  rw [Bool.eq_iff_iff]
  cases cmpFunc with
  | none => simp [delHit, Matches]
  | some cmp => simp [delHit, Matches, or_comm]

theorem del_elems [DecidableEq α] (data : Option α) (cmpFunc : ListCmpFunc α) (freeFn : Option φ)
    (l : MclList α φ) :
    removeFirst data cmpFunc freeFn l.elems =
      (((l.del (delHit data cmpFunc) freeFn).1, (l.del (delHit data cmpFunc) freeFn).2.2),
        (l.del (delHit data cmpFunc) freeFn).2.1.elems) := by
  have hhit : (fun x => decide (Matches data cmpFunc x)) = delHit data cmpFunc :=
    funext fun x => (delHit_eq_matches data cmpFunc x).symm
  simp only [removeFirst, MclList.del, MclList.elems, hhit, List.find?_map]
  cases hf : l.ents.find? (delHit data cmpFunc ∘ (·.data)) with
  | none =>
    have hf' : l.ents.find? (fun x => delHit data cmpFunc x.data) = none := hf
    simp [hf']
  | some e =>
    have hf' : l.ents.find? (fun x => delHit data cmpFunc x.data) = some e := hf
    simp [hf', List.eraseP_map, Function.comp_def]

/-- The relation the runs of the code and of the abstract list stay in. -/
def Sim (m : ListMem α φ) (xs : List (Option α)) : Prop :=
  ∃ l : MclList α φ, Rep m l ∧ l.elems = xs ∧ l.listSz = l.ents.length ∧
    l.listSz ≤ mclListMaxSize

theorem sim_init : Sim (mclListNew : ListMem α φ) [] :=
  ⟨.new, mclListNew_rep, rfl, rfl, by simp [MclList.new, mclListMaxSize]⟩

theorem sim_del [DecidableEq α] {xs : List (Option α)} (h : Sim m xs) (data : Option α)
    (cmpFunc : ListCmpFunc α) (freeFn : Option φ) :
    ∃ m', listDel data m true cmpFunc freeFn =
        some ((removeFirst data cmpFunc freeFn xs).1.1, m',
          (removeFirst data cmpFunc freeFn xs).1.2) ∧
      Sim m' (removeFirst data cmpFunc freeFn xs).2 := by
  obtain ⟨l, hrep, rfl, hsz, hmax⟩ := h
  obtain ⟨m', hm', hrep'⟩ := listDel_rep hrep data true cmpFunc freeFn
  rw [del_elems]
  refine ⟨m', hm', _, hrep', rfl, ?_⟩
  simp only [if_true, MclList.del]
  cases hf : l.ents.find? (fun x => delHit data cmpFunc x.data) with
  | none => exact ⟨hsz, hmax⟩
  | some e =>
    have hlen := List.length_eraseP_of_mem (List.mem_of_find?_eq_some hf) (List.find?_some hf)
    have hpos : 0 < l.ents.length := List.length_pos_of_mem (List.mem_of_find?_eq_some hf)
    dsimp only
    rw [hlen]
    omega

theorem sim_step [DecidableEq α] (m : ListMem α φ) (xs : List (Option α)) (op : ListOp α φ)
    (h : Sim m xs) :
    ∃ r m' xs', execList m op = some (r, m') ∧ some (execElems xs op) = some (r, xs') ∧
      Sim m' xs' := by
  cases op with
  | insert data =>
    obtain ⟨l, hrep, rfl, hsz, hmax⟩ := h
    obtain ⟨m', hm', hrep'⟩ := mclListInsert_rep hrep data
    have hlen : l.listSz = l.elems.length := by rw [hsz, MclList.elems, List.length_map]
    by_cases hfull : l.listSz ≥ mclListMaxSize
    · simp only [MclList.insert, hfull, if_true] at hm' hrep'
      exact ⟨(0, []), m', l.elems, by simp [execList, hm'],
        by simp [execElems, ← hlen, hfull], l, hrep', rfl, hsz, hmax⟩
    · simp only [MclList.insert, hfull, if_false] at hm' hrep'
      exact ⟨(1, []), m', data :: l.elems, by simp [execList, hm'],
        by simp [execElems, ← hlen, Int.lt_of_not_ge hfull], _, hrep', rfl, by simp [hsz], by simp; omega⟩
  | insertTail data =>
    obtain ⟨l, hrep, rfl, hsz, hmax⟩ := h
    obtain ⟨m', hm', hrep'⟩ := mclListInsertTail_rep hrep data
    have hlen : l.listSz = l.elems.length := by rw [hsz, MclList.elems, List.length_map]
    by_cases hfull : l.listSz ≥ mclListMaxSize
    · simp only [MclList.insertTail, hfull, if_true] at hm' hrep'
      exact ⟨(0, []), m', l.elems, by simp [execList, hm'],
        by simp [execElems, ← hlen, hfull], l, hrep', rfl, hsz, hmax⟩
    · simp only [MclList.insertTail, hfull, if_false] at hm' hrep'
      exact ⟨(1, []), m', l.elems ++ [data], by simp [execList, hm'],
        by simp [execElems, ← hlen, Int.lt_of_not_ge hfull], _, hrep', by simp [MclList.elems],
        by simp [hsz], by simp; omega⟩
  | delete data freeFn =>
    obtain ⟨m', hm', hs⟩ := sim_del h data none freeFn
    exact ⟨(removeFirst data none freeFn xs).1, m', _, by simp [execList, mclListDelete, hm'], rfl, hs⟩
  | delCmp data cmpFunc freeFn =>
    obtain ⟨m', hm', hs⟩ := sim_del h data cmpFunc freeFn
    exact ⟨(removeFirst data cmpFunc freeFn xs).1, m', _, by simp [execList, mclListDelCmp, hm'], rfl, hs⟩

/-- Every run of the list code is defined, answers as the abstract list does, and ends in a
well-formed ring that holds the abstract list's elements. -/
theorem mclList_refines [DecidableEq α] (ops : List (ListOp α φ)) :
    ∃ hist m xs, listMachine.run ops = some (hist, m) ∧
      elemsMachine.run ops = some (hist, xs) ∧ Holds m xs := by
  obtain ⟨hist, m, xs, hm, hx, l, hrep, rfl, hsz, hmax⟩ :=
    Machine.run_simulation (M := listMachine) (N := elemsMachine) sim_init sim_step ops
  exact ⟨hist, m, l.elems, hm, hx, holds_of_rep hrep hsz hmax⟩

end Mcl.ListCode
