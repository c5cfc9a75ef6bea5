import Mathlib.Data.List.Pairwise
import Mcl.Util.HashRuns

/-! Who owns the pointers that are passed to a hash table. -/
namespace Mcl
open Mcl.Library

variable {ν φ : Type} [DecidableEq ν]

abbrev HashHistory (ν φ : Type) := List (HashOp ν φ × Answer ν φ)

/-- The number of stored pairs that hold a pointer, each under its own key. -/
def copies (d : ν) (pairs : List (HashPair ν)) : ℕ := pairs.countP fun p => p.val = some d

/-- The free functions that are called with a pointer, in order. -/
def callsWith (d : ν) (freed : Freed φ ν) : List φ :=
  freed.filterMap fun (f, x) => if x = d then some f else none

/-- All calls of free functions in a history. -/
def allFreed (hist : HashHistory ν φ) : Freed φ ν := hist.flatMap fun (_, ans) => ans.freed

omit [DecidableEq ν] in
theorem allFreed_concat (hist : HashHistory ν φ) (op : HashOp ν φ) (ans : Answer ν φ) :
    allFreed (hist ++ [(op, ans)]) = allFreed hist ++ ans.freed := by
  simp [allFreed]

/-- An insert of the pointer returned `ret`. -/
def InsertReturned (hist : HashHistory ν φ) (d : ν) (ret : ℤ) : Prop :=
  ∃ op ans, (op, ans) ∈ hist ∧ op.data? = some d ∧ ans.ret = ret

/-- One call of the history took the pointer out of the table; its free function was `freeFn`, and
it called that function once with the pointer if it was not NULL. -/
def RemovedBy (type : DataType) (hist : HashHistory ν φ) (d : ν) (freeFn : Option φ) : Prop :=
  ∃ before op ans after ht s', hist = before ++ (op, ans) :: after ∧
    (hashMachine type).run (before.map Prod.fst) = some (before, some ht) ∧
    execHash (some ht) op = some (ans, s') ∧ op.freeFn ht = freeFn ∧
    copies d ht.pairs = 1 ∧ copies d (pairsOf s') = 0 ∧ callsWith d ans.freed = freeFn.toList

/-- Where a pointer that an insert stored can be. -/
inductive Fate (φ : Type) where
  | stored
  | removed (freeFn : Option φ)

def HasFate (type : DataType) (hist : HashHistory ν φ) (s : Option (Hash ν φ)) (d : ν) :
    Fate φ → Prop
  | .stored => copies d (pairsOf s) = 1 ∧ callsWith d (allFreed hist) = []
  | .removed freeFn => copies d (pairsOf s) = 0 ∧
    callsWith d (allFreed hist) = freeFn.toList ∧ RemovedBy type hist d freeFn

theorem HasFate.unique {type : DataType} {hist : HashHistory ν φ} {s : Option (Hash ν φ)} {d : ν}
    {a b : Fate φ} (ha : HasFate type hist s d a) (hb : HasFate type hist s d b) : a = b := by
  cases a with
  | stored =>
    cases b with
    | stored => rfl
    | removed fn => exact absurd (ha.1.symm.trans hb.1) (by decide)
  | removed fn =>
    cases b with
    | stored => exact absurd (hb.1.symm.trans ha.1) (by decide)
    | removed fn' =>
      have hfn : fn.toList = fn'.toList := ha.2.1.symm.trans hb.2.1
      cases fn <;> cases fn' <;> simp_all

/-! What one exchange of pairs means for one pointer. -/

theorem copies_perm {d : ν} {ps qs : List (HashPair ν)} (h : ps.Perm qs) : copies d ps = copies d qs :=
  h.countP_eq _

theorem copies_append (d : ν) (ps qs : List (HashPair ν)) :
    copies d (ps ++ qs) = copies d ps + copies d qs := List.countP_append

theorem callsWith_append (d : ν) (xs ys : Freed φ ν) :
    callsWith d (xs ++ ys) = callsWith d xs ++ callsWith d ys := List.filterMap_append

/-- A call releases a pointer as often as it removes it, if it has a free function at all. -/
theorem callsWith_destroyPair (d : ν) (freeFn : Option φ) (gone : List (HashPair ν)) :
    callsWith d (gone.flatMap (destroyPair · freeFn)) =
      (List.replicate (copies d gone) freeFn.toList).flatten := by
  induction gone with
  | nil => rfl
  | cons p gone ih =>
    have hcons : copies d (p :: gone) = copies d gone + if p.val = some d then 1 else 0 := by
      rw [copies, List.countP_cons]
      simp [copies]
    rw [List.flatMap_cons, callsWith_append, ih, hcons]
    change callsWith d (callFree freeFn p.val) ++ _ = _
    cases hv : p.val with
    | none => cases freeFn <;> simp [callFree, callsWith]
    | some x =>
      by_cases hx : x = d <;> cases freeFn <;> simp [callFree, callsWith, hx, List.replicate_succ]

variable {type : DataType} {hist : HashHistory ν φ} {ht : Hash ν φ} {s s' : Option (Hash ν φ)} {d : ν}
  {op : HashOp ν φ} {ans : Answer ν φ}

theorem RemovedBy.extend {freeFn : Option φ} (h : RemovedBy type hist d freeFn) :
    RemovedBy type (hist ++ [(op, ans)]) d freeFn := by
  obtain ⟨before, op', ans', after, ht, s', rfl, hrest⟩ := h
  exact ⟨before, op', ans', after ++ [(op, ans)], ht, s', by simp, hrest⟩

/-- The ledger of one pointer: it has a fate once an insert stored it, and none before. -/
structure Ledger (type : DataType) (hist : HashHistory ν φ) (s : Option (Hash ν φ)) (d : ν) : Prop where
  owned : InsertReturned hist d 1 → ∃ fate, HasFate type hist s d fate
  unowned : ¬ InsertReturned hist d 1 → copies d (pairsOf s) = 0 ∧ callsWith d (allFreed hist) = []

theorem HasFate.step {fate : Fate φ} (h : HasFate type hist (some ht) d fate)
    (hrun : (hashMachine type).run (hist.map Prod.fst) = some (hist, some ht))
    (hs : execHash (some ht) op = some (ans, s')) {gone added : List (HashPair ν)}
    (hex : Exchange ht op ans s' gone added) (hadded : copies d added = 0) :
    ∃ fate', HasFate type (hist ++ [(op, ans)]) s' d fate' := by
  obtain ⟨rest, hold, hnew⟩ := hex.pairs
  have hbefore := copies_perm (d := d) hold
  have hafter := copies_perm (d := d) hnew
  rw [copies_append] at hbefore hafter
  have hcalls := callsWith_destroyPair d (op.freeFn ht) gone
  rw [← hex.freed] at hcalls
  have hall : callsWith d (allFreed (hist ++ [(op, ans)])) =
      callsWith d (allFreed hist) ++ callsWith d ans.freed := by
    rw [allFreed_concat, callsWith_append]
  cases fate with
  | stored =>
    obtain ⟨hone, hnil⟩ := h
    rw [pairsOf_some] at hone
    rw [hnil, List.nil_append] at hall
    by_cases hgone : copies d gone = 0
    · rw [hgone] at hcalls
      exact ⟨.stored, by omega, hall.trans hcalls⟩
    · have hgone : copies d gone = 1 := by omega
      have hzero : copies d (pairsOf s') = 0 := by omega
      rw [hgone, List.replicate_one, List.flatten_singleton] at hcalls
      exact ⟨.removed (op.freeFn ht), hzero, hall.trans hcalls,
        hist, op, ans, [], ht, s', rfl, hrun, hs, rfl, hone, hzero, hcalls⟩
  | removed fn =>
    obtain ⟨hzero, hfn, hby⟩ := h
    rw [pairsOf_some] at hzero
    have hgone : copies d gone = 0 := by omega
    rw [hgone] at hcalls
    rw [hfn, hcalls] at hall
    exact ⟨.removed fn, by omega, by simpa using hall, hby.extend⟩

omit [DecidableEq ν] in
theorem insertReturned_concat {ret : ℤ} :
    InsertReturned (hist ++ [(op, ans)]) d ret ↔
      InsertReturned hist d ret ∨ (op.data? = some d ∧ ans.ret = ret) := by
  simp only [InsertReturned, List.mem_append, List.mem_singleton, Prod.mk.injEq]
  constructor
  · rintro ⟨op', ans', hmem | ⟨rfl, rfl⟩, h⟩
    · exact .inl ⟨op', ans', hmem, h⟩
    · exact .inr h
  · rintro (⟨op', ans', hmem, h⟩ | h)
    · exact ⟨op', ans', .inl hmem, h⟩
    · exact ⟨op, ans, .inr ⟨rfl, rfl⟩, h⟩

/-- The pointers passed to the inserts of a history. -/
def dataOf (hist : HashHistory ν φ) : List ν := hist.filterMap (·.1.data?)

omit [DecidableEq ν] in
theorem InsertReturned.mem_dataOf {ret : ℤ} (h : InsertReturned hist d ret) : d ∈ dataOf hist := by
  obtain ⟨op, ans, hmem, hd, -⟩ := h
  exact List.mem_filterMap.mpr ⟨_, hmem, hd⟩

omit [DecidableEq ν] in
theorem dataOf_concat_nodup (h : (dataOf (hist ++ [(op, ans)])).Nodup) :
    (dataOf hist).Nodup ∧ ∀ x, op.data? = some x → x ∉ dataOf hist := by
  unfold dataOf at h ⊢
  rw [List.filterMap_append] at h
  obtain ⟨hl, -, hd⟩ := List.nodup_append.mp h
  exact ⟨hl, fun x hx hm => hd x hm x (by simp [hx]) rfl⟩

/-- A call adds a pointer exactly when it is an insert of that pointer that returns 1. -/
theorem Exchange.copies_added {gone added : List (HashPair ν)} (hex : Exchange ht op ans s' gone added) :
    copies d added = if op.data? = some d ∧ ans.ret = 1 then 1 else 0 := by
  rcases hex.added with ⟨rfl, hret⟩ | ⟨p, rfl, hval, -, hret⟩
  · have hno : ¬ (op.data? = some d ∧ ans.ret = 1) := by
      rintro ⟨hd, h1⟩
      have h0 := hret (by simp [hd])
      omega
    rw [if_neg hno]
    rfl
  · simp [copies, List.countP_cons, hval, hret]

theorem Ledger.step (h : Ledger type hist (some ht) d)
    (hrun : (hashMachine type).run (hist.map Prod.fst) = some (hist, some ht))
    (hs : execHash (some ht) op = some (ans, s')) (hfresh : op.data? = some d → d ∉ dataOf hist) :
    Ledger type (hist ++ [(op, ans)]) s' d := by
  obtain ⟨gone, added, hex⟩ := execHash_exchange (hashMachine_wf hrun) hs
  have hadded := hex.copies_added (d := d)
  by_cases hins : InsertReturned hist d 1
  · have hnot : ¬ (op.data? = some d ∧ ans.ret = 1) := fun hc => hfresh hc.1 hins.mem_dataOf
    rw [if_neg hnot] at hadded
    obtain ⟨fate, hfate⟩ := h.owned hins
    exact ⟨fun _ => hfate.step hrun hs hex hadded,
      fun hc => absurd (insertReturned_concat.mpr (.inl hins)) hc⟩
  · obtain ⟨hzero, hnil⟩ := h.unowned hins
    obtain ⟨rest, hold, hnew⟩ := hex.pairs
    have hbefore := copies_perm (d := d) hold
    have hafter := copies_perm (d := d) hnew
    rw [copies_append] at hbefore hafter
    rw [pairsOf_some] at hzero
    have hcalls := callsWith_destroyPair d (op.freeFn ht) gone
    rw [← hex.freed, show copies d gone = 0 by omega] at hcalls
    have hall : callsWith d (allFreed (hist ++ [(op, ans)])) = [] := by
      rw [allFreed_concat, callsWith_append, hnil, hcalls]
      rfl
    by_cases hnow : op.data? = some d ∧ ans.ret = 1
    · rw [if_pos hnow] at hadded
      exact ⟨fun _ => ⟨.stored, by omega, hall⟩,
        fun hc => absurd (insertReturned_concat.mpr (.inr hnow)) hc⟩
    · rw [if_neg hnow] at hadded
      exact ⟨fun hc => ((insertReturned_concat.mp hc).elim hins hnow).elim, fun _ => ⟨by omega, hall⟩⟩

theorem ledger_of_reach (hr : (hashMachine type).Reach (fun _ _ => True) hist s)
    (hfresh : (dataOf hist).Nodup) (d : ν) : Ledger type hist s d := by
  induction hr with
  | init =>
    refine ⟨fun ⟨_, _, hmem, _⟩ => absurd hmem List.not_mem_nil, fun _ => ⟨?_, rfl⟩⟩
    have hnil : (Hash.new type : Hash ν φ).pairs = [] := Hash.pairs_clear rfl
    change copies d (Hash.new type : Hash ν φ).pairs = 0
    rw [hnil]
    rfl
  | @step hist s s' op ans hr _ hs ih =>
    obtain ⟨hnd, hnew⟩ := dataOf_concat_nodup hfresh
    cases s with
    | none => exact absurd hs (by simp [hashMachine, execHash])
    | some ht => exact (ih hnd).step hr.run hs (hnew d)

omit [DecidableEq ν] in
/-- A fresh pointer is inserted once. -/
theorem InsertReturned.unique {r r' : ℤ} (hfresh : (dataOf hist).Nodup)
    (h : InsertReturned hist d r) (h' : InsertReturned hist d r') : r = r' := by
  obtain ⟨op, ans, hmem, hd, rfl⟩ := h
  obtain ⟨op', ans', hmem', hd', rfl⟩ := h'
  by_contra hne
  have hpair := List.pairwise_filterMap.mp hfresh
  have hsymm : Std.Symm fun x y : HashOp ν φ × Answer ν φ =>
      ∀ b, x.1.data? = some b → ∀ b', y.1.data? = some b' → b ≠ b' :=
    ⟨fun _ _ hxy b hb b' hb' => (hxy b' hb' b hb).symm⟩
  have hdiff := hpair.forall hmem hmem' fun hc => hne (by rw [(Prod.mk.inj hc).2])
  exact hdiff d hd d hd' rfl

/-- At every moment of a run that inserts fresh pointers only, a pointer that was stored has
exactly one fate; a pointer that was refused is never released; a destroyed table is empty. -/
theorem hash_ownership {ops : List (HashOp ν φ)}
    (hrun : (hashMachine type).run ops = some (hist, s))
    (hfresh : (ops.filterMap HashOp.data?).Nodup) :
    (∀ d, InsertReturned hist d 1 → ∃! fate, HasFate type hist s d fate) ∧
      (∀ d, InsertReturned hist d 0 → callsWith d (allFreed hist) = []) ∧
      ∀ ht freeFn, s = some ht → (mclHashDestroy ht freeFn).1.pairs = [] := by
  have hdata : (dataOf hist).Nodup := by
    rw [← Machine.runFrom_history hrun, List.filterMap_map] at hfresh
    exact hfresh
  have hledger := ledger_of_reach (Machine.reach_of_run hrun) hdata
  refine ⟨fun d hins => ?_, fun d hins => ?_, ?_⟩
  · obtain ⟨fate, hfate⟩ := (hledger d).owned hins
    exact ⟨fate, hfate, fun fate' hfate' => hfate'.unique hfate⟩
  · refine ((hledger d).unowned fun h1 => ?_).2
    exact absurd (hins.unique hdata h1) (by decide)
  · rintro ht freeFn rfl
    obtain ⟨ht', hclean, hb⟩ := (hashMachine_wf hrun).mclHashClean_eq freeFn
    rw [mclHashDestroy, hclean]
    exact Hash.pairs_clear hb.bucket

/-- A replaced pointer, a pointer refused as its key is present, and the end of the table. -/
def ownOps : List (HashOp ℕ ℕ) :=
  [.call (.insert ⟨.int 0, trivial⟩ (some 10) none),
    .call (.insert ⟨.int 0, trivial⟩ (some 11) (some 1)),
    .call (.insertSafe ⟨.int 0, trivial⟩ (some 12)),
    .destroy (some 2)]

omit [DecidableEq ν] in
theorem insertReturned_of_mem {d : ν} {ret : ℤ} (h : (some d, ret) ∈ hist.map fun x => (x.1.data?, x.2.ret)) :
    InsertReturned hist d ret := by
  obtain ⟨⟨op, ans⟩, hmem, heq⟩ := List.mem_map.mp h
  obtain ⟨hd, hret⟩ := Prod.mk.inj heq
  exact ⟨op, ans, hmem, hd, hret⟩

theorem HasFate.of_call {d : ν} {fate : Fate φ} {f : φ} (h : HasFate type hist s d fate)
    (hcalls : callsWith d (allFreed hist) = [f]) : HasFate type hist s d (.removed (some f)) := by
  cases fate with
  | stored => exact absurd (h.2.symm.trans hcalls) (by simp)
  | removed freeFn =>
    have hfn : freeFn.toList = [f] := h.2.1.symm.trans hcalls
    obtain rfl : freeFn = some f := by cases freeFn <;> simp_all
    exact h

theorem hash_ownership_ownOps :
    ∃ hist s, (hashMachine .int).run ownOps = some (hist, s) ∧ HasFate .int hist s 10 (.removed (some 1)) ∧
      HasFate .int hist s 11 (.removed (some 2)) ∧ InsertReturned hist 12 0 ∧ callsWith 12 (allFreed hist) = [] := by
  obtain ⟨hist, s, hrun, hrets, hten, heleven⟩ := (hashMachine .int).exists_of_run ownOps (fun r =>
    (r.1.map fun x => (x.1.data?, x.2.ret)) = [(some 10, 1), (some 11, 1), (some 12, 0), (none, 0)] ∧
      callsWith 10 (allFreed r.1) = [1] ∧ callsWith 11 (allFreed r.1) = [2]) (by decide +kernel)
  obtain ⟨hstored, hrefused, -⟩ := hash_ownership hrun (by decide)
  obtain ⟨fate, hfate, -⟩ := hstored 10 (insertReturned_of_mem (by simp [hrets]))
  obtain ⟨fate', hfate', -⟩ := hstored 11 (insertReturned_of_mem (by simp [hrets]))
  have htwelve : InsertReturned hist 12 0 := insertReturned_of_mem (by simp [hrets])
  exact ⟨hist, s, hrun, hfate.of_call hten, hfate'.of_call heleven, htwelve, hrefused 12 htwelve⟩

end Mcl
