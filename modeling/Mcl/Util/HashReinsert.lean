import Mcl.Util.HashRuns

/-! Inserting again, under its own key, the pointer that a lookup has found. -/
namespace Mcl
open Mcl.Library

variable {ν φ : Type} [DecidableEq ν]

/-- The insert returns 1, `d` is still found, and nothing that the table holds has been freed. -/
def Harmless (find : Hash ν φ → Option (Option ν)) (d : ν) (r : Option (ℤ × Hash ν φ × Freed φ ν)) : Prop :=
  ∃ ht' freed, r = some (1, ht', freed) ∧ find ht' = some (some d) ∧ (∀ f ∈ freed, f.2 ≠ d) ∧
    ∀ p ∈ ht'.pairs, ∀ f ∈ freed, p.val ≠ some f.2

namespace Hash

variable {ht ht' : Hash ν φ} {key : HashKey} {d : ν}

/-- The old pair is destroyed, and the new one takes its place. -/
theorem WF.hashInsert_again (h : ht.WF) (hv : key.Valid) (htype : ht.keyType = key.type)
    (hfind : hashFind (calcHash key) key ht = some d) (freeFn : Option φ) :
    ∃ ht', hashInsert key (some d) ht true freeFn = some (1, ht', callFree freeFn (some d)) ∧ ht'.WF ∧
      ht'.keyType = ht.keyType ∧ hashFind (calcHash key) key ht' = some d := by
  rw [h.hashFind_eq, Option.bind_eq_some_iff] at hfind
  obtain ⟨p, hs, hval⟩ := hfind
  obtain ⟨i, hi, hu⟩ := mem_stored hs
  have hroom : Room true key (ht.bucket i) := .inl ⟨by simp [hu], rfl⟩
  obtain ⟨ht', hins, hb⟩ := h.hashInsert_room hv htype hi hroom (v := d) rfl freeFn
  refine ⟨ht', ?_, hb.wf, hb.keyType, ?_⟩
  · rw [hins, hu, Option.elim_some, destroyPair, hval]
  · have hco : keyCmp key key.copy = true → bucketOf key = bucketOf key.copy := fun _ => (bucketOf_copy hv).symm
    have hstored := stored_put hb ((bucketOf_copy hv).trans hi) hco
    rw [if_pos (keyCmp_copy hv)] at hstored
    rw [hb.wf.hashFind_eq, hstored]
    rfl

/-- The free function is called with what the table still holds. -/
theorem WF.harmless_iff (h : ht.WF) (hv : key.Valid) (htype : ht.keyType = key.type)
    {find : Hash ν φ → Option (Option ν)}
    (hfinds : ∀ ht : Hash ν φ, ht.keyType = key.type → find ht = some (hashFind (calcHash key) key ht))
    (hfind : find ht = some (some d)) (freeFn : Option φ) :
    Harmless find d (hashInsert key (some d) ht true freeFn) ↔ freeFn = none := by
  rw [hfinds ht htype, Option.some.injEq] at hfind
  obtain ⟨ht', hins, hwf, htype', hfind'⟩ := h.hashInsert_again hv htype hfind freeFn
  constructor
  · rintro ⟨ht'', freed, hres, -, hlive, -⟩
    obtain ⟨-, hpair⟩ := Prod.mk.inj (Option.some.inj (hins.symm.trans hres))
    obtain ⟨-, rfl⟩ := Prod.mk.inj hpair
    cases freeFn with
    | none => rfl
    | some f => exact absurd rfl (hlive (f, d) (List.mem_singleton_self _))
  · rintro rfl
    refine ⟨ht', [], hins, ?_, fun f hf => absurd hf List.not_mem_nil, fun p hp f hf => absurd hf List.not_mem_nil⟩
    rw [hfinds ht' (htype'.trans htype), hfind']

end Hash

omit [DecidableEq ν] in
theorem mclIntHashFind_int (n : BitVec 32) (ht : Hash ν φ) (htype : ht.keyType = .int) :
    mclIntHashFind n ht = some (hashFind (calcHash (.int n)) (.int n) ht) := by
  simp [mclIntHashFind, guard, htype, calcHash]

omit [DecidableEq ν] in
theorem mclStrHashFind_str (str : MclString) (ht : Hash ν φ) (htype : ht.keyType = .str) :
    mclStrHashFind str ht = some (hashFind (calcHash (.str str)) (.str str) ht) := by
  simp [mclStrHashFind, guard, htype, calcHash]

/-- In every table that a run leads to, with int or string keys. -/
theorem hash_reinsert_iff {type : DataType} {ops : List (HashOp ν φ)} {hist : List (HashOp ν φ × Answer ν φ)}
    {ht : Hash ν φ} (hrun : (hashMachine type).run ops = some (hist, some ht)) (d : ν) (freeFn : Option φ) :
    (∀ n, mclIntHashFind n ht = some (some d) →
      (Harmless (mclIntHashFind n) d (mclIntHashInsert n (some d) ht freeFn) ↔ freeFn = none)) ∧
    ∀ str : MclString, str.Valid → mclStrHashFind str ht = some (some d) →
      (Harmless (mclStrHashFind str) d (mclStrHashInsert str (some d) ht freeFn) ↔ freeFn = none) := by
  have h := hashMachine_wf hrun
  constructor
  · intro n hfind
    have htype : ht.keyType = .int := by
      by_contra hne
      simp [mclIntHashFind, guard, hne] at hfind
    have hv : (HashKey.int n).Valid := trivial
    exact h.harmless_iff hv htype (mclIntHashFind_int n) hfind freeFn
  · intro str hv hfind
    have htype : ht.keyType = .str := by
      by_contra hne
      simp [mclStrHashFind, guard, hne] at hfind
    have hkey : (HashKey.str str).Valid := hv
    exact h.harmless_iff hkey htype (mclStrHashFind_str str) hfind freeFn

/-- A node is looked up, changed and inserted again, with the free function of the table's nodes. -/
theorem hash_reinsert_freed : ¬ ∀ (ops : List (HashOp ℕ Unit)) (hist : List (HashOp ℕ Unit × Answer ℕ Unit))
    (ht : Hash ℕ Unit) (n : BitVec 32) (d : ℕ) (freeFn : Option Unit),
    (hashMachine .int).run ops = some (hist, some ht) → mclIntHashFind n ht = some (some d) →
      Harmless (mclIntHashFind n) d (mclIntHashInsert n (some d) ht freeFn) := by
  intro hall
  obtain ⟨hist, s, hrun, hfound⟩ := (hashMachine .int).exists_of_run
    [.call (.insert ⟨.int 18, trivial⟩ (some 7) (some ()))]
    (fun r => r.2.any fun ht => mclIntHashFind 18 ht == some (some 7)) (by decide +kernel)
  obtain ⟨ht, rfl, hfind⟩ := (Option.any_eq_true _ _).mp hfound
  rw [beq_iff_eq] at hfind
  have htype : ht.keyType = .int := by
    by_contra hne
    simp [mclIntHashFind, guard, hne] at hfind
  have hharmless := hall _ hist ht 18 7 (some ()) hrun hfind
  have hv : (HashKey.int 18).Valid := trivial
  have hnone := ((hashMachine_wf hrun).harmless_iff hv htype (mclIntHashFind_int 18) hfind
    (some ())).mp hharmless
  exact absurd hnone (by simp)

/-- Without a free function. -/
theorem hash_reinsert_iff_none : ∃ ops hist, ∃ ht : Hash ℕ Unit, (hashMachine .int).run ops = some (hist, some ht) ∧
    Harmless (mclIntHashFind 18) 7 (mclIntHashInsert 18 (some 7) ht none) := by
  obtain ⟨hist, s, hrun, hfound⟩ := (hashMachine .int).exists_of_run
    [.call (.insert ⟨.int 18, trivial⟩ (some 7) (some ()))]
    (fun r => r.2.any fun ht => mclIntHashFind 18 ht == some (some 7)) (by decide +kernel)
  obtain ⟨ht, rfl, hfind⟩ := (Option.any_eq_true _ _).mp hfound
  exact ⟨_, hist, ht, hrun, ((hash_reinsert_iff hrun 7 none).1 18 (beq_iff_eq.mp hfind)).mpr rfl⟩

end Mcl
