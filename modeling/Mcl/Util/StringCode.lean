import Mcl.Util.Blocks

/-! `mcl_string.c` on memory. `none` is a run that C does not define. -/
namespace Mcl.StringCode
open Mcl.Library Mcl.Library.HProp
open HeapM (load store free fault)

variable {ν φ : Type}

/-- Signed arithmetic that overflows is not defined. -/
def toInt (x : ℤ) : MclM ν φ ℤ := if -2 ^ 31 ≤ x ∧ x < 2 ^ 31 then pure x else fault

/-- `memcpy` reads `len` bytes, as many as a negative `len` stands for as a `size_t`. -/
def mclStringAlloc (strp : List Byte) (len : ℤ) : MclM ν φ Addr := do
  if 0 ≤ len ∧ len ≤ strp.length then do
    let retp ← HeapM.alloc (.string 0 0 [])
    let lenp ← HeapM.alloc (.len (BitVec.ofInt 32 len))
    store retp (.string lenp 1 (strp.take len.toNat ++ [0]))
    pure retp
  else fault

def readString (strp : Addr) : MclM ν φ MclString := do
  match ← load strp with
  | .string lenp ref ptr =>
    match ← load lenp with
    | .len len => pure ⟨len, ref, ptr⟩
    | _ => fault
  | _ => fault

def mclStringCopy (src : Addr) : MclM ν φ Addr := do
  let s ← readString src
  mclStringAlloc s.ptr s.len.toInt

def mclStringRef (strp : Addr) : MclM ν φ Unit := do
  match ← load strp with
  | .string lenp ref ptr => do
    let ref ← toInt (ref + 1)
    store strp (.string lenp ref ptr)
  | _ => fault

def mclStringFree (strp : Addr) : MclM ν φ Unit := do
  match ← load strp with
  | .string lenp ref ptr => do
    let ref ← toInt (ref - 1)
    store strp (.string lenp ref ptr)
    if ref = 0 then do
      free lenp
      free strp
    else pure ()
  | _ => fault

def mclStringDeref (strp : Addr) : MclM ν φ Unit := mclStringFree strp

/-- `strcmp` within two buffers: `none` where it runs out of one. -/
def strcmpIn : List Byte → List Byte → Option ℤ
  | a :: as, b :: bs => if a = 0 ∨ a ≠ b then some ((a.toNat : ℤ) - b.toNat) else strcmpIn as bs
  | _, _ => none

def mclStringCmp (one another : Addr) : MclM ν φ ℤ := do
  match ← load one, ← load another with
  | .string _ _ oneStr, .string _ _ anotherStr =>
    match strcmpIn oneStr anotherStr with
    | some r => pure r
    | none => fault
  | _, _ => fault

/-! The specifications. -/

variable {strp strp' : Addr} {s s' : MclString}

/-- A string is two blocks, its length apart from the rest. -/
def strAt (strp : Addr) (s : MclString) : HProp (Cell ν φ) :=
  ⨆ lenp, pts strp (.string lenp s.ref s.ptr) * pts lenp (.len s.len)

theorem strAt_sized (strp : Addr) (s : MclString) : Sized (strAt strp s : HProp (Cell ν φ)) 2 :=
  Sized.iSup fun _ => (Sized.pts _ _).mul (Sized.pts _ _)

theorem readString_reads : Reads (strAt strp s : HProp (Cell ν φ)) (readString strp) s :=
  Gives.iSup fun _ => (Reads.load _ _).left.bind ((Reads.load _ _).right.bind Reads.pure)

theorem mclStringAlloc_spec {bytes : List Byte} {len : ℤ} (h0 : 0 ≤ len) (hlen : len ≤ bytes.length) :
    Spec (1 : HProp (Cell ν φ)) (mclStringAlloc bytes len) fun strp => strAt strp (Mcl.mclStringAlloc bytes len) := by
  rw [mclStringAlloc, if_pos ⟨h0, hlen⟩]
  refine Spec.alloc_bind fun retp => Spec.alloc_bind fun lenp => ?_
  rw [mul_one, mul_comm]
  refine Spec.store_bind (Spec.pure ?_)
  exact le_iSup_of_le lenp (le_refl _)

theorem mclStringCopy_spec (hs : s.Valid) : Spec (strAt strp s : HProp (Cell ν φ)) (mclStringCopy strp) fun r =>
    strAt r (Mcl.mclStringCopy s) * strAt strp s := by
  have hlen : s.len.toInt ≤ s.ptr.length := by
    have hterm := (List.getElem?_eq_some_iff.mp hs.term).1
    have hnonneg := hs.nonneg
    omega
  refine readString_reads.call ?_
  have halloc := (mclStringAlloc_spec (ν := ν) (φ := φ) hs.nonneg hlen).frame (strAt strp s)
  rwa [one_mul] at halloc

theorem toInt_pure {x : ℤ} (hlo : -2 ^ 31 ≤ x) (hhi : x < 2 ^ 31) : (toInt x : MclM ν φ ℤ) = pure x :=
  if_pos ⟨hlo, hhi⟩

/-- The last reference. -/
theorem mclStringFree_spec (hs : s.ref = 1) : Spec (strAt strp s : HProp (Cell ν φ)) (mclStringFree strp) fun _ => 1 := by
  refine Spec.exists_pre fun lenp => Spec.load_bind ?_
  rw [hs]
  change Spec _ (toInt 0 >>= _) _
  rw [toInt_pure (by decide) (by decide), pure_bind]
  refine Spec.store_bind ?_
  change Spec _ (HeapM.free lenp >>= fun _ => HeapM.free strp) _
  rw [mul_comm]
  exact Spec.free_bind (Spec.free _ _)

theorem strcmpIn_eq {as bs : List Byte} (ha : 0 ∈ as) (hb : 0 ∈ bs) : strcmpIn as bs = some (strcmp as bs) := by
  induction as generalizing bs with
  | nil => exact absurd ha List.not_mem_nil
  | cons a as ih =>
    cases bs with
    | nil => exact absurd hb List.not_mem_nil
    | cons b bs =>
      rw [strcmpIn, strcmp]
      split
      · rfl
      · next hstop =>
        obtain ⟨ha0, rfl⟩ : a ≠ 0 ∧ a = b := by simpa [not_or] using hstop
        exact ih (List.mem_of_ne_of_mem (Ne.symm ha0) ha) (List.mem_of_ne_of_mem (Ne.symm ha0) hb)

theorem mclStringCmp_reads (hs : s.Valid) (hs' : s'.Valid) :
    Reads (strAt strp s * strAt strp' s' : HProp (Cell ν φ)) (mclStringCmp strp strp') (Mcl.mclStringCmp s s') := by
  have hcmp := strcmpIn_eq (List.mem_of_getElem? hs.term) (List.mem_of_getElem? hs'.term)
  refine Reads.iSup_mul fun _ => Reads.mul_iSup fun _ => ?_
  refine (Reads.load _ _).left.left.bind ((Reads.load _ _).left.right.bind ?_)
  simp only [hcmp]
  exact Reads.pure

end Mcl.StringCode
