import Mcl.Util.HashCode

/-! The strings, keys and pairs of a table in memory. -/
namespace Mcl.HashCode
open Mcl.Library Mcl.Library.HProp ListBlocks StringCode

variable {ν φ : Type}

/-- The object that `_key_data` points to. -/
def dataAt (keyData : Addr) : HashKey → HProp (Cell ν φ)
  | .int i => pts keyData (.int i)
  | .str s => strAt keyData s

def keyAt (keyp keyData : Addr) (key : HashKey) : HProp (Cell ν φ) :=
  pts keyp (.hashKey key.type keyData) * dataAt keyData key

/-- The table holds the only reference to a string key. -/
def Unshared : HashKey → Prop
  | .int _ => True
  | .str s => s.ref = 1

/-- A stored pair with its own key. -/
def pairAt (pairp : Addr) (p : HashPair ν) : HProp (Cell ν φ) :=
  fact (Unshared p.key) * ⨆ keyp, ⨆ keyData, pts pairp (.hashPair keyp p.val) * keyAt keyp keyData p.key

theorem pairAt_intro {pairp keyp keyData : Addr} {p : HashPair ν} (hkey : Unshared p.key) :
    pts pairp (.hashPair keyp p.val) * keyAt keyp keyData p.key ≤ (pairAt pairp p : HProp (Cell ν φ)) := by
  refine le_trans ?_ (le_fact_mul hkey)
  refine le_trans (le_iSup (fun keyData => pts pairp (.hashPair keyp p.val) * keyAt keyp keyData p.key) keyData) ?_
  exact le_iSup (fun keyp => ⨆ keyData, pts pairp (.hashPair keyp p.val) * keyAt keyp keyData p.key) keyp

/-- The blocks of a key's data. -/
def dataBlocks : DataType → ℕ
  | .str => 2
  | _ => 1

theorem dataAt_sized (keyData : Addr) (key : HashKey) :
    Sized (dataAt keyData key : HProp (Cell ν φ)) (dataBlocks key.type) := by
  cases key with
  | int i => exact Sized.pts _ _
  | str s => exact strAt_sized _ _

theorem pairAt_sized (pairp : Addr) (p : HashPair ν) :
    Sized (pairAt pairp p : HProp (Cell ν φ)) (2 + dataBlocks p.key.type) := by
  refine Sized.fact_mul fun _ => Sized.iSup fun keyp => Sized.iSup fun keyData => ?_
  rw [Nat.add_assoc 1 1]
  exact (Sized.pts _ _).mul ((Sized.pts _ _).mul (dataAt_sized _ _))

theorem pairAt_owns (pairp : Addr) (p : HashPair ν) : Owns (pairAt pairp p : HProp (Cell ν φ)) pairp :=
  (Owns.iSup fun _ => Owns.iSup fun _ => (Owns.pts _ _).mul_left).mul_right

variable {strp strp' keyData keyData' : Addr} {s s' : MclString} {key key' : HashKey} {p q : HashPair ν}

/-! Keys. -/

theorem readInt_reads {a : Addr} {i : BitVec 32} : Reads (pts a (.int i) : HProp (Cell ν φ)) (readInt a) i :=
  (Reads.load a (Cell.int i)).bind Reads.pure

theorem readKey_reads {a : Addr} : Reads (keyAt a keyData key : HProp (Cell ν φ)) (readKey a) (key.type, keyData) :=
  (Reads.load a (Cell.hashKey key.type keyData)).left.bind Reads.pure

theorem calHashStr_reads (hs : s.Valid) :
    Reads (strAt strp s : HProp (Cell ν φ)) (calHashStr strp) (Mcl.calHashStr s) := by
  have hlen : s.len.toInt ≤ s.ptr.length := by
    have hterm := (List.getElem?_eq_some_iff.mp hs.term).1
    have hnonneg := hs.nonneg
    omega
  refine readString_reads.bind ?_
  rw [if_pos hlen]
  exact Reads.pure

theorem calcHash_reads (hkey : key.Valid) :
    Reads (dataAt keyData key : HProp (Cell ν φ)) (calcHash keyData key.type) (Mcl.calcHash key) := by
  cases key with
  | int i => exact Gives.bind (v := i) readInt_reads Reads.pure
  | str s => exact Gives.bind (v := Mcl.calHashStr s) (calHashStr_reads hkey) Reads.pure

theorem keyCmp_reads {key1 key2 : Addr} (hkey : key.Valid) (hkey' : key'.Valid) :
    Reads (keyAt key1 keyData key * keyAt key2 keyData' key' : HProp (Cell ν φ)) (keyCmp key1 key2)
      (Mcl.keyCmp key key') := by
  refine readKey_reads.left.bind (readKey_reads.right.bind ?_)
  cases key with
  | int i =>
    cases key' with
    | int j => exact readInt_reads.right.left.bind (readInt_reads.right.right.bind Reads.pure)
    | str s' => exact Reads.pure
  | str s =>
    cases key' with
    | int j => exact Reads.pure
    | str s' =>
      have hcmp : Reads (strAt keyData s * strAt keyData' s' : HProp (Cell ν φ)) (StringCode.mclStringCmp keyData keyData')
          (Mcl.mclStringCmp s s') := mclStringCmp_reads hkey hkey'
      have hdata : Reads (keyAt key1 keyData (.str s) * keyAt key2 keyData' (.str s') : HProp (Cell ν φ))
          (StringCode.mclStringCmp keyData keyData') (Mcl.mclStringCmp s s') := by
        rw [keyAt, keyAt, mul_mul_mul_comm]
        exact hcmp.right
      exact hdata.bind Reads.pure

theorem freeHashKey_spec {keyp : Addr} (hkey : Unshared key) :
    Spec (keyAt keyp keyData key : HProp (Cell ν φ)) (freeHashKey keyp) fun _ => 1 := by
  refine readKey_reads.call ?_
  rw [keyAt, mul_comm]
  cases key with
  | int i => exact Spec.free_bind (Spec.free _ _)
  | str s =>
    refine Spec.call (mclStringFree_spec hkey) fun _ => ?_
    rw [one_mul]
    exact Spec.free _ _

/-! Pairs. -/

theorem readPair_reads {a keyp : Addr} {val : Option ν} :
    Reads (pts a (.hashPair keyp val) : HProp (Cell ν φ)) (readPair a) (keyp, val) :=
  (Reads.load _ _).bind Reads.pure

/-- A program that reads a pair through its key. -/
theorem Reads.pair {α : Type} {pairp : Addr} {F : HProp (Cell ν φ)} {c : MclM ν φ α} {v : α}
    (h : ∀ keyp keyData, Reads (pts pairp (.hashPair keyp p.val) * keyAt keyp keyData p.key * F) c v) :
    Reads (pairAt pairp p * F) c v := by
  rw [pairAt, mul_assoc]
  exact Reads.fact_mul fun _ => Reads.iSup_mul fun keyp => Reads.iSup_mul fun keyData => h keyp keyData

theorem keyPairCmp_reads {keyp pairp : Addr} (hkey : key.Valid) (hp : p.key.Valid) :
    Reads (pairAt pairp p * keyAt keyp keyData key : HProp (Cell ν φ)) (keyPairCmp keyp pairp)
      (Mcl.keyPairCmp key p) := by
  refine Reads.pair fun keyp' keyData' => readPair_reads.left.left.bind ?_
  rw [mul_assoc, mul_comm (keyAt keyp' keyData' p.key)]
  exact (keyCmp_reads hkey hp).right

theorem pairPairCmp_reads {pairp pairp' : Addr} (hp : p.key.Valid) (hq : q.key.Valid) :
    Reads (pairAt pairp p * pairAt pairp' q : HProp (Cell ν φ)) (pairPairCmp pairp pairp')
      (Mcl.pairPairCmp p q) := by
  refine Reads.pair fun keyp keyData => readPair_reads.left.left.bind ?_
  rw [mul_comm]
  refine Reads.pair fun keyp' keyData' => readPair_reads.left.left.bind ?_
  rw [mul_mul_mul_comm, mul_comm (keyAt keyp' keyData' q.key)]
  exact (keyCmp_reads hp hq).right

theorem makeKeyData_spec (hkey : key.Valid) : Spec (dataAt keyData key : HProp (Cell ν φ))
    (makeKeyData keyData key.type) fun r => dataAt r key.copy * dataAt keyData key := by
  cases key with
  | int i =>
    refine readInt_reads.call ?_
    have halloc := (Spec.alloc (.int i)).frame (pts keyData (.int i) : HProp (Cell ν φ))
    rwa [one_mul] at halloc
  | str s => exact mclStringCopy_spec hkey

theorem copy_unshared (key : HashKey) : Unshared key.copy := by cases key <;> trivial

theorem makePair_spec (hkey : key.Valid) (val : ν) (addr : Addr) : Spec (dataAt keyData key : HProp (Cell ν φ))
    (makePair keyData key.type val) fun pairp => pairAt pairp ⟨addr, key.copy, some val⟩ * dataAt keyData key := by
  refine Spec.alloc_bind fun pairp => Spec.alloc_bind fun keyp => ?_
  refine Spec.of_eq (P := dataAt keyData key * (pts keyp (.hashKey key.type 0) * pts pairp (.hashPair 0 none)))
    (by ac_rfl) ?_
  refine Spec.call (makeKeyData_spec hkey) fun keyData' => ?_
  rw [mul_comm, mul_assoc]
  refine Spec.store_bind ?_
  rw [mul_left_comm]
  refine Spec.store_bind (Spec.pure ?_)
  have hkeyAt : pts keyp (.hashKey key.type keyData') * dataAt keyData' key.copy =
      (keyAt keyp keyData' key.copy : HProp (Cell ν φ)) := by rw [keyAt, HashKey.copy_type]
  rw [← mul_assoc (pts keyp _), hkeyAt, ← mul_assoc]
  exact mul_le_mul_left (pairAt_intro (p := ⟨addr, key.copy, some val⟩) (copy_unshared key)) _

theorem destroyPair_spec {pairp : Addr} (freeFn : Option φ) : Spec (pairAt pairp p : HProp (Cell ν φ))
    (destroyPair pairp freeFn) fun freed => fact (freed = Mcl.destroyPair p freeFn) := by
  refine Spec.fact_mul fun hkey => Spec.exists_pre fun keyp => Spec.exists_pre fun keyData => ?_
  refine readPair_reads.left.call ?_
  rw [mul_comm]
  refine Spec.call (freeHashKey_spec hkey) fun _ => ?_
  rw [one_mul]
  refine (Spec.free _ _).bind fun _ => ?_
  have hret := Spec.ret (P := (1 : HProp (Cell ν φ))) (r := callFree freeFn p.val) (p := fun freed =>
    freed = Mcl.destroyPair p freeFn) rfl
  simpa only [mul_one] using hret

end Mcl.HashCode
