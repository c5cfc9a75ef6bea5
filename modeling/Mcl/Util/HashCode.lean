import Mcl.Util.HashRuns
import Mcl.Util.ListBlocks
import Mcl.Util.StringCode

/-! `mcl_hash.c` on memory. `none` is a run that C does not define, a failed assertion, or a walk that never
comes back to the sentinel. -/
namespace Mcl.HashCode
open Mcl.Library ListBlocks

variable {ν φ : Type}

open HeapM (load store free fault)

/-! Keys and pairs. -/

def readInt (p : Addr) : MclM ν φ (BitVec 32) := do
  match ← load p with
  | .int i => pure i
  | _ => fault

def readKey (key : Addr) : MclM ν φ (DataType × Addr) := do
  match ← load key with
  | .hashKey type keyData => pure (type, keyData)
  | _ => fault

def readPair (pair : Addr) : MclM ν φ (Addr × Option ν) := do
  match ← load pair with
  | .hashPair key val => pure (key, val)
  | _ => fault

/-- The loop of `cal_hash_str` reads `_len` bytes. -/
def calHashStr (strp : Addr) : MclM ν φ (BitVec 32) := do
  let s ← StringCode.readString strp
  if s.len.toInt ≤ s.ptr.length then pure (Mcl.calHashStr s) else fault

def calcHash (key : Addr) (type : DataType) : MclM ν φ ℤ :=
  match type with
  | .int => do
    let i ← readInt key
    pure (calHashInt i).toInt
  | .str => do
    let hash ← calHashStr key
    pure hash.toInt
  | _ => pure (-1)

def freeHashKey (key : Addr) : MclM ν φ Unit := do
  let (type, keyData) ← readKey key
  match type with
  | .int => do
    free keyData
    free key
  | .str => do
    StringCode.mclStringFree keyData
    free key
  | _ => free key

def keyCmp (key1 key2 : Addr) : MclM ν φ Bool := do
  let (type1, keyData1) ← readKey key1
  let (type2, keyData2) ← readKey key2
  if type1 ≠ type2 then pure false
  else
    match type1 with
    | .int => do
      let i ← readInt keyData1
      let j ← readInt keyData2
      pure (i == j)
    | .str => do
      let r ← StringCode.mclStringCmp keyData1 keyData2
      pure (r == 0)
    | _ => pure false

def pairPairCmp (pairData dstData : Addr) : MclM ν φ Bool := do
  let (key1, _) ← readPair pairData
  let (key2, _) ← readPair dstData
  keyCmp key1 key2

def keyPairCmp (keyData pairData : Addr) : MclM ν φ Bool := do
  let (dstKey, _) ← readPair pairData
  keyCmp keyData dstKey

/-- For any other type `make_pair` returns NULL, which its caller reads through. -/
def makeKeyData (key : Addr) (type : DataType) : MclM ν φ Addr :=
  match type with
  | .str => StringCode.mclStringCopy key
  | .int => do
    let i ← readInt key
    HeapM.alloc (.int i)
  | _ => fault

def makePair (key : Addr) (type : DataType) (val : ν) : MclM ν φ Addr := do
  let pair ← HeapM.alloc (.hashPair 0 none)
  let pairKey ← HeapM.alloc (.hashKey type 0)
  let keyData ← makeKeyData key type
  store pairKey (.hashKey type keyData)
  store pair (.hashPair pairKey (some val))
  pure pair

def destroyPair (pair : Addr) (freeFn : Option φ) : MclM ν φ (Freed φ ν) := do
  let (key, val) ← readPair pair
  freeHashKey key
  free pair
  pure (callFree freeFn val)

/-! The table. -/

def readHash (ht : Addr) : MclM ν φ (HashHead φ) := do
  match ← load ht with
  | .hash head => pure head
  | _ => fault

/-- `tables[i]`. -/
def readSlot (tables : Addr) (i : ℕ) : MclM ν φ (Option Addr) := do
  match ← load tables with
  | .tables size slots => if i < size then pure (slots i) else fault
  | _ => fault

def writeSlot (tables : Addr) (i : ℕ) (list : Option Addr) : MclM ν φ Unit := do
  match ← load tables with
  | .tables size slots =>
    if i < size then store tables (.tables size (Function.update slots i list)) else fault
  | _ => fault

/-- `mcl_hash_new`; `init_hash_tables` leaves NULL in every slot. -/
def mclHashNew (type : DataType) : MclM ν φ (Option Addr) :=
  if !availableHashType type then pure none
  else do
    let newHash ← HeapM.alloc (.hash ⟨0, 0, type, none⟩)
    let tables ← HeapM.alloc (.tables mclHashMaxSize fun _ => none)
    store newHash (.hash ⟨tables, mclHashMaxSize, type, none⟩)
    pure (some newHash)

/-- The list at `hash`, made if there is none. -/
def findIndex (tables : Addr) (hash : ℕ) : MclM ν φ Addr := do
  match ← readSlot tables hash with
  | some list => pure list
  | none => do
    let list ← mclListNew
    writeSlot tables hash (some list)
    pure list

/-- `do_hash_insert` in the list it has found. -/
def insertIn (list pair : Addr) (subFlg : Bool) (freeFn : Option φ) : MclM ν φ (ℤ × Freed φ ν) := do
  match ← mclListFind (pairPairCmp pair) list with
  | some pairFound =>
    if !subFlg then pure (0, [])
    else do
      let _ ← mclListDelete pairFound list
      let freed ← destroyPair pairFound freeFn
      let ret ← mclListInsert pair list
      pure (ret, freed)
  | none => do
    let ret ← mclListInsert pair list
    pure (ret, [])

def doHashInsert (hash : ℤ) (pair ht : Addr) (subFlg : Bool) (freeFn : Option φ) :
    MclM ν φ (ℤ × Freed φ ν) :=
  if !availableHashValue hash then pure (0, [])
  else do
    let head ← readHash ht
    let list ← findIndex head.tables hash.toNat
    insertIn list pair subFlg freeFn

def hashInsert (key : Addr) (keyType : DataType) (data : Option ν) (ht : Addr) (subFlg : Bool)
    (freeFn : Option φ) : MclM ν φ (ℤ × Freed φ ν) :=
  match data with
  | none => pure (0, [])
  | some data => do
    let head ← readHash ht
    if head.keyType ≠ keyType then fault
    else do
      let hash ← calcHash key keyType
      let pair ← makePair key keyType data
      let (ret, freed) ← doHashInsert hash pair ht subFlg freeFn
      if ret = 0 then do
        let freed' ← destroyPair pair none
        pure (ret, freed ++ freed')
      else pure (ret, freed)

def deleteIn (list htKey : Addr) (freeFn : Option φ) : MclM ν φ (ℤ × Freed φ ν) := do
  match ← mclListFind (keyPairCmp htKey) list with
  | some pairFound => do
    let _ ← mclListDelete pairFound list
    let freed ← destroyPair pairFound freeFn
    pure (1, freed)
  | none => pure (0, [])

def hashDelete (hash : ℤ) (htKey ht : Addr) (freeFn : Option φ) : MclM ν φ (ℤ × Freed φ ν) := do
  let head ← readHash ht
  if !availableHashValue hash then pure (0, [])
  else do
    match ← readSlot head.tables hash.toNat with
    | none => pure (0, [])
    | some list => deleteIn list htKey freeFn

def findIn (list htKey : Addr) : MclM ν φ (Option ν) := do
  match ← mclListFind (keyPairCmp htKey) list with
  | some pairFound => do
    let (_, val) ← readPair pairFound
    pure val
  | none => pure none

def hashFind (hash : ℤ) (htKey ht : Addr) : MclM ν φ (Option ν) := do
  let head ← readHash ht
  if !availableHashValue hash then pure none
  else do
    match ← readSlot head.tables hash.toNat with
    | none => pure none
    | some list => findIn list htKey

/-- The body of a function with an `int` parameter whose address it passes on. -/
def withInt {α : Type} (key : BitVec 32) (body : Addr → MclM ν φ α) : MclM ν φ α := do
  let keyp ← HeapM.alloc (.int key)
  let r ← body keyp
  free keyp
  pure r

/-- The part of a function behind its local `ht_key`. -/
def withHtKey {α : Type} (type : DataType) (keyData : Addr) (body : Addr → MclM ν φ α) : MclM ν φ α := do
  let htKey ← HeapM.alloc (.hashKey type keyData)
  let r ← body htKey
  free htKey
  pure r

/-- `assert(ht->_key_type == type)`. -/
def assertKeyType (ht : Addr) (type : DataType) : MclM ν φ Unit := do
  let head ← readHash ht
  if head.keyType = type then pure () else fault

def mclIntHashInsertSafe (key : BitVec 32) (data : Option ν) (ht : Addr) : MclM ν φ (ℤ × Freed φ ν) :=
  withInt key fun keyp => hashInsert keyp .int data ht false none

def mclStrHashInsertSafe (key : Addr) (data : Option ν) (ht : Addr) : MclM ν φ (ℤ × Freed φ ν) :=
  hashInsert key .str data ht false none

def mclIntHashInsert (key : BitVec 32) (data : Option ν) (ht : Addr) (freeFn : Option φ) :
    MclM ν φ (ℤ × Freed φ ν) :=
  withInt key fun keyp => hashInsert keyp .int data ht true freeFn

def mclStrHashInsert (key : Addr) (data : Option ν) (ht : Addr) (freeFn : Option φ) :
    MclM ν φ (ℤ × Freed φ ν) :=
  hashInsert key .str data ht true freeFn

def mclIntHashDelete (key : BitVec 32) (ht : Addr) (freeFn : Option φ) : MclM ν φ (ℤ × Freed φ ν) :=
  withInt key fun keyp => do
    assertKeyType ht .int
    withHtKey .int keyp fun htKey => hashDelete (calHashInt key).toInt htKey ht freeFn

def mclStrHashDelete (key ht : Addr) (freeFn : Option φ) : MclM ν φ (ℤ × Freed φ ν) := do
  assertKeyType ht .str
  let hash ← calHashStr key
  withHtKey .str key fun htKey => hashDelete hash.toInt htKey ht freeFn

def mclIntHashFind (key : BitVec 32) (ht : Addr) : MclM ν φ (Option ν) :=
  withInt key fun keyp => do
    assertKeyType ht .int
    withHtKey .int keyp fun htKey => hashFind (calHashInt key).toInt htKey ht

def mclStrHashFind (key ht : Addr) : MclM ν φ (Option ν) := do
  assertKeyType ht .str
  let hash ← calHashStr key
  withHtKey .str key fun htKey => hashFind hash.toInt htKey ht

/-- The `MCL_FOREACH` of `mcl_hash_clean` over one list. -/
def destroyPairs (freeFn : Option φ) (list : Addr) : ℕ → ListIter → MclM ν φ (Freed φ ν)
  | 0, _ => fault
  | fuel + 1, it =>
    if it.isNull then pure []
    else do
      match ← iterInfo it with
      | some pair => do
        let freed ← destroyPair pair freeFn
        let it ← iterNext it list
        let rest ← destroyPairs freeFn list fuel it
        pure (freed ++ rest)
      | none => do
        let it ← iterNext it list
        destroyPairs freeFn list fuel it

/-- The loop of `mcl_hash_clean`: `n` buckets from `i` on. -/
def cleanLoop (freeFn : Option φ) (tables : Addr) : ℕ → ℕ → MclM ν φ (Freed φ ν)
  | 0, _ => pure []
  | n + 1, i => do
    match ← readSlot tables i with
    | none => cleanLoop freeFn tables n (i + 1)
    | some list => do
      let fuel ← HeapM.blockCount
      let it ← iterHead .initializer list
      let freed ← destroyPairs freeFn list fuel it
      mclListDestroy list
      writeSlot tables i none
      let rest ← cleanLoop freeFn tables n (i + 1)
      pure (freed ++ rest)

def mclHashClean (ht : Addr) (freeFn : Option φ) : MclM ν φ (Freed φ ν) := do
  let head ← readHash ht
  cleanLoop freeFn head.tables head.maxHashSize 0

def mclHashDestroy (ht : Addr) (freeFn : Option φ) : MclM ν φ (Freed φ ν) := do
  let freed ← mclHashClean ht freeFn
  let head ← readHash ht
  free head.tables
  free ht
  pure freed

def mclHashCtrl (cmd : DsCtrlCmd) (data : Option φ) (ht : Addr) : MclM ν φ ℤ :=
  match data with
  | none => pure 0
  | some freeFn => do
    let head ← readHash ht
    match cmd with
    | .registEraseFn => do
      store ht (.hash { head with eraseFn := some freeFn })
      pure 1
    | .unregistEraseFn => do
      store ht (.hash { head with eraseFn := none })
      pure 1

end Mcl.HashCode
