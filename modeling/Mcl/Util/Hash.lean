import Mathlib.Logic.Function.Basic
import Mcl.Util.HashFunction
import Mcl.Util.ListModel

/-! `mcl_hash.c`: an array of lists of pairs. A pair, its key and its key data are written when
they are made and only read afterwards, so a pointer to a pair is the pair together with its
address, and pointer equality is equality of pairs. `none` as a result is a failed assertion,
a read through an iterator whose pair is gone, or a read of the unset union member. -/
namespace Mcl

/-- `mcl_hash_pair`. -/
structure HashPair (ν : Type) where
  addr : Addr
  key : HashKey
  val : Option ν
  deriving DecidableEq, Repr

/-- `mcl_hash`, with the next address `malloc` hands out to it. -/
structure Hash (ν φ : Type) where
  tables : ℕ → Option (MclList (HashPair ν) φ)
  maxHashSize : ℕ
  keyType : DataType
  eraseFn : Option φ
  brk : Addr

variable {ν φ : Type}

namespace Hash

def setTable (ht : Hash ν φ) (i : ℕ) (list : Option (MclList (HashPair ν) φ)) : Hash ν φ :=
  { ht with tables := Function.update ht.tables i list }

/-- `malloc`. -/
def alloc (ht : Hash ν φ) : Addr × Hash ν φ := (ht.brk, { ht with brk := ht.brk + 1 })

end Hash

def availableHashType (type : DataType) : Bool := type = .int || type = .str

/-- What `mcl_hash_new` fills in. -/
def Hash.new (type : DataType) : Hash ν φ :=
  { tables := fun _ => none, maxHashSize := mclHashMaxSize, keyType := type, eraseFn := none, brk := 0 }

def mclHashNew (type : DataType) : Option (Hash ν φ) :=
  if availableHashType type then some (Hash.new type) else none

def mclIntHashNew : Option (Hash ν φ) := mclHashNew .int

def mclStrHashNew : Option (Hash ν φ) := mclHashNew .str

/-- `make_pair`: a string key is copied with `mcl_string_copy`. -/
def makePair (key : HashKey) (val : ν) (ht : Hash ν φ) : HashPair ν × Hash ν φ :=
  let (addr, ht) := ht.alloc
  let key := match key with
    | .int k => .int k
    | .str s => .str (mclStringCopy s)
  (⟨addr, key, some val⟩, ht)

/-- `destroy_pair`: what it frees besides the pair and its key. -/
def destroyPair (pair : HashPair ν) (freeFn : Option φ) : Freed φ ν := callFree freeFn pair.val

def pairPairCmp (pair1 pair2 : HashPair ν) : Bool := keyCmp pair1.key pair2.key

def keyPairCmp (key : HashKey) (pair : HashPair ν) : Bool := keyCmp key pair.key

/-- `mcl_list_insert(pair, list)` for the list at `i`, whose node takes the next address. -/
def insertInto (i : ℕ) (list : MclList (HashPair ν) φ) (pair : HashPair ν) (ht : Hash ν φ) :
    ℤ × Hash ν φ :=
  let (node, ht) := ht.alloc
  let (ret, list) := list.insert node (some pair)
  (ret, ht.setTable i list)

def doHashInsert [DecidableEq ν] (hash : ℤ) (pair : HashPair ν) (ht : Hash ν φ) (subFlg : Bool)
    (freeFn : Option φ) : ℤ × Hash ν φ × Freed φ ν :=
  if !availableHashValue hash then (0, ht, [])
  else
    let i := hash.toNat
    let list := (ht.tables i).getD .new
    let ht := ht.setTable i list
    match list.find (pairPairCmp pair) with
    | some pairFound =>
      if !subFlg then (0, ht, [])
      else
        let (_, list, _) := list.delete (some pairFound) none
        let freed := destroyPair pairFound freeFn
        let (ret, ht) := insertInto i list pair ht
        (ret, ht, freed)
    | none =>
      let (ret, ht) := insertInto i list pair ht
      (ret, ht, [])

def hashInsert [DecidableEq ν] (key : HashKey) (data : Option ν) (ht : Hash ν φ) (subFlg : Bool)
    (freeFn : Option φ) : Option (ℤ × Hash ν φ × Freed φ ν) :=
  match data with
  | none => some (0, ht, [])
  | some data => do
    guard (ht.keyType = key.type)
    let hash := calcHash key
    let (pair, ht) := makePair key data ht
    let (ret, ht, freed) := doHashInsert hash pair ht subFlg freeFn
    some (ret, ht, freed ++ if ret = 0 then destroyPair pair none else [])

def mclIntHashInsertSafe [DecidableEq ν] (key : BitVec 32) (data : Option ν) (ht : Hash ν φ) :
    Option (ℤ × Hash ν φ × Freed φ ν) :=
  hashInsert (.int key) data ht false none

def mclStrHashInsertSafe [DecidableEq ν] (key : MclString) (data : Option ν) (ht : Hash ν φ) :
    Option (ℤ × Hash ν φ × Freed φ ν) :=
  hashInsert (.str key) data ht false none

def mclIntHashInsert [DecidableEq ν] (key : BitVec 32) (data : Option ν) (ht : Hash ν φ)
    (freeFn : Option φ) : Option (ℤ × Hash ν φ × Freed φ ν) :=
  hashInsert (.int key) data ht true freeFn

def mclStrHashInsert [DecidableEq ν] (key : MclString) (data : Option ν) (ht : Hash ν φ)
    (freeFn : Option φ) : Option (ℤ × Hash ν φ × Freed φ ν) :=
  hashInsert (.str key) data ht true freeFn

def hashDelete [DecidableEq ν] (hash : ℤ) (htKey : HashKey) (ht : Hash ν φ) (freeFn : Option φ) :
    ℤ × Hash ν φ × Freed φ ν :=
  if !availableHashValue hash then (0, ht, [])
  else
    match ht.tables hash.toNat with
    | none => (0, ht, [])
    | some list =>
      match list.find (keyPairCmp htKey) with
      | some pairFound =>
        let (_, list, _) := list.delete (some pairFound) none
        (1, ht.setTable hash.toNat list, destroyPair pairFound freeFn)
      | none => (0, ht, [])

def mclIntHashDelete [DecidableEq ν] (key : BitVec 32) (ht : Hash ν φ) (freeFn : Option φ) :
    Option (ℤ × Hash ν φ × Freed φ ν) := do
  guard (ht.keyType = .int)
  some (hashDelete (calHashInt key).toInt (.int key) ht freeFn)

def mclStrHashDelete [DecidableEq ν] (key : MclString) (ht : Hash ν φ) (freeFn : Option φ) :
    Option (ℤ × Hash ν φ × Freed φ ν) := do
  guard (ht.keyType = .str)
  some (hashDelete (calHashStr key).toInt (.str key) ht freeFn)

def hashFind (hash : ℤ) (htKey : HashKey) (ht : Hash ν φ) : Option ν :=
  if !availableHashValue hash then none
  else
    match ht.tables hash.toNat with
    | none => none
    | some list => (list.find (keyPairCmp htKey)).bind (·.val)

def mclIntHashFind (key : BitVec 32) (ht : Hash ν φ) : Option (Option ν) := do
  guard (ht.keyType = .int)
  some (hashFind (calHashInt key).toInt (.int key) ht)

def mclStrHashFind (key : MclString) (ht : Hash ν φ) : Option (Option ν) := do
  guard (ht.keyType = .str)
  some (hashFind (calHashStr key).toInt (.str key) ht)

/-- The loop of `mcl_hash_clean` from bucket `i` on. `MCL_FOREACH` over a list visits its
elements in order. -/
def cleanLoop (freeFn : Option φ) : ℕ → ℕ → Hash ν φ → Hash ν φ × Freed φ ν
  | 0, _, ht => (ht, [])
  | n + 1, i, ht =>
    match ht.tables i with
    | none => cleanLoop freeFn n (i + 1) ht
    | some list =>
      let freed := list.elems.flatMap fun pair => pair.elim [] (destroyPair · freeFn)
      let (ht, rest) := cleanLoop freeFn n (i + 1) (ht.setTable i none)
      (ht, freed ++ rest)

def mclHashClean (ht : Hash ν φ) (freeFn : Option φ) : Hash ν φ × Freed φ ν :=
  cleanLoop freeFn ht.maxHashSize 0 ht

/-- `mcl_hash_destroy`; the table is the one whose memory is freed last. -/
def mclHashDestroy (ht : Hash ν φ) (freeFn : Option φ) : Hash ν φ × Freed φ ν :=
  mclHashClean ht freeFn

def mclHashCtrl (cmd : DsCtrlCmd) (data : Option φ) (ht : Hash ν φ) : ℤ × Hash ν φ :=
  match data with
  | none => (0, ht)
  | some freeFn =>
    match cmd with
    | .registEraseFn => (1, { ht with eraseFn := some freeFn })
    | .unregistEraseFn => (1, { ht with eraseFn := none })

/-! Iterators. `_ptr` and `_data` are the list node, the union holds the pair's key and value. -/

abbrev HashIter (ν : Type) := Iter Addr HashKey ν

def unsetIter (it : HashIter ν) : HashIter ν :=
  { it with ptr := none, data := none, u := .pair none none, cursor := -1 }

def setPair (it : HashIter ν) (pair : HashPair ν) : HashIter ν :=
  { it with u := .pair (some pair.key) pair.val }

/-- The loops that look for a non-empty list: `n` buckets from `i` on, `list` being the bucket
looked at before. When there is none the last bucket looked at is what remains in `list`. -/
def findList (ht : Hash ν φ) : ℕ → ℕ → Option (MclList (HashPair ν) φ) →
    ℕ × Option (MclList (HashPair ν) φ)
  | 0, i, list => (i, list)
  | n + 1, i, _ =>
    match ht.tables i with
    | some list => if list.size > 0 then (i, some list) else findList ht n (i + 1) (some list)
    | none => findList ht n (i + 1) none

/-- The end of `def_hash_iter_head` and `def_hash_iter_next`: go to the head of the list found. -/
def enterList (it : HashIter ν) (i : ℕ) (list : Option (MclList (HashPair ν) φ)) :
    Option (HashIter ν) :=
  match list with
  | none => some (unsetIter it)
  | some list => do
    let it := list.iterHead it
    match ← list.iterInfo it with
    | some pair => some { setPair it pair with cursor := i }
    | none => some (unsetIter it)

def defHashIterHead (it : HashIter ν) (ht : Hash ν φ) : Option (HashIter ν) :=
  let (i, list) := findList ht ht.maxHashSize 0 none
  enterList it i list

def defHashIterTail (it : HashIter ν) (ht : Hash ν φ) : Option (HashIter ν) :=
  defHashIterHead it ht

def cursorOk (it : HashIter ν) (ht : Hash ν φ) : Bool :=
  decide (0 ≤ it.cursor ∧ it.cursor < ht.maxHashSize)

def defHashIterNext (it : HashIter ν) (ht : Hash ν φ) : Option (HashIter ν) :=
  if !cursorOk it ht then some (unsetIter it)
  else
    let cursor := it.cursor.toNat
    match ht.tables cursor with
    | none => some (unsetIter it)
    | some list => do
      let it ← list.iterNext it
      if !it.isNull then
        match ← list.iterInfo it with
        | some pair => some (setPair it pair)
        | none => some (unsetIter it)
      else
        let (i, list) := findList ht (ht.maxHashSize - (cursor + 1)) (cursor + 1) none
        enterList (unsetIter it) i list

def defHashIterPrev (it : HashIter ν) (ht : Hash ν φ) : Option (HashIter ν) :=
  defHashIterNext it ht

def mclHashIterKey (iter : HashIter ν) : Option (Option HashKey) :=
  match iter.u with
  | .pair key _ => some key
  | .index _ => none

def mclHashIterVal (iter : HashIter ν) : Option (Option ν) :=
  match iter.u with
  | .pair _ val => some val
  | .index _ => none

/-- `def_hash_iter_erase`: the iterator moves on before its pair is removed. -/
def defHashIterErase [DecidableEq ν] (it : HashIter ν) (ht : Hash ν φ) :
    Option (HashIter ν × Hash ν φ × Freed φ ν) :=
  if !cursorOk it ht then some (unsetIter it, ht, [])
  else
    let cursor := it.cursor.toNat
    match ht.tables cursor with
    | none => some (unsetIter it, ht, [])
    | some list => do
      let pair ← list.iterInfo it
      let it ← defHashIterNext it ht
      match pair with
      | some pair =>
        let (_, list, _) := list.delete (some pair) none
        some (it, ht.setTable cursor list, destroyPair pair ht.eraseFn)
      | none => some (it, ht, [])

end Mcl
