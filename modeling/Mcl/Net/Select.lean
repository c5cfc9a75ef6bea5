import Mathlib.Data.Finset.Insert
import Mathlib.Data.Finset.Erase
import Mcl.Net.Event
import Mcl.Util.HashTraversal

/-! `mcl_select.c`: the tables, their descriptor sets, and adding and deleting an event. `none` as
a result is a failed assertion of `mcl_hash.c`. -/
namespace Mcl
open Mcl.Library

/-- `fd_set`. The macros check no descriptor against `FD_SETSIZE`, so the set may hold any. -/
abbrev FdSet := Finset (BitVec 32)

def fdSet (fd : BitVec 32) (fds : FdSet) : FdSet := insert fd fds

def fdClr (fd : BitVec 32) (fds : FdSet) : FdSet := fds.erase fd

def fdIsset (fd : BitVec 32) (fds : FdSet) : Bool := decide (fd ∈ fds)

/-- The three `ev_set`s of a `slt_evdb`; a pointer to one is its side. -/
inductive Side where
  | inEvs | outEvs | expEvs
  deriving DecidableEq, Repr

def Side.all : List Side := [.inEvs, .outEvs, .expEvs]

structure SltHtNode where
  ev : MclEvent
  deriving DecidableEq, Repr

inductive SltFreeFn where
  | eventHtFree
  deriving DecidableEq, Repr

structure EvSet where
  ht : Hash SltHtNode SltFreeFn
  fds : FdSet

structure SltEvdb where
  nMaxfdn : BitVec 32
  evs : Side → EvSet

def SltEvdb.setEvset (side : Side) (evset : EvSet) (db : SltEvdb) : SltEvdb :=
  { db with evs := Function.update db.evs side evset }

def mallocEvset : EvSet :=
  { ht := (mclHashCtrl .registEraseFn (some .eventHtFree) (.new .int)).2, fds := ∅ }

def selectInit : SltEvdb := { nMaxfdn := 0, evs := fun _ => mallocEvset }

/-- The last branch sets `evset` to `exp_evs` and then returns NULL. -/
def getEvset (ev : MclEvent) : Option Side :=
  if ev.evType &&& mclEvRead ≠ 0 then some .inEvs
  else if ev.evType &&& mclEvWrite ≠ 0 then some .outEvs
  else none

/-- `add_event`: what it returns is the descriptor. -/
def addEvent (ev : MclEvent) (side : Side) (db : SltEvdb) : Option (BitVec 32 × SltEvdb) :=
  if ev.sockfd.slt 0 then some (0, db)
  else do
    let evset := db.evs side
    let (htRet, ht, _) ← mclIntHashInsertSafe ev.sockfd (some ⟨ev⟩) evset.ht
    if htRet = 0 then some (0, db.setEvset side { evset with ht := ht })
    else some (ev.sockfd, db.setEvset side { ht := ht, fds := fdSet ev.sockfd evset.fds })

/-- `del_event`, with the nodes that it calls `event_ht_free` on before it returns. -/
def delEvent (ev : MclEvent) (side : Side) (db : SltEvdb) :
    Option (ℤ × SltEvdb × Freed SltFreeFn SltHtNode) :=
  if ev.sockfd.slt 0 then some (0, db, [])
  else
    let evset := db.evs side
    if !fdIsset ev.sockfd evset.fds then some (0, db, [])
    else do
      let (ret, ht, freed) ← mclIntHashDelete ev.sockfd evset.ht (some .eventHtFree)
      some (ret, db.setEvset side { ht := ht, fds := fdClr ev.sockfd evset.fds }, freed)

def addExpevent (ev : MclEvent) (db : SltEvdb) : Option (BitVec 32 × SltEvdb) :=
  addEvent ev .expEvs db

/-- `select_add`: `event_add_or_del` with `is_add` set. -/
def selectAdd (ev : MclEvent) (db : SltEvdb) : Option (ℤ × SltEvdb) :=
  match getEvset ev with
  | none => some (0, db)
  | some side => do
    let (ret, db) ← addEvent ev side db
    if ret = 0 then some (0, db)
    else
      let db := { db with nMaxfdn := if db.nMaxfdn.slt ret then ret else db.nMaxfdn }
      if ev.evType &&& mclEvExp = 0 then
        let (_, db) ← addExpevent ev db
        some (1, db)
      else some (1, db)

/-- The call that `event_ht_free` makes. -/
def eventHtFreeCall (node : SltHtNode) : Option EventCall := node.ev.cleanupCall

/-- What `free_evset` has `mcl_hash_destroy` call. -/
def freeEvset (evset : EvSet) : Freed SltFreeFn SltHtNode := (mclHashDestroy evset.ht (some .eventHtFree)).2

/-- `select_cleanup`, which `mcl_evbase_destroy` calls. -/
def selectCleanup (db : SltEvdb) : Freed SltFreeFn SltHtNode :=
  freeEvset (db.evs .inEvs) ++ freeEvset (db.evs .outEvs) ++ freeEvset (db.evs .expEvs)

/-- The keys that an `MCL_FOREACH` visits. The loop is cut off after as many steps as the table
has pairs, and one more. -/
def foreachKeys (ht : Hash SltHtNode SltFreeFn) : Option (List (Option HashKey)) :=
  (hashForeach (ht.pairs.length + 1) Iter.initializer ht).map (·.map Prod.fst)

/-- `FD_SET(*htkey, fds)`. -/
def fdSetKey (fds : FdSet) : Option HashKey → FdSet
  | some (.int sockfd) => fdSet sockfd fds
  | _ => fds

def initFds (evset : EvSet) : Option EvSet := do
  let keys ← foreachKeys evset.ht
  some { evset with fds := keys.foldl fdSetKey ∅ }

end Mcl
