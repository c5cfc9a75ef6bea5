import Mcl.Library.Linked
import Mcl.Util.Blocks

/-! What `mcl_hash.c` uses of `mcl_list.c`, on memory. `none` is a run that C does not define, or a walk that
never comes back to the sentinel. -/
namespace Mcl.ListBlocks
open Mcl.Library Mcl.Library.HProp
open HeapM (load store free fault)

variable {ν φ : Type}

def headView : Cell ν φ → Option (Headed × Addr × Addr)
  | .headed rest prev next => some (rest, prev, next)
  | _ => none

/-- A list, a node and the entry in either share an address: the offset of the entry is 0. -/
def entries : Linked Headed (Cell ν φ) := ⟨.headed, headView, fun _ _ _ => rfl⟩

def links (ent : Addr) : MclM ν φ (Addr × Addr) := entries.links ent

def nodeData (node : Addr) : MclM ν φ (Option Addr) := do
  match ← load node with
  | .headed (.node data) _ _ => pure data
  | _ => fault

def mclListSize (list : Addr) : MclM ν φ ℤ := do
  match ← load list with
  | .headed (.list listSz) _ _ => pure listSz
  | _ => fault

def setListSz (list : Addr) (listSz : ℤ) : MclM ν φ Unit := do
  match ← load list with
  | .headed (.list _) prev next => store list (.headed (.list listSz) prev next)
  | _ => fault

def isListEmpty (list : Addr) : MclM ν φ Bool := do
  let (_, next) ← links list
  pure (next == list)

def mclListNew : MclM ν φ Addr := do
  let listp ← HeapM.alloc (.headed (.list 0) 0 0)
  entries.setPrev listp listp
  entries.setNext listp listp
  pure listp

/-- `_LIST_INSERT`. -/
def listInsertBetween (elem p n : Addr) : MclM ν φ Unit := do
  entries.setPrev elem p
  entries.setNext elem n
  entries.setPrev n elem
  entries.setNext p elem

def mclListInsert (data list : Addr) : MclM ν φ ℤ := do
  let listSz ← mclListSize list
  if listSz ≥ mclListMaxSize then pure 0
  else do
    let node ← HeapM.alloc (.headed (.node (some data)) 0 0)
    let (_, next) ← links list
    listInsertBetween node list next
    setListSz list (listSz + 1)
    pure 1

/-- `HANDLE_ELEM` without a free function. -/
def handleElem (ent list : Addr) : MclM ν φ Unit := do
  let (prev, next) ← links ent
  entries.setNext prev next
  let (prev, next) ← links ent
  entries.setPrev next prev
  free ent
  let listSz ← mclListSize list
  setListSz list (listSz - 1)

def listDelLoop (data list : Addr) : ℕ → Addr → MclM ν φ ℤ
  | 0, _ => fault
  | fuel + 1, ent =>
    if ent = list then pure 0
    else do
      let nodeData ← nodeData ent
      if nodeData = some data then do
        handleElem ent list
        pure 1
      else do
        let (_, next) ← links ent
        listDelLoop data list fuel next

/-- `mcl_list_delete(data, list, NULL)`. -/
def mclListDelete (data list : Addr) : MclM ν φ ℤ := do
  if ← isListEmpty list then pure 0
  else do
    let fuel ← HeapM.blockCount
    let (_, next) ← links list
    listDelLoop data list fuel next

abbrev ListIter := Iter Addr Addr Unit

def setPos (it : ListIter) (pos : Option Addr) : ListIter :=
  { it with u := .index (-1), sz := -1, ptr := pos, data := pos }

def iterHead (it : ListIter) (list : Addr) : MclM ν φ ListIter := do
  if ← isListEmpty list then pure (setPos it none)
  else do
    let (_, next) ← links list
    pure (setPos it (some next))

def iterNext (it : ListIter) (list : Addr) : MclM ν φ ListIter := do
  if ← isListEmpty list then pure (setPos it none)
  else
    match it.data with
    | none => pure (setPos it none)
    | some ent => do
      let (_, next) ← links ent
      if next = list then pure (setPos it none) else pure (setPos it (some next))

def iterInfo (it : ListIter) : MclM ν φ (Option Addr) :=
  match it.data, it.ptr with
  | some ent, some node => if node = ent then nodeData node else fault
  | _, _ => pure none

def findLoop (cmpFunc : Addr → MclM ν φ Bool) (list : Addr) : ℕ → ListIter → MclM ν φ (Option Addr)
  | 0, _ => fault
  | fuel + 1, it =>
    if it.isNull then pure none
    else do
      match ← iterInfo it with
      | none => pure none
      | some dstData =>
        if ← cmpFunc dstData then pure (some dstData)
        else do
          let it ← iterNext it list
          findLoop cmpFunc list fuel it

/-- `mcl_list_find`; the comparison has its first argument already. -/
def mclListFind (cmpFunc : Addr → MclM ν φ Bool) (list : Addr) : MclM ν φ (Option Addr) := do
  let fuel ← HeapM.blockCount
  let it ← iterHead .initializer list
  findLoop cmpFunc list fuel it

def destroyLoop (list : Addr) : ℕ → Addr → MclM ν φ Unit
  | 0, _ => fault
  | fuel + 1, ent =>
    if ent = list then pure ()
    else do
      let (_, next) ← links ent
      free ent
      destroyLoop list fuel next

/-- `mcl_list_destroy(list, NULL)`. -/
def mclListDestroy (list : Addr) : MclM ν φ Unit := do
  if ← isListEmpty list then free list
  else do
    let fuel ← HeapM.blockCount
    let (_, next) ← links list
    destroyLoop list fuel next
    free list

/-! The specifications. -/

/-- A node and the pointer it holds. -/
abbrev Node := Addr × Addr

def Node.item (x : Node) : Addr × Headed := (x.1, .node (some x.2))

/-- The blocks of a list, its own and its nodes in list order, while `_list_sz` is `listSz`. -/
def ringAt (listSz : ℤ) (list : Addr) (nodes : List Node) : HProp (Cell ν φ) :=
  entries.ring ((list, .list listSz) :: nodes.map Node.item)

def listAt (list : Addr) (nodes : List Node) : HProp (Cell ν φ) := ringAt nodes.length list nodes

variable {list : Addr} {nodes pre suf : List Node} {x : Node} {P R : HProp (Cell ν φ)}

theorem listAt_nodup {h : Heap (Cell ν φ)} (hh : h ∈ listAt list nodes) :
    list ∉ nodes.map Prod.fst ∧ (nodes.map Prod.fst).Nodup := by
  have hnd := Linked.ring_nodup hh
  rw [List.map_cons, List.map_map] at hnd
  exact List.nodup_cons.mp hnd

theorem listAt_sized (list : Addr) (nodes : List Node) :
    Sized (listAt list nodes : HProp (Cell ν φ)) (nodes.length + 1) := by
  have h := Linked.ring_sized (L := (entries : Linked Headed (Cell ν φ)))
    ((list, .list nodes.length) :: nodes.map Node.item)
  rwa [List.length_cons, List.length_map] at h

/-- The node behind a position, or the sentinel. -/
def nextAddr (list : Addr) (suf : List Node) : Addr := (suf.head?.map Prod.fst).getD list

theorem firstOf_items (list : Addr) (suf : List Node) :
    firstOf Prod.fst (suf.map Node.item) list = nextAddr list suf := by cases suf <;> rfl

/-- The list's own block. -/
theorem listAt_head (list : Addr) (nodes : List Node) : ∃ p R, (listAt list nodes : HProp (Cell ν φ)) =
    pts list (.headed (.list nodes.length) p (nextAddr list nodes)) * R :=
  ⟨lastOf Prod.fst list (nodes.map Node.item), _, by
    rw [listAt, ringAt, Linked.ring_cons, firstOf_items]
    rfl⟩

/-- The block of one node. -/
theorem listAt_node (list : Addr) (pre suf : List Node) (x : Node) : ∃ p R, (listAt list (pre ++ x :: suf) : HProp (Cell ν φ)) =
    pts x.1 (.headed (.node (some x.2)) p (nextAddr list suf)) * R := by
  rw [listAt, ringAt, List.map_append, List.map_cons, Linked.ring_split, firstOf_items]
  exact ⟨_, _, rfl⟩

theorem links_list : Spec (listAt list nodes : HProp (Cell ν φ)) (links list) fun r =>
    fact (r.2 = nextAddr list nodes) * listAt list nodes := by
  obtain ⟨p, R, heq⟩ := listAt_head (ν := ν) (φ := φ) list nodes
  rw [heq, ← bind_pure (links list)]
  exact Linked.links_bind (L := entries) (Spec.ret rfl)

theorem links_node : Spec (listAt list (pre ++ x :: suf) : HProp (Cell ν φ)) (links x.1) fun r =>
    fact (r.2 = nextAddr list suf) * listAt list (pre ++ x :: suf) := by
  obtain ⟨p, R, heq⟩ := listAt_node (ν := ν) (φ := φ) list pre suf x
  rw [heq, ← bind_pure (links x.1)]
  exact Linked.links_bind (L := entries) (Spec.ret rfl)

theorem nodeData_reads :
    Reads (listAt list (pre ++ x :: suf) : HProp (Cell ν φ)) (nodeData x.1) (some x.2) := by
  obtain ⟨p, R, heq⟩ := listAt_node (ν := ν) (φ := φ) list pre suf x
  rw [heq]
  exact Spec.load_bind (Spec.ret rfl)

theorem mclListSize_reads {listSz : ℤ} :
    Reads (ringAt listSz list nodes : HProp (Cell ν φ)) (mclListSize list) listSz := by
  rw [ringAt, Linked.ring_cons]
  exact Spec.load_bind (Spec.ret rfl)

theorem nextAddr_eq_list (h : list ∉ suf.map Prod.fst) : nextAddr list suf = list ↔ suf = [] := by
  cases suf with
  | nil => exact ⟨fun _ => rfl, fun _ => rfl⟩
  | cons x suf =>
    refine ⟨fun hc => absurd ?_ h, fun hc => absurd hc (List.cons_ne_nil x suf)⟩
    rw [← hc]
    exact List.mem_cons_self

theorem isListEmpty_reads :
    Reads (listAt list nodes : HProp (Cell ν φ)) (isListEmpty list) nodes.isEmpty := by
  refine Spec.known (fun h hh => (listAt_nodup hh).1) fun hnot => ?_
  refine links_list.bind fun r => Spec.fact_mul fun hr => Spec.ret ?_
  rw [Bool.eq_iff_iff, beq_iff_eq, hr, nextAddr_eq_list hnot, List.isEmpty_iff]

/-! Iterators. -/

/-- An iterator at the first of the nodes `suf`. -/
def atNode (it : ListIter) (suf : List Node) : ListIter := setPos it (suf.head?.map Prod.fst)

theorem iterHead_reads (it : ListIter) :
    Reads (listAt list nodes : HProp (Cell ν φ)) (iterHead it list) (atNode it nodes) := by
  refine isListEmpty_reads.bind ?_
  cases nodes with
  | nil => exact Spec.ret rfl
  | cons x nodes =>
    refine links_list.bind fun r => Spec.fact_mul fun hr => Spec.ret ?_
    rw [hr]
    rfl

theorem iterNext_reads (it : ListIter) : Reads (listAt list (pre ++ x :: suf) : HProp (Cell ν φ))
    (iterNext (atNode it (x :: suf)) list) (atNode it suf) := by
  refine Spec.known (fun h hh => (listAt_nodup hh).1) fun hnot => ?_
  have hsuf : list ∉ suf.map Prod.fst := fun hc =>
    hnot (List.map_subset _ (List.subset_append_of_subset_right pre (List.subset_cons_self x suf)) hc)
  have hne : (pre ++ x :: suf).isEmpty = false := by cases pre <;> rfl
  refine isListEmpty_reads.bind ?_
  rw [hne]
  refine links_node.bind fun r => Spec.fact_mul fun hr => ?_
  change Spec _ (if r.2 = list then _ else _) _
  rw [hr]
  cases suf with
  | nil =>
    rw [if_pos (show nextAddr list [] = list from rfl)]
    exact Spec.ret rfl
  | cons y suf =>
    rw [if_neg fun hc => List.cons_ne_nil y suf ((nextAddr_eq_list hsuf).mp hc)]
    exact Spec.ret rfl

theorem iterInfo_reads (it : ListIter) : Reads (listAt list (pre ++ x :: suf) : HProp (Cell ν φ))
    (iterInfo (atNode it (x :: suf))) (some x.2) := by
  change Reads _ (if x.1 = x.1 then nodeData x.1 else _) _
  rw [if_pos rfl]
  exact nodeData_reads

/-! Search. -/

theorem findLoop_reads {ε : Type} {node : ε → Node} {es : List ε} {cmpFunc : Addr → MclM ν φ Bool}
    {hit : ε → Bool} (it : ListIter) (hcmp : ∀ e ∈ es, Reads R (cmpFunc (node e).2) (hit e)) (done todo : List ε)
    (fuel : ℕ) (hes : es = done ++ todo) (hfuel : todo.length < fuel) :
    Reads (listAt list (es.map node) * R) (findLoop cmpFunc list fuel (atNode it (todo.map node)))
      ((todo.find? hit).map fun e => (node e).2) := by
  induction todo generalizing done fuel with
  | nil =>
    obtain ⟨fuel, rfl⟩ := Nat.exists_eq_add_one_of_ne_zero (Nat.ne_zero_of_lt hfuel)
    exact Reads.pure
  | cons e todo ih =>
    obtain ⟨fuel, rfl⟩ := Nat.exists_eq_add_one_of_ne_zero (Nat.ne_zero_of_lt hfuel)
    have hmem : e ∈ es := hes ▸ List.mem_append_right done List.mem_cons_self
    have hnodes : es.map node = done.map node ++ node e :: todo.map node := by rw [hes, List.map_append, List.map_cons]
    have hinfo : Reads (listAt list (es.map node)) (iterInfo (atNode it (node e :: todo.map node)) : MclM ν φ _)
        (some (node e).2) := hnodes ▸ iterInfo_reads it
    have hnext : Reads (listAt list (es.map node)) (iterNext (atNode it (node e :: todo.map node)) list : MclM ν φ _)
        (atNode it (todo.map node)) := hnodes ▸ iterNext_reads it
    refine hinfo.left.bind ((hcmp e hmem).right.bind ?_)
    rw [List.find?_cons]
    cases hit e with
    | true => exact Reads.pure
    | false =>
      refine hnext.left.bind ?_
      exact ih (done ++ [e]) fuel (by simp [hes]) (Nat.lt_of_succ_lt_succ hfuel)

theorem mclListFind_reads {ε : Type} (node : ε → Node) {es : List ε} {cmpFunc : Addr → MclM ν φ Bool}
    {hit : ε → Bool} (hcmp : ∀ e ∈ es, Reads R (cmpFunc (node e).2) (hit e)) :
    Reads (listAt list (es.map node) * R) (mclListFind cmpFunc list) ((es.find? hit).map fun e => (node e).2) := by
  refine Spec.call (Spec.blockCount (listAt_sized list _)) fun fuel => ?_
  rw [mul_assoc, List.length_map]
  refine Spec.fact_mul fun hfuel => (iterHead_reads _).left.bind ?_
  exact findLoop_reads _ hcmp [] es fuel (List.nil_append es).symm hfuel

/-! Changes. -/

theorem mclListNew_spec : Spec (1 : HProp (Cell ν φ)) mclListNew fun list => listAt list [] := by
  refine Spec.alloc_bind fun list => Spec.call (Linked.setPrev_spec (L := entries) list) fun _ => ?_
  refine Spec.call (Linked.setNext_spec (L := entries) list) fun _ => Spec.pure (le_refl _)

theorem setListSz_spec (listSz listSz' : ℤ) : Spec (ringAt listSz list nodes : HProp (Cell ν φ))
    (setListSz list listSz') fun _ => ringAt listSz' list nodes := by
  rw [ringAt, Linked.ring_cons]
  exact Spec.load_bind ((Spec.store list _ _).frame _)

theorem listInsertBetween_spec {a p n : Addr} {s : Headed} {ys : List (Addr × Headed)} (hys : ys ≠ []) (d : Addr) :
    Spec (pts a (entries.cell s p n) * entries.ring ys : HProp (Cell ν φ))
      (listInsertBetween a (lastOf Prod.fst d ys) (firstOf Prod.fst ys d)) fun _ => entries.ring ((a, s) :: ys) := by
  refine Spec.call (Linked.setPrev_spec _) fun _ => Spec.call (Linked.setNext_spec _) fun _ => ?_
  rw [mul_comm, Linked.ring_eq hys d d]
  refine Spec.call (Linked.setPrev_first hys a) fun _ => ?_
  refine (Spec.frame (Linked.setNext_last hys a) _).post fun _ => ?_
  rw [mul_comm, Linked.ring_cons, lastOf_congr hys d a, firstOf_congr hys d a]

theorem mclListInsert_spec (data : Addr) (hlt : (nodes.length : ℤ) < mclListMaxSize) :
    Spec (listAt list nodes : HProp (Cell ν φ)) (mclListInsert data list) fun r =>
      ⨆ node, fact (r = 1) * listAt list ((node, data) :: nodes) := by
  refine mclListSize_reads.call ?_
  rw [if_neg (by omega)]
  refine Spec.alloc_bind fun node => ?_
  rw [mul_comm]
  refine Spec.call links_list fun ends => ?_
  rw [mul_assoc]
  refine Spec.fact_mul fun hnext => ?_
  let sentinel : Addr × Headed := (list, .list nodes.length)
  have hne : nodes.map Node.item ++ [sentinel] ≠ [] := List.append_ne_nil_of_right_ne_nil _ (List.cons_ne_nil _ _)
  have hring : (listAt list nodes : HProp (Cell ν φ)) = entries.ring (nodes.map Node.item ++ [sentinel]) :=
    Linked.ring_rotate [sentinel] _
  have hbetween := listInsertBetween_spec (ν := ν) (φ := φ) (a := node) (p := 0) (n := 0) (s := .node (some data)) hne list
  rw [lastOf_append, firstOf_append] at hbetween
  rw [hring, mul_comm]
  change Spec _ (listInsertBetween node list ends.2 >>= _) _
  rw [hnext, ← firstOf_items]
  refine hbetween.bind fun _ => ?_
  have hafter : (entries.ring ((node, .node (some data)) :: (nodes.map Node.item ++ [sentinel])) : HProp (Cell ν φ)) =
      ringAt nodes.length list ((node, data) :: nodes) :=
    (Linked.ring_rotate [sentinel] (((node, data) :: nodes).map Node.item)).symm
  rw [hafter]
  refine (setListSz_spec _ _).bind fun _ => Spec.pure ?_
  refine le_iSup_of_le node ?_
  have hsz : (nodes.length : ℤ) + 1 = ((node, data) :: nodes).length := by
    rw [List.length_cons]
    omega
  rw [hsz]
  exact le_fact_mul rfl

theorem mclListInsert_full (data : Addr) (hfull : ¬ (nodes.length : ℤ) < mclListMaxSize) :
    Spec (listAt list nodes : HProp (Cell ν φ)) (mclListInsert data list) fun r =>
      fact (r = 0) * listAt list nodes := by
  refine mclListSize_reads.call ?_
  rw [if_pos (by omega)]
  exact Spec.ret rfl

theorem handleElem_spec : Spec (listAt list (pre ++ x :: suf) : HProp (Cell ν φ)) (handleElem x.1 list) fun _ =>
    listAt list (pre ++ suf) := by
  let sentinel : Addr × Headed := (list, .list (pre ++ x :: suf).length)
  let ys := suf.map Node.item ++ sentinel :: pre.map Node.item
  have hys : ys ≠ [] := List.append_ne_nil_of_right_ne_nil _ (List.cons_ne_nil _ _)
  have hbefore : (listAt list (pre ++ x :: suf) : HProp (Cell ν φ)) = entries.ring (x.item :: ys) := by
    rw [listAt, ringAt, List.map_append]
    exact Linked.ring_rotate (sentinel :: pre.map Node.item) (x.item :: suf.map Node.item)
  have hafter : (entries.ring ys : HProp (Cell ν φ)) = ringAt (pre ++ x :: suf).length list (pre ++ suf) := by
    rw [ringAt, List.map_append]
    exact Linked.ring_rotate (suf.map Node.item) (sentinel :: pre.map Node.item)
  rw [hbefore, Linked.ring_cons]
  refine Linked.links_bind ?_
  change Spec _ (entries.setNext (lastOf Prod.fst x.1 ys) (firstOf Prod.fst ys x.1) >>= _) _
  rw [mul_comm]
  refine Spec.call (Linked.setNext_last hys _) fun _ => ?_
  rw [mul_comm]
  refine Linked.links_bind ?_
  change Spec _ (entries.setPrev (firstOf Prod.fst ys x.1) (lastOf Prod.fst x.1 ys) >>= _) _
  rw [mul_comm]
  refine Spec.call (Linked.setPrev_first hys _) fun _ => ?_
  rw [mul_comm, ← Linked.ring_eq hys, hafter]
  refine Spec.free_bind (mclListSize_reads.call ?_)
  refine (setListSz_spec _ _).post fun _ => ?_
  have hsz : ((pre ++ x :: suf).length : ℤ) - 1 = (pre ++ suf).length := by
    rw [List.length_append, List.length_append, List.length_cons]
    omega
  rw [hsz]
  exact le_refl _

/-- Up to the node that holds the pointer. -/
theorem listDelLoop_spec (pre todo : List Node) (hnot : x.2 ∉ todo.map Prod.snd) (fuel : ℕ) (hfuel : todo.length < fuel) :
    Spec (listAt list (pre ++ (todo ++ x :: suf)) : HProp (Cell ν φ))
      (listDelLoop x.2 list fuel (nextAddr list (todo ++ x :: suf))) fun r =>
      fact (r = 1) * listAt list (pre ++ (todo ++ suf)) := by
  refine Spec.known (fun h hh => (listAt_nodup hh).1) fun hlist => ?_
  obtain ⟨fuel, rfl⟩ := Nat.exists_eq_add_one_of_ne_zero (Nat.ne_zero_of_lt hfuel)
  induction todo generalizing pre fuel with
  | nil =>
    have hx : x.1 ≠ list := by
      rintro rfl
      exact hlist (List.mem_map_of_mem (List.mem_append_right pre List.mem_cons_self))
    change Spec _ (if x.1 = list then _ else _) _
    rw [if_neg hx]
    refine nodeData_reads.call ?_
    rw [if_pos rfl]
    exact handleElem_spec.bind fun _ => Spec.ret rfl
  | cons y todo ih =>
    have hy : y.1 ≠ list := by
      rintro rfl
      exact hlist (List.mem_map_of_mem (List.mem_append_right pre List.mem_cons_self))
    change Spec _ (if y.1 = list then _ else _) _
    rw [if_neg hy]
    refine nodeData_reads.call ?_
    rw [if_neg (by rw [Option.some.injEq]; exact (List.ne_of_not_mem_cons hnot).symm)]
    refine links_node.bind fun ends => Spec.fact_mul fun hends => ?_
    change Spec _ (listDelLoop x.2 list fuel ends.2) _
    have hlt := Nat.lt_of_succ_lt_succ hfuel
    obtain ⟨fuel, rfl⟩ := Nat.exists_eq_add_one_of_ne_zero (Nat.ne_zero_of_lt hlt)
    have hrest := ih (pre ++ [y]) (List.not_mem_of_not_mem_cons hnot)
      (by rwa [List.append_assoc]) fuel hlt
    rw [List.append_assoc, List.append_assoc] at hrest
    rw [hends]
    exact hrest

theorem mclListDelete_spec (hnot : x.2 ∉ pre.map Prod.snd) :
    Spec (listAt list (pre ++ x :: suf) : HProp (Cell ν φ)) (mclListDelete x.2 list) fun r =>
      fact (r = 1) * listAt list (pre ++ suf) := by
  have hne : (pre ++ x :: suf).isEmpty = false := by cases pre <;> rfl
  refine isListEmpty_reads.call ?_
  rw [hne]
  refine (Spec.blockCount (listAt_sized list _)).bind fun fuel => Spec.fact_mul fun hfuel => ?_
  refine links_list.bind fun ends => Spec.fact_mul fun hends => ?_
  change Spec _ (listDelLoop x.2 list fuel ends.2) _
  rw [hends]
  refine listDelLoop_spec [] pre hnot fuel ?_
  rw [List.length_append] at hfuel
  omega

theorem destroyLoop_spec (p fuel : ℕ) (hnot : list ∉ nodes.map Prod.fst) (hfuel : nodes.length < fuel) :
    Spec (entries.seg p (nodes.map Node.item) list : HProp (Cell ν φ))
      (destroyLoop list fuel (nextAddr list nodes)) fun _ => 1 := by
  induction nodes generalizing p fuel with
  | nil =>
    obtain ⟨fuel, rfl⟩ := Nat.exists_eq_add_one_of_ne_zero (Nat.ne_zero_of_lt hfuel)
    change Spec _ (if list = list then _ else _) _
    rw [if_pos rfl]
    exact Spec.pure (le_refl _)
  | cons x nodes ih =>
    obtain ⟨fuel, rfl⟩ := Nat.exists_eq_add_one_of_ne_zero (Nat.ne_zero_of_lt hfuel)
    change Spec _ (if x.1 = list then _ else _) _
    rw [if_neg (List.ne_of_not_mem_cons hnot).symm]
    refine Linked.links_bind (L := entries) (Spec.free_bind ?_)
    rw [firstOf_items]
    exact ih _ fuel (List.not_mem_of_not_mem_cons hnot) (Nat.lt_of_succ_lt_succ hfuel)

theorem mclListDestroy_spec :
    Spec (listAt list nodes : HProp (Cell ν φ)) (mclListDestroy list) fun _ => 1 := by
  refine Spec.known (fun h hh => (listAt_nodup hh).1) fun hnot => ?_
  refine isListEmpty_reads.call ?_
  cases hempty : nodes.isEmpty with
  | true =>
    rw [List.isEmpty_iff] at hempty
    subst hempty
    exact Spec.of_eq (mul_one _) (Spec.free list _)
  | false =>
    refine (Spec.blockCount (listAt_sized list nodes)).bind fun fuel => Spec.fact_mul fun hfuel => ?_
    refine links_list.bind fun ends => Spec.fact_mul fun hends => ?_
    change Spec _ (destroyLoop list fuel ends.2 >>= _) _
    rw [hends, listAt, ringAt, Linked.ring_cons, mul_comm]
    refine Spec.call (destroyLoop_spec _ fuel hnot hfuel) fun _ => ?_
    rw [one_mul]
    exact Spec.free list _

end Mcl.ListBlocks
