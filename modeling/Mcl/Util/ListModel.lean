import Mathlib.Data.List.TakeWhile
import Mathlib.Data.Option.Basic
import Mcl.Util.Common

/-! A `mcl_list` as its callers see it: the nodes in ring order, each with the address that
an iterator holds. A node is allocated exactly as long as it is in `ents`. -/
namespace Mcl

structure ListEnt (α : Type) where
  addr : Addr
  data : Option α
  deriving DecidableEq, Repr

structure MclList (α φ : Type) where
  ents : List (ListEnt α)
  listSz : ℤ
  eraseFn : Option φ

namespace MclList

variable {α φ κ ν : Type}

def new : MclList α φ := { ents := [], listSz := 0, eraseFn := none }

/-- The elements in order, NULL included. -/
def elems (l : MclList α φ) : List (Option α) := l.ents.map (·.data)

def size (l : MclList α φ) : ℤ := l.listSz

/-- `mcl_list_insert`, with the node that `malloc` returns. -/
def insert (node : Addr) (data : Option α) (l : MclList α φ) : ℤ × MclList α φ :=
  if l.listSz ≥ mclListMaxSize then (0, l)
  else (1, { l with ents := ⟨node, data⟩ :: l.ents, listSz := l.listSz + 1 })

def insertTail (node : Addr) (data : Option α) (l : MclList α φ) : ℤ × MclList α φ :=
  if l.listSz ≥ mclListMaxSize then (0, l)
  else (1, { l with ents := l.ents ++ [⟨node, data⟩], listSz := l.listSz + 1 })

/-- `list_del`: drop the first element that satisfies `hit`, releasing its data. -/
def del (hit : Option α → Bool) (freeFn : Option φ) (l : MclList α φ) :
    ℤ × MclList α φ × Freed φ α :=
  match l.ents.find? (hit ·.data) with
  | none => (0, l, [])
  | some e =>
    (1, { l with ents := l.ents.eraseP (hit ·.data), listSz := l.listSz - 1 },
      callFree freeFn e.data)

theorem del_of_hit {l : MclList α φ} {hit : Option α → Bool} {pre suf : List (ListEnt α)}
    {e : ListEnt α} (hl : l.ents = pre ++ e :: suf) (hpre : ∀ x ∈ pre, hit x.data = false)
    (he : hit e.data = true) (freeFn : Option φ) :
    l.del hit freeFn = (1, { l with ents := pre ++ suf, listSz := l.listSz - 1 },
      callFree freeFn e.data) := by
  have hfind : l.ents.find? (hit ·.data) = some e := by
    rw [hl, List.find?_append, List.find?_eq_none.mpr (by simpa using hpre)]
    simp [he]
  have herase : l.ents.eraseP (hit ·.data) = pre ++ suf := by
    rw [hl, List.eraseP_append_right _ (by simpa using hpre)]
    exact congrArg (pre ++ ·) (List.eraseP_cons_of_pos he)
  simp only [del, hfind, herase]

theorem del_of_not_hit {l : MclList α φ} {hit : Option α → Bool}
    (h : ∀ x ∈ l.ents, hit x.data = false) (freeFn : Option φ) : l.del hit freeFn = (0, l, []) := by
  have hfind : l.ents.find? (hit ·.data) = none := List.find?_eq_none.mpr (by simpa using h)
  simp only [del, hfind]

def delete [DecidableEq α] (data : Option α) (l : MclList α φ) (freeFn : Option φ) :
    ℤ × MclList α φ × Freed φ α :=
  l.del (· == data) freeFn

/-- `mcl_list_find`: the walk gives up at a NULL element. -/
def find (hit : α → Bool) (l : MclList α φ) : Option α :=
  (l.ents.find? fun e => e.data.all hit).bind (·.data)

/-- `mcl_list_destroy`. -/
def destroy (l : MclList α φ) (freeFn : Option φ) : Freed φ α :=
  l.ents.flatMap fun e => callFree freeFn e.data

/-- The nodes from `a` on; none when `a` has been freed. -/
def from? (a : Addr) (l : MclList α φ) : Option (List (ListEnt α)) :=
  match l.ents.dropWhile (·.addr != a) with
  | [] => none
  | es => some es

theorem from?_eq {l : MclList α φ} {pre suf : List (ListEnt α)} {e : ListEnt α}
    (hl : l.ents = pre ++ e :: suf) (hnd : (l.ents.map (·.addr)).Nodup) :
    l.from? e.addr = some (e :: suf) := by
  have hpre : ∀ x ∈ pre, x.addr ≠ e.addr := by
    intro x hx hc
    rw [hl, List.map_append, List.map_cons] at hnd
    exact (List.nodup_append.mp hnd).2.2 x.addr (List.mem_map_of_mem hx) e.addr (by simp) hc
  have hdrop : l.ents.dropWhile (·.addr != e.addr) = e :: suf := by
    rw [hl, List.dropWhile_append_of_pos (by simpa using hpre)]
    simp
  simp only [from?, hdrop]

theorem from?_eq_some {l : MclList α φ} {a : Addr} {es : List (ListEnt α)}
    (h : l.from? a = some es) :
    ∃ pre e suf, l.ents = pre ++ e :: suf ∧ es = e :: suf ∧ e.addr = a := by
  unfold from? at h
  cases hd : l.ents.dropWhile (·.addr != a) with
  | nil => simp [hd] at h
  | cons e suf =>
    simp only [hd, Option.some.injEq] at h
    have hne := List.head?_dropWhile_not (fun x : ListEnt α => x.addr != a) l.ents
    rw [hd] at hne
    refine ⟨l.ents.takeWhile (·.addr != a), e, suf, ?_, h.symm, by simpa using hne⟩
    rw [← hd, List.takeWhile_append_dropWhile]

theorem from?_of_not_mem {l : MclList α φ} {a : Addr} (h : a ∉ l.ents.map (·.addr)) :
    l.from? a = none := by
  have hdrop : l.ents.dropWhile (·.addr != a) = [] := by
    rw [List.dropWhile_eq_nil_iff]
    intro x hx
    simp only [bne_iff_ne, ne_eq]
    rintro rfl
    exact h (List.mem_map_of_mem hx)
  simp only [from?, hdrop]

def setPos (it : Iter Addr κ ν) (pos : Option Addr) : Iter Addr κ ν :=
  { it with u := .index (-1), sz := -1, ptr := pos, data := pos }

def iterHead (it : Iter Addr κ ν) (l : MclList α φ) : Iter Addr κ ν :=
  setPos it (l.ents.head?.map (·.addr))

def iterTail (it : Iter Addr κ ν) (l : MclList α φ) : Iter Addr κ ν :=
  setPos it (l.ents.getLast?.map (·.addr))

/-- `iter_next`; `none` when the iterator's node has been freed. -/
def iterNext (it : Iter Addr κ ν) (l : MclList α φ) : Option (Iter Addr κ ν) :=
  if l.ents.isEmpty then some (setPos it none)
  else match it.data with
    | none => some (setPos it none)
    | some a => (l.from? a).map fun es => setPos it (es.tail.head?.map (·.addr))

/-- `iter_info`; `none` when the iterator's node has been freed. -/
def iterInfo (it : Iter Addr κ ν) (l : MclList α φ) : Option (Option α) :=
  match it.data, it.ptr with
  | some ent, some node => do
    guard (node = ent)
    let es ← l.from? node
    es.head?.map (·.data)
  | _, _ => some none

/-- What an iterator reads is a node of the list. -/
theorem iterInfo_eq_some {it : Iter Addr κ ν} {l : MclList α φ} {x : α}
    (h : l.iterInfo it = some (some x)) :
    ∃ e ∈ l.ents, it.data = some e.addr ∧ it.ptr = some e.addr ∧ e.data = some x := by
  unfold iterInfo at h
  split at h
  · next ent node hdata hptr =>
    by_cases hn : node = ent
    · subst hn
      simp only [guard, if_true, Option.bind_eq_bind, Option.pure_def, Option.bind_some,
        Option.bind_eq_some_iff] at h
      obtain ⟨es, hes, hhead⟩ := h
      obtain ⟨pre, e, suf, hl, rfl, rfl⟩ := from?_eq_some hes
      exact ⟨e, by simp [hl], hdata, hptr, by simpa using hhead⟩
    · simp [guard, hn] at h
  · simp at h

theorem iterInfo_of_pos {it : Iter Addr κ ν} {l : MclList α φ} {pre suf : List (ListEnt α)}
    {e : ListEnt α} (hl : l.ents = pre ++ e :: suf) (hnd : (l.ents.map (·.addr)).Nodup)
    (hdata : it.data = some e.addr) (hptr : it.ptr = some e.addr) :
    l.iterInfo it = some e.data := by
  simp [iterInfo, hdata, hptr, from?_eq hl hnd, guard]

theorem iterNext_of_pos {it : Iter Addr κ ν} {l : MclList α φ} {pre suf : List (ListEnt α)}
    {e : ListEnt α} (hl : l.ents = pre ++ e :: suf) (hnd : (l.ents.map (·.addr)).Nodup)
    (hdata : it.data = some e.addr) :
    l.iterNext it = some (setPos it (suf.head?.map (·.addr))) := by
  have hne : l.ents.isEmpty = false := by rw [hl]; cases pre <;> rfl
  simp only [iterNext, hne, hdata, from?_eq hl hnd]
  rfl

end MclList
end Mcl
