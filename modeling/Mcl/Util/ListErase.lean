import Mcl.Library.Cursor
import Mcl.Util.ListRefinement

/-! Erasing from a list through its iterator. -/
namespace Mcl.ListCode
open Mcl.Library

variable {α φ κ ν : Type}

/-- The iterators that the four moves of `mcl_list.c` lead to. -/
inductive Positioned (m : ListMem α φ) : ListIter κ ν → Prop
  | head {it it' : ListIter κ ν} (h : mclDefListIterHead it m = some it') : Positioned m it'
  | tail {it it' : ListIter κ ν} (h : mclDefListIterTail it m = some it') : Positioned m it'
  | next {it it' : ListIter κ ν} (hit : Positioned m it) (h : mclDefListIterNext it m = some it') :
      Positioned m it'
  | prev {it it' : ListIter κ ν} (hit : Positioned m it) (h : mclDefListIterPrev it m = some it') :
      Positioned m it'

/-- A loop that erases the elements that satisfy `p` and steps over the others. It yields the elements
that were tested. -/
def listEraseLoop [DecidableEq α] (p : Option α → Bool) :
    ℕ → ListIter κ ν → ListMem α φ → Option (List (Option α) × ListMem α φ × Freed φ α)
  | 0, _, _ => none
  | fuel + 1, it, m =>
    if it.isNull then some ([], m, [])
    else do
      let data ← mclDefListIterInfo it m
      if p data then do
        let (ret, m, freed) ← mclDefListIterErase it m
        -- NULL is returned when the iterator has not been moved
        let (tested, m, rest) ← listEraseLoop p fuel (ret.getD it) m
        some (data :: tested, m, freed ++ rest)
      else do
        let it ← mclDefListIterNext it m
        let (tested, m, freed) ← listEraseLoop p fuel it m
        some (data :: tested, m, freed)

def listEraseIf [DecidableEq α] (p : Option α → Bool) (it : ListIter κ ν) (m : ListMem α φ) :
    Option (List (Option α) × ListMem α φ × Freed φ α) := do
  let it ← mclDefListIterHead it m
  listEraseLoop p (m.brk + 1) it m

variable {m : ListMem α φ} {l : MclList α φ} {it : ListIter κ ν} {pre suf : List (ListEnt α)} {e : ListEnt α}

theorem iterStep_null (link : ListHead → Ent) (m : ListMem α φ) (hit : it.data = none) :
    iterStep link it m = some (setPos (commonIterOp it) none) := by
  have hdata : (commonIterOp it).data = none := hit
  simp only [iterStep, hdata, ite_self]

/-- Every such iterator is on a node, or past the end. -/
theorem Positioned.at (h : Rep m l) (hit : Positioned m it) :
    ∃ pre suf, l.ents = pre ++ suf ∧ AtPos it suf := by
  induction hit with
  | head hcode =>
    rw [mclDefListIterHead_rep h] at hcode
    obtain rfl := Option.some.inj hcode
    exact ⟨[], l.ents, rfl, rfl, rfl⟩
  | tail hcode =>
    rw [mclDefListIterTail_rep h] at hcode
    obtain rfl := Option.some.inj hcode
    rcases l.ents.eq_nil_or_concat with hnil | ⟨es, e, hcat⟩
    · refine ⟨[], [], hnil, ?_⟩
      rw [MclList.iterTail, hnil]
      exact ⟨rfl, rfl⟩
    · rw [List.concat_eq_append] at hcat
      refine ⟨es, [e], hcat, ?_⟩
      rw [MclList.iterTail, hcat, List.getLast?_concat]
      exact ⟨rfl, rfl⟩
  | @next it it' _ hcode ih =>
    obtain ⟨pre, suf, hl, hat⟩ := ih
    cases suf with
    | nil =>
      rw [mclDefListIterNext, iterStep_null _ _ hat.2] at hcode
      obtain rfl := Option.some.inj hcode
      exact ⟨pre, [], hl, rfl, rfl⟩
    | cons e suf =>
      obtain ⟨it'', hcode', hat'⟩ := iterStep_next h hl hat
      obtain rfl := Option.some.inj (hcode.symm.trans hcode')
      exact ⟨pre ++ [e], suf, by rw [hl, List.append_assoc]; rfl, hat'⟩
  | @prev it it' _ hcode ih =>
    obtain ⟨pre, suf, hl, hat⟩ := ih
    cases suf with
    | nil =>
      rw [mclDefListIterPrev, iterStep_null _ _ hat.2] at hcode
      obtain rfl := Option.some.inj hcode
      exact ⟨pre, [], hl, rfl, rfl⟩
    | cons e suf =>
      have hrev : l.ents = pre.reverse.reverse ++ e :: suf := by rw [List.reverse_reverse, hl]
      obtain ⟨it'', hcode', hat'⟩ := iterStep_prev h hrev hat
      obtain rfl := Option.some.inj (hcode.symm.trans hcode')
      rcases pre.eq_nil_or_concat with rfl | ⟨es, x, rfl⟩
      · exact ⟨l.ents, [], (List.append_nil _).symm, hat'⟩
      · rw [List.concat_eq_append] at hl hat'
        rw [List.reverse_append, List.reverse_singleton, List.singleton_append] at hat'
        exact ⟨es, x :: e :: suf, by rw [hl, List.append_assoc]; rfl, hat'⟩

/-- An erase moves on first, and then takes out the first node that holds the same pointer. -/
theorem mclDefListIterErase_rep [DecidableEq α] (h : Rep m l) (hl : l.ents = pre ++ e :: suf)
    (hat : AtPos it (e :: suf)) :
    ∃ it' m', mclDefListIterErase it m =
        some (some it', m', (l.del (· == e.data) l.eraseFn).2.2) ∧
      Rep m' (l.del (· == e.data) l.eraseFn).2.1 ∧ AtPos it' suf := by
  obtain ⟨it', hnext, hat'⟩ := iterStep_next h hl hat
  have hdata : it.data = some e.addr := hat.2
  have hptr : it.ptr = some e.addr := hat.1
  have hnode := h.node_eq hl
  have hhit : (fun x : Option α => x == e.data) = delHit e.data none := by
    funext x
    rfl
  rw [hhit]
  cases hfn : l.eraseFn with
  | none =>
    obtain ⟨m', hdel, hrep⟩ := listDel_rep h e.data false none none
    refine ⟨it', m', ?_, hrep, hat'⟩
    rw [← h.eraseFn] at hfn
    simp [mclDefListIterErase, hdata, hptr, hnode, hnext, hfn, hdel]
  | some fn =>
    obtain ⟨m', hdel, hrep⟩ := listDel_rep h e.data true none (some fn)
    refine ⟨it', m', ?_, hrep, hat'⟩
    rw [← h.eraseFn] at hfn
    simp [mclDefListIterErase, hdata, hptr, hnode, hnext, hfn, hdel]

/-- A memory that holds two lists holds the same nodes in both. -/
theorem Rep.addr_mem {l' : MclList α φ} (h : Rep m l) (h' : Rep m l') (he : e ∈ l.ents) :
    e.addr ∈ l'.ents.map (·.addr) := by
  apply h'.live
  rw [h.data e he]
  simp

/-- A deletion that hits a node in front leaves those behind it. -/
theorem del_keeps {m' : ListMem α φ} {hit : Option α → Bool} {freeFn : Option φ} {sz : ℤ} (h : Rep m l)
    (hl : l.ents = pre ++ e :: suf) (hpre : ∃ x ∈ pre, hit x.data = true)
    (hrep : Rep m' (l.del hit freeFn).2.1) : ¬ Rep m' { l with ents := pre ++ suf, listSz := sz } := by
  intro hrep'
  obtain ⟨x, hx, hhit⟩ := hpre
  have hmem : e ∈ (l.del hit freeFn).2.1.ents := by
    have hfind : l.ents.find? (fun y => hit y.data) ≠ none := by
      intro hnone
      rw [List.find?_eq_none] at hnone
      exact hnone x (by rw [hl]; exact List.mem_append_left _ hx) hhit
    obtain ⟨y, hy⟩ := Option.ne_none_iff_exists'.mp hfind
    simp only [MclList.del, hy]
    rw [hl, List.eraseP_append_left (p := fun y : ListEnt α => hit y.data) hhit _ hx]
    simp
  obtain ⟨y, hy, haddr⟩ := List.mem_map.mp (Rep.addr_mem hrep hrep' hmem)
  exact h.rest_ne hl (.node e.addr)
    (List.mem_cons_of_mem _ (List.mem_map.mpr ⟨y, hy, by rw [haddr]⟩)) rfl

/-- The iterator's own node goes exactly when no node before it holds the same pointer. -/
theorem mclDefListIterErase_at [DecidableEq α] (h : Rep m l) (hl : l.ents = pre ++ e :: suf)
    (hat : AtPos it (e :: suf)) :
    (∃ it' m' freed, mclDefListIterErase it m = some (some it', m', freed) ∧
      Rep m' { l with ents := pre ++ suf, listSz := l.listSz - 1 } ∧ AtPos it' suf) ↔
      ∀ x ∈ pre, x.data ≠ e.data := by
  obtain ⟨it', m', herase, hrep, hat'⟩ := mclDefListIterErase_rep h hl hat
  constructor
  · rintro ⟨it'', m'', freed, herase', hrep', -⟩ x hx heq
    rw [herase] at herase'
    obtain ⟨-, rfl, -⟩ := Option.some.inj herase'
    exact del_keeps h hl ⟨x, hx, by simp [heq]⟩ hrep hrep'
  · intro hpre
    rw [MclList.del_of_hit hl (by simpa using hpre) (by simp)] at hrep
    exact ⟨it', m', _, herase, hrep, hat'⟩

/-- For every iterator that stands on a node. -/
theorem mclDefListIterErase_iff [DecidableEq α] (h : Rep m l) (hit : Positioned m it)
    (hl : l.ents = pre ++ e :: suf) (hptr : it.ptr = some e.addr) :
    (∃ it' m' freed, mclDefListIterErase it m = some (some it', m', freed) ∧
      Rep m' { l with ents := pre ++ suf, listSz := l.listSz - 1 } ∧ AtPos it' suf) ↔
      ∀ x ∈ pre, x.data ≠ e.data := by
  apply mclDefListIterErase_at h hl
  refine ⟨hptr, ?_⟩
  obtain ⟨pre', suf', -, hat⟩ := hit.at h
  rw [hat.2, ← hat.1]
  exact hptr

/-- Every sequence of elements is held by some list, with any erase function. -/
theorem exists_rep (fn : Option φ) (xs : List (Option α)) (hlen : xs.length ≤ mclListMaxSize) :
    ∃ (m : ListMem α φ) (l : MclList α φ), Rep m l ∧ l.elems = xs ∧ l.listSz = l.ents.length ∧ l.eraseFn = fn := by
  induction xs with
  | nil =>
    have hnew : Rep (mclListNew : ListMem α φ) .new := mclListNew_rep
    have hrep : Rep { (mclListNew : ListMem α φ) with eraseFn := fn } { (.new : MclList α φ) with eraseFn := fn } :=
      ⟨hnew.ring, hnew.data, hnew.live, hnew.fresh, rfl, rfl⟩
    exact ⟨_, _, hrep, rfl, rfl, rfl⟩
  | cons x xs ih =>
    rw [List.length_cons] at hlen
    push_cast at hlen
    obtain ⟨m, l, hrep, rfl, hsz, hfn⟩ := ih (by omega)
    rw [MclList.elems, List.length_map, ← hsz] at hlen
    obtain ⟨m', -, hrep'⟩ := mclListInsert_rep hrep x
    rw [MclList.insert, if_neg (by omega)] at hrep'
    refine ⟨m', _, hrep', rfl, ?_, hfn⟩
    dsimp only
    rw [List.length_cons, hsz]
    rfl

/-- The iterator is on the last of three nodes, and the first one goes. -/
theorem mclDefListIterErase_duplicate :
    ¬ ∀ (m : ListMem ℕ ℕ) (l : MclList ℕ ℕ) (it : ListIter Unit Unit) (pre suf : List (ListEnt ℕ)) (e : ListEnt ℕ),
      Rep m l → Positioned m it → l.ents = pre ++ e :: suf → it.ptr = some e.addr →
        ∃ it' m' freed, mclDefListIterErase it m = some (some it', m', freed) ∧
          Rep m' { l with ents := pre ++ suf, listSz := l.listSz - 1 } ∧ AtPos it' suf := by
  intro hall
  obtain ⟨m, l, hrep, helems, -⟩ := exists_rep (none : Option ℕ) [some 7, some 8, some 7] (by decide)
  obtain ⟨e₁, es, hents, he₁, hes⟩ := List.map_eq_cons_iff.mp helems
  obtain ⟨e₂, es, rfl, he₂, hes⟩ := List.map_eq_cons_iff.mp hes
  obtain ⟨e₃, es, rfl, he₃, hes⟩ := List.map_eq_cons_iff.mp hes
  obtain rfl := List.map_eq_nil_iff.mp hes
  have htail := mclDefListIterTail_rep hrep (.initializer : ListIter Unit Unit)
  have hl : l.ents = [e₁, e₂] ++ e₃ :: [] := hents
  have hat : AtPos (l.iterTail (.initializer : ListIter Unit Unit)) [e₃] := by
    rw [MclList.iterTail, hl, List.getLast?_concat]
    exact ⟨rfl, rfl⟩
  have hfirst := (mclDefListIterErase_at hrep hl hat).mp (hall m l _ _ _ _ hrep (.tail htail) hl hat.1)
  exact hfirst e₁ (by simp) (he₁.trans he₃.symm)

theorem mclDefListIterErase_last :
    ∃ (m m' : ListMem ℕ ℕ) (l l' : MclList ℕ ℕ) (it it' : ListIter Unit Unit) (freed : Freed ℕ ℕ),
      Rep m l ∧ l.elems = [some 7, some 8] ∧ mclDefListIterTail .initializer m = some it ∧
      mclDefListIterErase it m = some (some it', m', freed) ∧ Rep m' l' ∧ l'.elems = [some 7] ∧
      it'.ptr = none := by
  obtain ⟨m, l, hrep, helems, -⟩ := exists_rep (none : Option ℕ) [some 7, some 8] (by decide)
  obtain ⟨e₁, es, hents, he₁, hes⟩ := List.map_eq_cons_iff.mp helems
  obtain ⟨e₂, es, rfl, he₂, hes⟩ := List.map_eq_cons_iff.mp hes
  obtain rfl := List.map_eq_nil_iff.mp hes
  have htail := mclDefListIterTail_rep hrep (.initializer : ListIter Unit Unit)
  have hl : l.ents = [e₁] ++ e₂ :: [] := hents
  have hptr : (l.iterTail (.initializer : ListIter Unit Unit)).ptr = some e₂.addr := by
    rw [MclList.iterTail, hl, List.getLast?_concat]
    rfl
  have hne : ∀ x ∈ [e₁], x.data ≠ e₂.data := by
    intro x hx
    rw [List.mem_singleton.mp hx, he₁, he₂]
    decide
  obtain ⟨it', m', freed, herase, hrep', hat'⟩ :=
    (mclDefListIterErase_iff hrep (.tail htail) hl hptr).mpr hne
  exact ⟨m, m', l, _, _, it', freed, hrep, helems, htail, herase, hrep', by simp [MclList.elems, he₁], hat'.1⟩

/-- The iterator of a list. -/
def cursor [DecidableEq α] : Cursor (ListMem α φ) (ListIter κ ν) (Option α) (φ × α) where
  atEnd := Iter.isNull
  look := fun it m => (mclDefListIterInfo it m).map fun data => (data, it)
  next := mclDefListIterNext
  erase := fun it m => (mclDefListIterErase it m).map fun (ret, m, freed) => (ret.getD it, m, freed)

theorem listEraseLoop_eq [DecidableEq α] (p : Option α → Bool) (fuel : ℕ) (it : ListIter κ ν) (m : ListMem α φ) :
    listEraseLoop p fuel it m = cursor.eraseLoop p fuel it m := by
  induction fuel generalizing it m with
  | zero => rfl
  | succ fuel ih =>
    rw [listEraseLoop, Cursor.eraseLoop]
    simp only [ih, cursor, Option.bind_eq_bind, Option.bind_map]
    rfl

/-- The memory holds the nodes `kept` and `rest`, and the iterator is in front of `rest`. A node with the
pointer that is erased next is not in `kept`. -/
structure Between (p : Option α → Bool) (l : MclList α φ) (kept rest : List (ListEnt α)) (it : ListIter κ ν)
    (m : ListMem α φ) : Prop where
  rep : Rep m { l with ents := kept ++ rest, listSz := (kept ++ rest).length }
  atPos : AtPos it rest
  kept : ∀ x ∈ kept, p x.data = false

theorem cursor_walks [DecidableEq α] (p : Option α → Bool) (l : MclList α φ) :
    (cursor : Cursor (ListMem α φ) (ListIter κ ν) (Option α) (φ × α)).Walks p (·.data)
      (callFree l.eraseFn ·.data) (Between p l) := by
  constructor
  · intro kept it m h
    rw [show cursor.atEnd it = it.isNull from rfl, Iter.isNull, h.atPos.1]
    rfl
  · intro kept e rest it m h
    constructor
    · rw [show cursor.atEnd it = it.isNull from rfl, Iter.isNull, h.atPos.1]
      rfl
    · have hinfo := iterInfo_at h.rep (show e ∈ kept ++ e :: rest by simp) h.atPos
      simp only [cursor, hinfo, Option.map_some]
  · intro kept e rest it m hp h
    obtain ⟨it', hnext, hat⟩ := iterStep_next h.rep rfl h.atPos
    refine ⟨it', hnext, ?_, hat, ?_⟩
    · rw [← List.append_cons]
      exact h.rep
    · intro x hx
      rcases List.mem_append.mp hx with hx | hx
      · exact h.kept x hx
      · rw [List.mem_singleton.mp hx]
        exact hp
  · intro kept e rest it m hp h
    -- nothing that is kept satisfies p, so the iterator's own node is the first with this pointer
    have hne : ∀ x ∈ kept, (x.data == e.data) = false := by
      intro x hx
      rw [beq_eq_false_iff_ne]
      intro heq
      have hx' := h.kept x hx
      rw [heq, hp] at hx'
      exact absurd hx' (by simp)
    obtain ⟨it', m', herase, hrep, hat⟩ := mclDefListIterErase_rep h.rep rfl h.atPos
    rw [MclList.del_of_hit rfl hne (by simp)] at herase hrep
    refine ⟨it', m', ?_, ?_, hat, h.kept⟩
    · simp only [cursor, herase, Option.map_some, Option.getD_some]
    · have hsz : ((kept ++ e :: rest).length : ℤ) - 1 = (kept ++ rest).length := by
        simp only [List.length_append, List.length_cons]
        omega
      rw [← hsz]
      exact hrep

/-- The loop tests every node once and in order, and leaves those that fail. -/
theorem listEraseIf_rep [DecidableEq α] (h : Rep m l) (hsz : l.listSz = l.ents.length) (p : Option α → Bool)
    (it : ListIter κ ν) :
    ∃ m', listEraseIf p it m = some (l.elems, m', callFrees l.eraseFn (l.elems.filter p)) ∧
      Rep m' { l with
        ents := l.ents.filter (fun x => !p x.data)
        listSz := (l.elems.filter fun x => !p x).length } := by
  have hfuel := h.length_le_brk
  have hbetween : Between p l [] l.ents (l.iterHead it) m := by
    refine ⟨?_, ⟨rfl, rfl⟩, by simp⟩
    rw [List.nil_append, ← hsz]
    exact h
  obtain ⟨it', m', hloop, hend⟩ := (cursor_walks p l).eraseLoop_eq [] hbetween
  have hrounds := hloop (m.brk + 1)
  rw [if_pos (Nat.lt_succ_of_le hfuel)] at hrounds
  have hfreed : (l.ents.filter fun x => p x.data).flatMap (callFree l.eraseFn ·.data) =
      callFrees l.eraseFn (l.elems.filter p) := by
    rw [callFrees, MclList.elems, List.filter_map, List.flatMap_map]
    rfl
  rw [hfreed] at hrounds
  have hcount : (l.ents.filter fun x => !p x.data).length = (l.elems.filter fun x => !p x).length := by
    rw [MclList.elems, List.filter_map, List.length_map]
    rfl
  refine ⟨m', ?_, ?_⟩
  · rw [listEraseIf, mclDefListIterHead_rep h]
    exact (listEraseLoop_eq p _ _ m).trans hrounds
  · rw [← hcount]
    have hrep := hend.rep
    rwa [List.nil_append, List.append_nil] at hrep

/-- The pointer that is erased is stored twice, on both sides of one that stays. -/
theorem listEraseIf_duplicate :
    ∃ (m m' : ListMem ℕ ℕ) (l l' : MclList ℕ ℕ), Rep m l ∧ l.elems = [some 7, some 8, some 7] ∧
      listEraseIf (fun x => x == some 7) (.initializer : ListIter Unit Unit) m =
        some ([some 7, some 8, some 7], m', [(0, 7), (0, 7)]) ∧
      Rep m' l' ∧ l'.elems = [some 8] ∧ l'.listSz = 1 := by
  obtain ⟨m, l, hrep, helems, hsz, hfn⟩ := exists_rep (some 0) [some 7, some 8, some 7] (by decide)
  obtain ⟨m', hcode, hrep'⟩ :=
    listEraseIf_rep hrep hsz (fun x => x == some 7) (.initializer : ListIter Unit Unit)
  rw [helems, hfn] at hcode
  refine ⟨m, m', l, _, hrep, helems, hcode, hrep', ?_, ?_⟩
  · have hmap : (l.ents.filter fun x => !(x.data == some 7)).map (·.data) =
        l.elems.filter fun x => !(x == some 7) := by
      rw [MclList.elems, List.filter_map]
      rfl
    rw [MclList.elems, hmap, helems]
    rfl
  · rw [helems]
    rfl

end Mcl.ListCode
