import Mcl.Util.ArrayRefinement
import Mcl.Util.HashRuns
import Mcl.Util.ListRuns

/-! The destructor that an iterator erase applies, in the three containers. -/
namespace Mcl
open Mcl.Library

variable {α φ ν σ ι κ ρ : Type}

/-- A container: the states its constructor may leave, whatever the memory held that it got from
`malloc`, and its calls. Of an input, `call` is what the caller has chosen. -/
structure Container (σ ι κ ρ α φ : Type) where
  New : σ → Prop
  step : σ → ι → Option (ρ × σ)
  call : ι → κ
  /-- The arguments of `mcl_*_ctrl`. -/
  ctrl : κ → Option (DsCtrlCmd × Option φ)
  /-- The element under the iterator of an erase. -/
  erased : σ → κ → Option (Option α)
  freed : ρ → Freed φ α

/-- A control call with a function; with NULL it is refused. -/
def register (cur : Option φ) : Option (DsCtrlCmd × Option φ) → Option φ
  | some (.registEraseFn, some fn) => some fn
  | some (.unregistEraseFn, some _) => none
  | _ => cur

namespace Container

variable (C : Container σ ι κ ρ α φ)

def started (s : σ) : Machine σ ι ρ := ⟨s, C.step⟩

/-- What the control calls of a run leave of a first value. -/
def registeredFrom (cur : Option φ) (hist : List (ι × ρ)) : Option φ :=
  hist.foldl (fun cur p => register cur (C.ctrl (C.call p.1))) cur

/-- The function most recently registered and not unregistered since. -/
def registered (hist : List (ι × ρ)) : Option φ := C.registeredFrom none hist

def Registers (hist : List (ι × ρ)) : Prop :=
  ∃ p ∈ hist, ∃ cmd fn, C.ctrl (C.call p.1) = some (cmd, some fn)

/-- In the runs from the constructor whose steps all meet `ok`, an erase applies the registered
function and no other, and the answers do not depend on what the memory held. -/
structure LawfulWhen (ok : σ → List (ι × ρ) × σ → ι → Prop) : Prop where
  erases : ∀ s₀, C.New s₀ → ∀ hist x, (C.started s₀).traced.Reach (ok s₀) hist x →
    ∀ i data r s', ok s₀ x i → C.erased x.2 (C.call i) = some data → C.step x.2 i = some (r, s') →
      C.freed r = callFree (C.registered hist) data
  independent : ∀ s₀ t₀, C.New s₀ → C.New t₀ → ∀ hist x,
    (C.started s₀).traced.Reach (fun x i => ok s₀ x i ∧ ok t₀ x i) hist x →
      ∀ js, js.map C.call = hist.map (fun p => C.call p.1) →
        ∃ hist' t, (C.started t₀).run js = some (hist', t) ∧ hist'.map Prod.snd = hist.map Prod.snd

def Lawful : Prop := C.LawfulWhen fun _ _ _ => True

variable {C} {hist : List (ι × ρ)}

theorem registeredFrom_concat (cur : Option φ) (hist : List (ι × ρ)) (p : ι × ρ) :
    C.registeredFrom cur (hist ++ [p]) = register (C.registeredFrom cur hist) (C.ctrl (C.call p.1)) := by
  rw [registeredFrom, registeredFrom, List.foldl_append]
  rfl

/-- A successful control call makes the first value irrelevant. -/
theorem registeredFrom_eq (hist : List (ι × ρ)) (cur : Option φ) :
    C.registeredFrom cur hist = C.registered hist ∨ ¬ C.Registers hist ∧ C.registeredFrom cur hist = cur := by
  induction hist using List.reverseRecOn with
  | nil => exact .inr ⟨fun ⟨p, hp, _⟩ => absurd hp (by simp), rfl⟩
  | append_singleton hist p ih =>
    rw [registered, registeredFrom_concat, registeredFrom_concat]
    rcases ih with ih | ⟨hnot, ih⟩
    · exact .inl (by rw [ih]; rfl)
    · rcases hctrl : C.ctrl (C.call p.1) with _ | ⟨cmd, _ | fn⟩
      · refine .inr ⟨?_, ih⟩
        rintro ⟨q, hq, cmd, fn, hfn⟩
        rcases List.mem_append.mp hq with hq | hq
        · exact hnot ⟨q, hq, cmd, fn, hfn⟩
        · rw [List.mem_singleton.mp hq, hctrl] at hfn
          exact absurd hfn (by simp)
      · refine .inr ⟨?_, by cases cmd <;> exact ih⟩
        rintro ⟨q, hq, cmd', fn, hfn⟩
        rcases List.mem_append.mp hq with hq | hq
        · exact hnot ⟨q, hq, cmd', fn, hfn⟩
        · rw [List.mem_singleton.mp hq, hctrl] at hfn
          exact absurd hfn (by simp)
      · exact .inl (by cases cmd <;> rfl)

/-- `P s f` is to say that `s` has `f` registered. -/
theorem registered_of_reach {P : σ → Option φ → Prop} {s₀ s : σ} {f₀ : Option φ} {ok : σ → ι → Prop}
    (hinit : P s₀ f₀)
    (hstep : ∀ s f i r s', P s f → C.step s i = some (r, s') → P s' (register f (C.ctrl (C.call i))))
    (hr : (C.started s₀).Reach ok hist s) : P s (C.registeredFrom f₀ hist) := by
  induction hr with
  | init => exact hinit
  | step _ _ hs ih =>
    rw [registeredFrom_concat]
    exact hstep _ _ _ _ _ ih hs

/-- A container whose constructor assigns every field. -/
theorem lawful_of_new {P : σ → Option φ → Prop} {n : σ} (hnew : ∀ s, C.New s → s = n)
    (hcall : Function.Injective C.call) (hinit : P n none)
    (hstep : ∀ s f i r s', P s f → C.step s i = some (r, s') → P s' (register f (C.ctrl (C.call i))))
    (herase : ∀ s f i data r s', P s f → C.erased s (C.call i) = some data → C.step s i = some (r, s') →
      C.freed r = callFree f data) : C.Lawful := by
  constructor
  · intro s hs hist x hr i data r s' _ hdata hi
    rw [hnew s hs] at hr
    exact herase _ _ i data r s' (registered_of_reach hinit hstep hr.traced.2) hdata hi
  · intro s t hs ht hist x hr js hjs
    rw [hnew s hs] at hr
    rw [hnew t ht]
    have hsame : js = hist.map Prod.fst := by
      apply List.map_injective_iff.mpr hcall
      rw [hjs, List.map_map]
      rfl
    rw [hsame]
    exact ⟨hist, x.2, hr.traced.2.run, rfl⟩

end Container

/-! Lists. -/
namespace ListCode

/-- The fields as `malloc` returned them, before any node is there. -/
def mallocList (entries : ListHead) (listSz : ℤ) (eraseFn : Option φ) : ListMem α φ :=
  ⟨entries, listSz, eraseFn, fun _ => none, 0⟩

/-- The assignments of `mcl_list_new`. -/
def initList (m : ListMem α φ) : ListMem α φ :=
  { m with listSz := 0, eraseFn := none, entries := ⟨.entries, .entries⟩ }

theorem initList_eq (entries : ListHead) (listSz : ℤ) (eraseFn : Option φ) :
    initList (mallocList entries listSz eraseFn : ListMem α φ) = mclListNew := rfl

inductive ListCall (α φ : Type) where
  | op (op : ListOp α φ)
  | find (data : Option α) (cmpFunc : ListCmpFunc α)
  | ctrl (cmd : DsCtrlCmd) (data : Option φ)
  | iterErase (it : ListIter Unit Unit)

def callList [DecidableEq α] (m : ListMem α φ) : ListCall α φ → Option (Answer α φ × ListMem α φ)
  | .op op => (execList m op).map fun ((ret, freed), m) => (⟨ret, none, freed⟩, m)
  | .find data cmpFunc => (mclListFind data m cmpFunc).map fun found => (⟨0, found, []⟩, m)
  | .ctrl cmd data => some (⟨(mclListCtrl cmd data m).1, none, []⟩, (mclListCtrl cmd data m).2)
  | .iterErase it =>
    (mclDefListIterErase it m).map fun (it, m, freed) => (⟨if it.isSome then 1 else 0, none, freed⟩, m)

/-- The element of the node that an iterator points to. -/
def dataUnder (m : ListMem α φ) (it : ListIter Unit Unit) : Option α :=
  (it.data.bind fun _ => it.ptr.bind fun node => m.datas node).join

def lists [DecidableEq α] : Container (ListMem α φ) (ListCall α φ) (ListCall α φ) (Answer α φ) α φ where
  New m := ∃ entries listSz eraseFn, m = initList (mallocList entries listSz eraseFn)
  step := callList
  call := id
  ctrl
    | .ctrl cmd data => some (cmd, data)
    | _ => none
  erased m
    | .iterErase it => some (dataUnder m it)
    | _ => none
  freed := Answer.freed

variable {m m' : ListMem α φ} {l : MclList α φ}

theorem del_eraseFn (hit : Option α → Bool) (freeFn : Option φ) (l : MclList α φ) :
    (l.del hit freeFn).2.1.eraseFn = l.eraseFn := by
  unfold MclList.del
  cases l.ents.find? (hit ·.data) <;> rfl

theorem listDel_eraseFn [DecidableEq α] (h : Rep m l) {data : Option α} {freeFlag : Bool}
    {cmpFunc : ListCmpFunc α} {freeFn : Option φ} {r : ℤ × ListMem α φ × Freed φ α}
    (hdel : listDel data m freeFlag cmpFunc freeFn = some r) :
    (∃ l', Rep r.2.1 l') ∧ r.2.1.eraseFn = m.eraseFn := by
  obtain ⟨m', hm', hrep⟩ := listDel_rep h data freeFlag cmpFunc freeFn
  rw [hdel] at hm'
  obtain rfl := Option.some.inj hm'
  exact ⟨⟨_, hrep⟩, by rw [hrep.eraseFn, del_eraseFn, h.eraseFn]⟩

theorem execList_eraseFn [DecidableEq α] (h : Rep m l) {op : ListOp α φ} {r : ℤ × Freed φ α}
    (hop : execList m op = some (r, m')) : (∃ l', Rep m' l') ∧ m'.eraseFn = m.eraseFn := by
  cases op with
  | insert data =>
    obtain ⟨m₁, hm₁, hrep⟩ := mclListInsert_rep h data
    simp only [execList, hm₁, Option.map_some, Option.some.injEq, Prod.mk.injEq] at hop
    obtain ⟨-, rfl⟩ := hop
    refine ⟨⟨_, hrep⟩, ?_⟩
    rw [hrep.eraseFn, h.eraseFn, MclList.insert]
    split <;> rfl
  | insertTail data =>
    obtain ⟨m₁, hm₁, hrep⟩ := mclListInsertTail_rep h data
    simp only [execList, hm₁, Option.map_some, Option.some.injEq, Prod.mk.injEq] at hop
    obtain ⟨-, rfl⟩ := hop
    refine ⟨⟨_, hrep⟩, ?_⟩
    rw [hrep.eraseFn, h.eraseFn, MclList.insertTail]
    split <;> rfl
  | delete data freeFn =>
    obtain ⟨x, hx, heq⟩ := Option.map_eq_some_iff.mp hop
    obtain ⟨-, rfl⟩ := Prod.mk.inj heq
    exact listDel_eraseFn h hx
  | delCmp data cmpFunc freeFn =>
    obtain ⟨x, hx, heq⟩ := Option.map_eq_some_iff.mp hop
    obtain ⟨-, rfl⟩ := Prod.mk.inj heq
    exact listDel_eraseFn h hx

theorem mclListCtrl_eraseFn (cmd : DsCtrlCmd) (data : Option φ) (h : Rep m l) :
    (∃ l', Rep (mclListCtrl cmd data m).2 l') ∧
      (mclListCtrl cmd data m).2.eraseFn = register m.eraseFn (some (cmd, data)) := by
  have hset : ∀ f : Option φ, Rep { m with eraseFn := f } { l with eraseFn := f } := fun f =>
    ⟨h.ring, h.data, h.live, h.fresh, h.listSz, rfl⟩
  cases data with
  | none => cases cmd <;> exact ⟨⟨l, h⟩, rfl⟩
  | some fn =>
    cases cmd with
    | registEraseFn => exact ⟨⟨_, hset _⟩, rfl⟩
    | unregistEraseFn => exact ⟨⟨_, hset _⟩, rfl⟩

/-- The node goes that comes first with the data under the iterator. -/
theorem iterErase_freed [DecidableEq α] (h : Rep m l) {it : ListIter Unit Unit}
    {r : Option (ListIter Unit Unit) × ListMem α φ × Freed φ α} (he : mclDefListIterErase it m = some r) :
    (∃ l', Rep r.2.1 l') ∧ r.2.1.eraseFn = m.eraseFn ∧ r.2.2 = callFree m.eraseFn (dataUnder m it) := by
  unfold mclDefListIterErase at he
  unfold dataUnder
  split at he
  · next ent node hent hnode =>
    simp only [Option.bind_eq_bind, Option.bind_eq_some_iff] at he
    obtain ⟨-, -, n, hn, it', -, hdel⟩ := he
    have hdata : m.datas node = some n.data := by rw [ListMem.datas, hn, Option.map_some]
    rw [hent, hnode, Option.bind_some, Option.bind_some, hdata, Option.join_some]
    have hmem : ∃ e ∈ l.ents, delHit n.data none e.data = true := by
      obtain ⟨e, he, rfl⟩ := List.mem_map.mp (h.live node (by rw [hdata]; simp))
      have hsame := (h.data e he).symm.trans hdata
      exact ⟨e, he, by simp [delHit, Option.some.inj hsame]⟩
    obtain ⟨e, he⟩ := Option.isSome_iff_exists.mp
      (List.find?_isSome.mpr hmem : (l.ents.find? fun x => delHit n.data none x.data).isSome)
    have hhit : e.data = n.data := by
      have := List.find?_some he
      simpa [delHit] using this
    cases hfn : m.eraseFn with
    | none =>
      rw [hfn] at hdel
      obtain ⟨m', hm', hrep⟩ := listDel_rep h n.data false none none
      simp only [hm', Option.bind_some] at hdel
      obtain rfl := Option.some.inj hdel
      refine ⟨⟨_, hrep⟩, by rw [hrep.eraseFn, del_eraseFn, ← h.eraseFn, hfn], ?_⟩
      simp only [MclList.del, he, hhit, Bool.false_eq_true, if_false]
    | some fn =>
      rw [hfn] at hdel
      obtain ⟨m', hm', hrep⟩ := listDel_rep h n.data true none (some fn)
      simp only [hm', Option.bind_some] at hdel
      obtain rfl := Option.some.inj hdel
      refine ⟨⟨_, hrep⟩, by rw [hrep.eraseFn, del_eraseFn, ← h.eraseFn, hfn], ?_⟩
      simp only [MclList.del, he, hhit, if_true]
  · next hnone =>
    obtain rfl := Option.some.inj he
    refine ⟨⟨l, h⟩, rfl, ?_⟩
    cases hent : it.data with
    | none => rfl
    | some ent =>
      cases hnode : it.ptr with
      | none => rfl
      | some node => exact absurd hnode (hnone ent node hent)

theorem lists_lawful [DecidableEq α] : (lists : Container (ListMem α φ) _ _ _ α φ).Lawful := by
  refine Container.lawful_of_new (P := fun m f => (∃ l, Rep m l) ∧ m.eraseFn = f) (n := mclListNew)
    ?_ Function.injective_id ⟨⟨_, mclListNew_rep⟩, rfl⟩ ?_ ?_
  · rintro m ⟨entries, listSz, eraseFn, rfl⟩
    exact initList_eq entries listSz eraseFn
  · rintro m f call r m' ⟨⟨l, hrep⟩, rfl⟩ hs
    cases call with
    | op op =>
      obtain ⟨⟨r', m''⟩, hop, heq⟩ := Option.map_eq_some_iff.mp hs
      obtain ⟨-, rfl⟩ := Prod.mk.inj heq
      exact execList_eraseFn hrep hop
    | find data cmpFunc =>
      obtain ⟨found, -, heq⟩ := Option.map_eq_some_iff.mp hs
      obtain ⟨-, rfl⟩ := Prod.mk.inj heq
      exact ⟨⟨l, hrep⟩, rfl⟩
    | ctrl cmd data =>
      obtain ⟨-, rfl⟩ := Prod.mk.inj (Option.some.inj hs)
      exact mclListCtrl_eraseFn cmd data hrep
    | iterErase it =>
      obtain ⟨r', herase, heq⟩ := Option.map_eq_some_iff.mp hs
      obtain ⟨-, rfl⟩ := Prod.mk.inj heq
      obtain ⟨hrep', hfn, -⟩ := iterErase_freed hrep herase
      exact ⟨hrep', hfn⟩
  · rintro m f call data r m' ⟨⟨l, hrep⟩, rfl⟩ hdata hs
    cases call with
    | iterErase it =>
      obtain ⟨r', herase, heq⟩ := Option.map_eq_some_iff.mp hs
      obtain ⟨rfl, -⟩ := Prod.mk.inj heq
      obtain rfl := Option.some.inj hdata
      exact (iterErase_freed hrep herase).2.2
    | op op => exact absurd hdata (by simp [lists])
    | find data cmpFunc => exact absurd hdata (by simp [lists])
    | ctrl cmd data => exact absurd hdata (by simp [lists])

end ListCode

/-! Hash tables. -/

/-- The fields as `malloc` returned them, with the pointers that the block for `_tables` held. -/
def mallocHash (tables : ℕ → Option (MclList (HashPair ν) φ)) (maxHashSize : ℕ) (keyType : DataType)
    (eraseFn : Option φ) : Hash ν φ :=
  ⟨fun i => if i < mclHashMaxSize then tables i else none, maxHashSize, keyType, eraseFn, 0⟩

/-- The assignments of `mcl_hash_new`, with the loop of `init_hash_tables`. -/
def initHash (type : DataType) (ht : Hash ν φ) : Hash ν φ :=
  let ht := { ht with maxHashSize := mclHashMaxSize, keyType := type, eraseFn := none }
  { ht with tables := fun i => if i < ht.maxHashSize then none else ht.tables i }

theorem initHash_eq (type keyType : DataType) (tables : ℕ → Option (MclList (HashPair ν) φ))
    (maxHashSize : ℕ) (eraseFn : Option φ) :
    initHash type (mallocHash tables maxHashSize keyType eraseFn) = Hash.new type := by
  unfold initHash mallocHash Hash.new
  dsimp only
  congr 1
  funext i
  by_cases hi : i < mclHashMaxSize
  · exact if_pos hi
  · exact (if_neg hi).trans (if_neg hi)

/-- The value of the pair that an iterator points to. -/
def valUnder (ht : Hash ν φ) (it : HashIter ν) : Option ν := do
  guard (cursorOk it ht = true)
  let list ← ht.tables it.cursor.toNat
  let pair ← list.iterInfo it
  pair.bind (·.val)

def hashes [DecidableEq ν] (type : DataType) :
    Container (Option (Hash ν φ)) (HashOp ν φ) (HashOp ν φ) (Answer ν φ) ν φ where
  New s := ∃ tables maxHashSize keyType eraseFn,
    s = some (initHash type (mallocHash tables maxHashSize keyType eraseFn))
  step := execHash
  call := id
  ctrl
    | .ctrl cmd data => some (cmd, data)
    | _ => none
  erased s
    | .iterErase it => some (s.bind (valUnder · it))
    | _ => none
  freed := Answer.freed

section
variable [DecidableEq ν] {ht ht' : Hash ν φ}

omit [DecidableEq ν] in
theorem cleanLoop_eraseFn (freeFn : Option φ) (n i : ℕ) (ht : Hash ν φ) :
    (cleanLoop freeFn n i ht).1.eraseFn = ht.eraseFn := by
  induction n generalizing i ht with
  | zero => rfl
  | succ n ih =>
    unfold cleanLoop
    split
    · exact ih _ _
    · exact ih _ _

theorem doHashInsert_eraseFn (hash : ℤ) (pair : HashPair ν) (ht : Hash ν φ) (subFlg : Bool)
    (freeFn : Option φ) : (doHashInsert hash pair ht subFlg freeFn).2.1.eraseFn = ht.eraseFn := by
  unfold doHashInsert
  split
  · rfl
  · dsimp only
    split
    · split <;> rfl
    · rfl

theorem hashDelete_eraseFn (hash : ℤ) (key : HashKey) (ht : Hash ν φ) (freeFn : Option φ) :
    (hashDelete hash key ht freeFn).2.1.eraseFn = ht.eraseFn := by
  unfold hashDelete
  split
  · rfl
  · split
    · rfl
    · split <;> rfl

theorem hashInsert_eraseFn {key : HashKey} {data : Option ν} {subFlg : Bool} {freeFn : Option φ}
    {r : ℤ × Hash ν φ × Freed φ ν} (h : hashInsert key data ht subFlg freeFn = some r) :
    r.2.1.eraseFn = ht.eraseFn := by
  cases data with
  | none =>
    obtain rfl := Option.some.inj h
    rfl
  | some data =>
    simp only [hashInsert, Option.bind_eq_bind, Option.bind_eq_some_iff, Option.some.injEq] at h
    obtain ⟨-, -, rfl⟩ := h
    exact doHashInsert_eraseFn _ _ _ _ _

theorem execKey_eraseFn {op : MapOp HashKey ν φ} {ans : Answer ν φ}
    (h : execKey ht op = some (ans, ht')) : ht'.eraseFn = ht.eraseFn := by
  cases op with
  | insert key data freeFn =>
    obtain ⟨r, hr, heq⟩ := Option.map_eq_some_iff.mp h
    obtain ⟨-, rfl⟩ := Prod.mk.inj heq
    exact hashInsert_eraseFn hr
  | insertSafe key data =>
    obtain ⟨r, hr, heq⟩ := Option.map_eq_some_iff.mp h
    obtain ⟨-, rfl⟩ := Prod.mk.inj heq
    exact hashInsert_eraseFn hr
  | delete key freeFn =>
    simp only [execKey, Option.bind_eq_bind, Option.bind_eq_some_iff, Option.some.injEq] at h
    obtain ⟨-, -, heq⟩ := h
    obtain ⟨-, rfl⟩ := Prod.mk.inj heq
    exact hashDelete_eraseFn _ _ _ _
  | find key =>
    simp only [execKey, Option.bind_eq_bind, Option.bind_eq_some_iff, Option.some.injEq] at h
    obtain ⟨-, -, heq⟩ := h
    obtain ⟨-, rfl⟩ := Prod.mk.inj heq
    rfl
  | clean freeFn =>
    obtain ⟨-, rfl⟩ := Prod.mk.inj (Option.some.inj h)
    exact cleanLoop_eraseFn _ _ _ _

theorem defHashIterErase_freed {it it' : HashIter ν} {freed : Freed φ ν}
    (h : defHashIterErase it ht = some (it', ht', freed)) :
    ht'.eraseFn = ht.eraseFn ∧ freed = callFree ht.eraseFn (valUnder ht it) := by
  unfold defHashIterErase at h
  unfold valUnder
  split at h
  · next hout =>
    simp only [Option.some.injEq, Prod.mk.injEq] at h
    obtain ⟨-, rfl, rfl⟩ := h
    rw [Bool.not_eq_true'] at hout
    rw [hout]
    exact ⟨rfl, rfl⟩
  · next hin =>
    rw [Bool.not_eq_true', Bool.not_eq_false] at hin
    simp only [hin, guard_true, Option.bind_eq_bind, Option.pure_def, Option.bind_some]
    dsimp only at h
    split at h
    · next hnone =>
      simp only [Option.some.injEq, Prod.mk.injEq] at h
      obtain ⟨-, rfl, rfl⟩ := h
      rw [hnone]
      exact ⟨rfl, rfl⟩
    · next list hlist =>
      simp only [Option.bind_eq_bind, Option.bind_eq_some_iff] at h
      obtain ⟨pair, hinfo, it'', -, h⟩ := h
      rw [hlist, Option.bind_some, hinfo, Option.bind_some]
      cases pair with
      | none =>
        simp only [Option.some.injEq, Prod.mk.injEq] at h
        obtain ⟨-, rfl, rfl⟩ := h
        exact ⟨rfl, rfl⟩
      | some pair =>
        simp only [Option.some.injEq, Prod.mk.injEq] at h
        obtain ⟨-, rfl, rfl⟩ := h
        exact ⟨rfl, rfl⟩

theorem hashes_lawful (type : DataType) :
    (hashes type : Container (Option (Hash ν φ)) _ _ _ ν φ).Lawful := by
  refine Container.lawful_of_new (P := fun s f => ∀ ht, s = some ht → ht.eraseFn = f)
    (n := some (Hash.new type)) ?_ Function.injective_id ?_ ?_ ?_
  · rintro s ⟨tables, maxHashSize, keyType, eraseFn, rfl⟩
    rw [initHash_eq]
  · rintro ht ⟨⟩
    rfl
  · rintro s f op ans s' hP hs ht' rfl
    cases s with
    | none => exact absurd hs (by simp [hashes, execHash])
    | some ht =>
      obtain rfl := hP ht rfl
      cases op with
      | call op =>
        obtain ⟨⟨ans', ht''⟩, hcall, heq⟩ := Option.map_eq_some_iff.mp hs
        obtain ⟨-, heq⟩ := Prod.mk.inj heq
        obtain rfl := Option.some.inj heq
        exact execKey_eraseFn hcall
      | ctrl cmd data =>
        obtain ⟨-, heq⟩ := Prod.mk.inj (Option.some.inj hs)
        obtain rfl := Option.some.inj heq
        cases data with
        | none => cases cmd <;> rfl
        | some fn => cases cmd <;> rfl
      | iterErase it =>
        simp only [hashes, execHash, Option.bind_eq_bind, Option.bind_eq_some_iff, Prod.exists,
          Option.some.injEq, Prod.mk.injEq] at hs
        obtain ⟨it', ht'', freed, herase, -, rfl⟩ := hs
        exact (defHashIterErase_freed herase).1
      | destroy freeFn =>
        obtain ⟨-, heq⟩ := Prod.mk.inj (Option.some.inj hs)
        exact absurd heq (by simp)
  · rintro s f op data ans s' hP hdata hs
    cases s with
    | none => exact absurd hs (by simp [hashes, execHash])
    | some ht =>
      obtain rfl := hP ht rfl
      cases op with
      | iterErase it =>
        simp only [hashes, execHash, Option.bind_eq_bind, Option.bind_eq_some_iff, Prod.exists,
          Option.some.injEq, Prod.mk.injEq] at hs
        obtain ⟨it', ht'', freed, herase, rfl, -⟩ := hs
        obtain rfl := Option.some.inj hdata
        exact (defHashIterErase_freed herase).2
      | call op => exact absurd hdata (by simp [hashes])
      | ctrl cmd data => exact absurd hdata (by simp [hashes])
      | destroy freeFn => exact absurd hdata (by simp [hashes])

end

/-! Arrays: the constructor assigns every field but `erase_fn`. -/

abbrev ElemCall (α φ : Type) := { call : ArrayCall α φ // call ≠ .tighten }

/-- An input carries what the memory holds that the call may allocate. -/
def arrays [DecidableEq α] (initSize : BitVec 32) :
    Container (MclArray α φ) (ElemCall α φ × (ℕ → Option α)) (ElemCall α φ) (ArrayAnswer α φ) α φ where
  New a := ∃ junk eraseJunk, mclArrayNew initSize junk eraseJunk = some (some a)
  step a i := callArray a i.2 i.1.1
  call := Prod.fst
  ctrl call :=
    match call.1 with
    | .ctrl cmd data => some (cmd, data)
    | _ => none
  erased a call :=
    match call.1 with
    | .iterErase iter => some (a.model.itemUnder iter)
    | _ => none
  freed := ArrayAnswer.freed

namespace MclArray

variable [DecidableEq α] {a b a' : MclArray α φ} {initSize : BitVec 32}

/-- An erase of an element comes after a successful control call, or the memory happened to hold NULL. -/
def DestructorKnown (initSize : BitVec 32) (a₀ : MclArray α φ)
    (x : List ((ElemCall α φ × (ℕ → Option α)) × ArrayAnswer α φ) × MclArray α φ)
    (i : ElemCall α φ × (ℕ → Option α)) : Prop :=
  ∀ data, (arrays initSize).erased x.2 i.1 = some (some data) →
    a₀.eraseFn = none ∨ (arrays initSize : Container (MclArray α φ) _ _ _ α φ).Registers x.1

theorem callModel_of_callArray (h : a.Placed) (call : ElemCall α φ) {junk : ℕ → Option α}
    {r : ArrayAnswer α φ} (hs : callArray a junk call.1 = some (r, a')) :
    a'.Placed ∧ callModel a.model call.1 = some (r, a'.model) := by
  obtain ⟨hmodel, hplaced⟩ := callArray_refines h call.2 junk
  rw [hs] at hmodel hplaced
  exact ⟨hplaced _ rfl, hmodel.symm⟩

theorem callArray_of_callModel (h : a.Placed) (call : ElemCall α φ) (junk : ℕ → Option α)
    {r : ArrayAnswer α φ} {m : ArrayModel α φ} (hm : callModel a.model call.1 = some (r, m)) :
    ∃ a', callArray a junk call.1 = some (r, a') ∧ a'.Placed ∧ a'.model = m := by
  obtain ⟨hmodel, hplaced⟩ := callArray_refines h call.2 junk
  rw [hm] at hmodel
  obtain ⟨⟨r', a'⟩, hs, heq⟩ := Option.map_eq_some_iff.mp hmodel
  obtain ⟨rfl, hm'⟩ := Prod.mk.inj heq
  exact ⟨a', hs, hplaced _ hs, hm'⟩

/-- The state of a run: the block, and the field that only the control calls assign. -/
def Holds (a : MclArray α φ) (f : Option φ) : Prop := a.Placed ∧ a.eraseFn = f

theorem Holds.step {f : Option φ} {i : ElemCall α φ × (ℕ → Option α)} {r : ArrayAnswer α φ}
    (h : a.Holds f) (hs : (arrays initSize).step a i = some (r, a')) :
    a'.Holds (register f ((arrays initSize).ctrl i.1)) := by
  obtain ⟨⟨call, hcall⟩, junk⟩ := i
  obtain ⟨hplaced, rfl⟩ := h
  obtain ⟨hplaced', hmodel⟩ := callModel_of_callArray hplaced ⟨call, hcall⟩ hs
  refine ⟨hplaced', ?_⟩
  by_cases hctrl : ∃ cmd data, call = .ctrl cmd data
  · obtain ⟨cmd, data, rfl⟩ := hctrl
    obtain ⟨-, heq⟩ := Prod.mk.inj (Option.some.inj hmodel)
    change a'.model.eraseFn = register a.eraseFn (some (cmd, data))
    rw [← heq]
    cases data with
    | none => cases cmd <;> rfl
    | some fn => cases cmd <;> rfl
  · have hsame := callModel_eraseFn hmodel fun cmd data hc => hctrl ⟨cmd, data, hc⟩
    have hnone : (arrays initSize : Container (MclArray α φ) _ _ _ α φ).ctrl ⟨call, hcall⟩ = none := by
      cases call with
      | ctrl cmd data => exact absurd ⟨cmd, data, rfl⟩ hctrl
      | _ => rfl
    rw [hnone]
    exact hsame

theorem Holds.erase {f : Option φ} {i : ElemCall α φ × (ℕ → Option α)} {r : ArrayAnswer α φ}
    {data : Option α} (h : a.Holds f) (hdata : (arrays initSize).erased a i.1 = some data)
    (hs : (arrays initSize).step a i = some (r, a')) : r.freed = callFree f data := by
  obtain ⟨⟨call, hcall⟩, junk⟩ := i
  obtain ⟨hplaced, rfl⟩ := h
  obtain ⟨-, hmodel⟩ := callModel_of_callArray hplaced ⟨call, hcall⟩ hs
  cases call with
  | iterErase iter =>
    obtain rfl := Option.some.inj hdata
    have hset := callModel_iterErase a.model iter a.eraseFn
    rw [show a.model.setErase a.eraseFn = a.model from rfl] at hset
    change callModel a.model (.iterErase iter) = _ at hmodel
    rw [hmodel, Option.map_some, Option.some.injEq, Prod.mk.injEq] at hset
    rw [hset.1]
  | _ => exact absurd hdata (by simp [arrays])

/-- Two arrays that differ in the slots outside and in `erase_fn` only. -/
def Alike (a b : MclArray α φ) : Prop := b.Placed ∧ b.model = a.model.setErase b.eraseFn

theorem Alike.step {f g : Option φ} {i j : ElemCall α φ × (ℕ → Option α)} {r : ArrayAnswer α φ}
    (ha : a.Holds f) (hb : b.Holds g) (hab : a.Alike b) (hij : j.1 = i.1)
    (hknown : ∀ data, (arrays initSize).erased a i.1 = some data → callFree f data = callFree g data)
    (hs : (arrays initSize).step a i = some (r, a')) :
    ∃ b', (arrays initSize).step b j = some (r, b') ∧ a'.Alike b' := by
  obtain ⟨⟨call, hcall⟩, junk⟩ := i
  obtain ⟨call', junk'⟩ := j
  obtain rfl : call' = ⟨call, hcall⟩ := hij
  have hfreed : ∀ data, (arrays initSize).erased a ⟨call, hcall⟩ = some data → r.freed = callFree g data :=
    fun data hdata => (ha.erase (i := (⟨call, hcall⟩, junk)) hdata hs).trans (hknown data hdata)
  obtain ⟨hplaced, -⟩ := ha
  obtain ⟨hbplaced, rfl⟩ := hb
  obtain ⟨-, hbm⟩ := hab
  obtain ⟨hplaced', hmodel⟩ := callModel_of_callArray hplaced ⟨call, hcall⟩ hs
  have hsame : ∃ f', callModel b.model call = some (r, a'.model.setErase f') := by
    rw [hbm]
    by_cases hctrl : ∃ cmd data, call = .ctrl cmd data
    · obtain ⟨cmd, data, rfl⟩ := hctrl
      rw [callModel_ctrl, hmodel]
      exact ⟨_, rfl⟩
    · by_cases herase : ∃ iter, call = .iterErase iter
      · obtain ⟨iter, rfl⟩ := herase
        rw [callModel_iterErase, hmodel, ← hfreed _ rfl]
        exact ⟨_, rfl⟩
      · rw [callModel_setErase (fun cmd data hc => hctrl ⟨cmd, data, hc⟩) (fun iter hc => herase ⟨iter, hc⟩),
          hmodel]
        exact ⟨_, rfl⟩
  obtain ⟨f', hf'⟩ := hsame
  obtain ⟨b', hb', hbplaced', hbm'⟩ := callArray_of_callModel hbplaced ⟨call, hcall⟩ junk' hf'
  refine ⟨b', hb', hbplaced', ?_⟩
  have hfn : b'.eraseFn = f' := congrArg ArrayModel.eraseFn hbm'
  rw [hfn]
  exact hbm'

theorem registeredFrom_known {a₀ : MclArray α φ} {hist : List ((ElemCall α φ × (ℕ → Option α)) × ArrayAnswer α φ)}
    {i : ElemCall α φ × (ℕ → Option α)} (hok : DestructorKnown initSize a₀ (hist, a) i) {data : Option α}
    (hdata : (arrays initSize).erased a i.1 = some data) :
    callFree ((arrays initSize : Container (MclArray α φ) _ _ _ α φ).registeredFrom a₀.eraseFn hist) data =
      callFree ((arrays initSize : Container (MclArray α φ) _ _ _ α φ).registered hist) data := by
  cases data with
  | none => rfl
  | some d =>
    rcases hok d hdata with hnull | hreg
    · rw [hnull]
      rfl
    · rcases Container.registeredFrom_eq hist a₀.eraseFn with heq | ⟨hnot, -⟩
      · rw [heq]
      · exact absurd hreg hnot

theorem new_holds {a₀ : MclArray α φ} (h : (arrays initSize).New a₀) : a₀.Holds a₀.eraseFn := by
  obtain ⟨junk, eraseJunk, hnew⟩ := h
  exact ⟨(new_placed hnew).1, rfl⟩

theorem new_alike {a₀ b₀ : MclArray α φ} (ha : (arrays initSize).New a₀) (hb : (arrays initSize).New b₀) :
    a₀.Alike b₀ := by
  obtain ⟨junk, eraseJunk, ha⟩ := ha
  obtain ⟨junk', eraseJunk', hb⟩ := hb
  obtain ⟨-, ha⟩ := new_placed ha
  obtain ⟨hplaced, hb⟩ := new_placed hb
  refine ⟨hplaced, ?_⟩
  rw [ha, hb, show b₀.eraseFn = eraseJunk' from congrArg ArrayModel.eraseFn hb]
  rfl

theorem arrays_lawful (initSize : BitVec 32) :
    (arrays initSize : Container (MclArray α φ) _ _ _ α φ).LawfulWhen (DestructorKnown initSize) := by
  constructor
  · intro a₀ hnew hist x hr i data r a' hok hdata hs
    obtain ⟨hist', a⟩ := x
    obtain ⟨rfl, hreach⟩ := hr.traced
    have hholds : a.Holds _ :=
      Container.registered_of_reach (P := Holds) (new_holds hnew) (fun _ _ _ _ _ => Holds.step) hreach
    exact (hholds.erase hdata hs).trans (registeredFrom_known hok hdata)
  · intro a₀ b₀ ha hb hist x hr js hjs
    let C : Container (MclArray α φ) _ _ _ α φ := arrays initSize
    let R := fun h (a b : MclArray α φ) => a.Holds (C.registeredFrom a₀.eraseFn h) ∧
      b.Holds (C.registeredFrom b₀.eraseFn h) ∧ a.Alike b
    have hstep : ∀ h a b i j r a', R h a b →
        (DestructorKnown initSize a₀ (h, a) i ∧ DestructorKnown initSize b₀ (h, a) i) →
        C.step a i = some (r, a') → C.call j = C.call i →
        ∃ b', C.step b j = some (r, b') ∧ R (h ++ [(i, r)]) a' b' := by
      rintro h a b i j r a' ⟨hah, hbh, hab⟩ ⟨hoka, hokb⟩ hs hij
      obtain ⟨b', hb', hab'⟩ := Alike.step hah hbh hab hij
        (fun data hdata => (registeredFrom_known hoka hdata).trans (registeredFrom_known hokb hdata).symm) hs
      refine ⟨b', hb', ?_, ?_, hab'⟩
      · rw [Container.registeredFrom_concat]
        exact hah.step hs
      · rw [Container.registeredFrom_concat, show C.call i = C.call j from hij.symm]
        exact hbh.step hb'
    have hinit : R [] a₀ b₀ := ⟨new_holds ha, new_holds hb, new_alike ha hb⟩
    obtain ⟨hist', b, hrun, hans, -⟩ := Machine.Reach.followed (N := C.started b₀) hinit hstep hr hjs
    exact ⟨hist', b, hrun, hans⟩

end MclArray

/-- Lists and hash tables always, arrays when the destructor is known. -/
theorem containers_erase_registered [DecidableEq α] :
    (∀ initSize, (arrays initSize : Container (MclArray α φ) _ _ _ α φ).LawfulWhen
      (MclArray.DestructorKnown initSize)) ∧
    (ListCode.lists : Container (ListCode.ListMem α φ) _ _ _ α φ).Lawful ∧
    ∀ type, (hashes type : Container (Option (Hash α φ)) _ _ _ α φ).Lawful :=
  ⟨MclArray.arrays_lawful, ListCode.lists_lawful, hashes_lawful⟩

/-- A new array whose memory held the function 7 applies it to the first element erased. -/
theorem array_erase_unregistered :
    ¬ ((∀ initSize, (arrays initSize : Container (MclArray ℕ ℕ) _ _ _ ℕ ℕ).Lawful) ∧
      (ListCode.lists : Container (ListCode.ListMem ℕ ℕ) _ _ _ ℕ ℕ).Lawful ∧
      ∀ type, (hashes type : Container (Option (Hash ℕ ℕ)) _ _ _ ℕ ℕ).Lawful) := by
  intro hall
  obtain ⟨a₀, hnew⟩ : ∃ a₀ : MclArray ℕ ℕ, mclArrayNew 0 (fun _ => none) (some 7) = some (some a₀) := ⟨_, rfl⟩
  obtain ⟨hplaced₀, hmodel₀⟩ := MclArray.new_placed hnew
  let append : ElemCall ℕ ℕ := ⟨.append (some 3), by simp⟩
  let erase : ElemCall ℕ ℕ := ⟨.iterErase .initializer, by simp⟩
  have happend : callModel a₀.model append.1 = some (.ofRet 0, ⟨[some 3], 64, some 7⟩) := by
    rw [hmodel₀]
    rfl
  obtain ⟨a, ha, hplaced, hmodel⟩ :=
    MclArray.callArray_of_callModel hplaced₀ append (fun _ => none) happend
  have herase : ∃ r m, callModel a.model erase.1 = some (r, m) ∧ r.freed = [(7, 3)] := by
    rw [hmodel]
    exact ⟨_, _, rfl, rfl⟩
  obtain ⟨r, m, hm, hfreed⟩ := herase
  obtain ⟨a', ha', -, -⟩ := MclArray.callArray_of_callModel hplaced erase (fun _ => none) hm
  have hunder : a.model.itemUnder .initializer = some 3 := by
    rw [hmodel]
    rfl
  have hlaw := (hall.1 0).erases a₀ ⟨_, _, hnew⟩ [((append, fun _ => none), .ofRet 0)]
    ([((append, fun _ => none), .ofRet 0)], a)
    (Machine.Reach.step .init trivial (Machine.traced_step.mpr ⟨ha, rfl⟩))
    (erase, fun _ => none) (some 3) r a' trivial (congrArg some hunder) ha'
  change r.freed = [] at hlaw
  rw [hfreed] at hlaw
  exact absurd hlaw (by simp)

end Mcl
