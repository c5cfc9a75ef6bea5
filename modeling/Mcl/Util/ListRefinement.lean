import Mathlib.Data.List.Nodup
import Mathlib.Data.List.Perm.Subperm
import Mcl.Library.Ring
import Mcl.Util.ListModel
import Mcl.Util.ListCode

/-! The pointer code of `mcl_list.c` implements the list its callers see. -/
namespace Mcl.ListCode
open Mcl.Library

variable {α φ κ ν : Type}

namespace ListMem

def links (m : ListMem α φ) : Links Ent where
  next e := (m.head e).map (·.next)
  prev e := (m.head e).map (·.prev)

/-- `_data` of the allocated nodes. -/
def datas (m : ListMem α φ) (a : Addr) : Option (Option α) := (m.nodes a).map (·.data)

/-- `m'` differs from `m` in links only. -/
structure SameData (m m' : ListMem α φ) : Prop where
  datas : m'.datas = m.datas
  listSz : m'.listSz = m.listSz
  eraseFn : m'.eraseFn = m.eraseFn
  brk : m'.brk = m.brk

theorem SameData.trans {m₁ m₂ m₃ : ListMem α φ} (h : SameData m₁ m₂) (h' : SameData m₂ m₃) :
    SameData m₁ m₃ :=
  ⟨h'.datas.trans h.datas, h'.listSz.trans h.listSz, h'.eraseFn.trans h.eraseFn,
    h'.brk.trans h.brk⟩

/-- An entry that may be read and written. -/
def Live (m : ListMem α φ) (e : Ent) : Prop := ∃ h, m.head e = some h

theorem live_entries (m : ListMem α φ) : m.Live .entries := ⟨m.entries, rfl⟩

theorem live_node {m : ListMem α φ} {a : Addr} : m.Live (.node a) ↔ m.datas a ≠ none := by
  cases h : m.nodes a <;> simp [Live, head, ListMem.datas, h]

theorem SameData.live {m m' : ListMem α φ} (h : SameData m m') {e : Ent} (he : m.Live e) :
    m'.Live e := by
  cases e with
  | entries => exact live_entries m'
  | node a => rw [live_node] at he ⊢; rwa [h.datas]

theorem setHead_spec {m : ListMem α φ} {e : Ent} (he : m.Live e) (f : ListHead → ListHead) :
    ∃ m', m.setHead e f = some m' ∧ SameData m m' ∧
      m'.head = Function.update m.head e ((m.head e).map f) := by
  cases e with
  | entries =>
    refine ⟨_, rfl, ⟨rfl, rfl, rfl, rfl⟩, ?_⟩
    funext e
    cases e <;> simp [head, Function.update]
  | node a =>
    obtain ⟨h, hh⟩ := he
    simp only [head, Option.map_eq_some_iff] at hh
    obtain ⟨n, hn, rfl⟩ := hh
    refine ⟨{ m with nodes := Function.update m.nodes a (some { n with entry := f n.entry }) },
      by simp [setHead, hn], ?_, ?_⟩
    · refine ⟨?_, rfl, rfl, rfl⟩
      funext b
      by_cases hb : b = a
      · subst hb; simp [datas, hn]
      · simp [datas, Function.update_of_ne hb]
    · funext e
      cases e with
      | entries => simp [head]
      | node b =>
        by_cases hb : b = a
        · subst hb; simp [head, hn]
        · simp [head, hb]

theorem setNext_spec {m : ListMem α φ} {e : Ent} (he : m.Live e) (n : Ent) :
    ∃ m', m.setNext e n = some m' ∧ SameData m m' ∧
      m'.links.next = Function.update m.links.next e (some n) ∧ m'.links.prev = m.links.prev := by
  obtain ⟨m', hm, hs, hh⟩ := setHead_spec he (fun h => { h with next := n })
  obtain ⟨h, he⟩ := he
  refine ⟨m', hm, hs, ?_, ?_⟩ <;> funext b <;> by_cases hb : b = e
  · subst hb; simp [links, hh, he]
  · simp [links, hh, hb]
  · subst hb; simp [links, hh, he]
  · simp [links, hh, hb]

theorem setPrev_spec {m : ListMem α φ} {e : Ent} (he : m.Live e) (p : Ent) :
    ∃ m', m.setPrev e p = some m' ∧ SameData m m' ∧
      m'.links.prev = Function.update m.links.prev e (some p) ∧ m'.links.next = m.links.next := by
  obtain ⟨m', hm, hs, hh⟩ := setHead_spec he (fun h => { h with prev := p })
  obtain ⟨h, he⟩ := he
  refine ⟨m', hm, hs, ?_, ?_⟩ <;> funext b <;> by_cases hb : b = e
  · subst hb; simp [links, hh, he]
  · simp [links, hh, hb]
  · subst hb; simp [links, hh, he]
  · simp [links, hh, hb]

theorem malloc_datas (m : ListMem α φ) (data : Option α) :
    (m.malloc data).2.datas = Function.update m.datas m.brk (some data) := by
  funext a
  by_cases ha : a = m.brk
  · subst ha; simp [malloc, datas]
  · simp [malloc, datas, Function.update_of_ne ha]

theorem malloc_head {m : ListMem α φ} {data : Option α} {e : Ent} (he : e ≠ .node m.brk) :
    (m.malloc data).2.head e = m.head e := by
  cases e with
  | entries => rfl
  | node a =>
    have ha : a ≠ m.brk := fun hc => he (hc ▸ rfl)
    simp [malloc, head, Function.update_of_ne ha]

theorem malloc_live {m : ListMem α φ} {data : Option α} {e : Ent} (he : m.Live e) :
    (m.malloc data).2.Live e := by
  by_cases hb : e = .node m.brk
  · subst hb
    exact live_node.mpr (by rw [malloc_datas]; simp)
  · obtain ⟨x, hx⟩ := he
    exact ⟨x, (malloc_head hb).trans hx⟩

theorem free_datas (m : ListMem α φ) (a : Addr) :
    (m.free a).datas = Function.update m.datas a none := by
  funext b
  by_cases hb : b = a
  · subst hb; simp [free, datas]
  · simp [free, datas, Function.update_of_ne hb]

theorem free_head {m : ListMem α φ} {a : Addr} {e : Ent} (he : e ≠ .node a) :
    (m.free a).head e = m.head e := by
  cases e with
  | entries => rfl
  | node b =>
    have hb : b ≠ a := fun hc => he (hc ▸ rfl)
    simp [free, head, Function.update_of_ne hb]

theorem free_next {m : ListMem α φ} {a : Addr} {e : Ent} (he : e ≠ .node a) :
    (m.free a).links.next e = m.links.next e := congrArg (Option.map _) (free_head he)

theorem free_prev {m : ListMem α φ} {a : Addr} {e : Ent} (he : e ≠ .node a) :
    (m.free a).links.prev e = m.links.prev e := congrArg (Option.map _) (free_head he)

theorem head_of_links {m : ListMem α φ} {e p n : Ent} (hp : m.links.prev e = some p)
    (hn : m.links.next e = some n) : m.head e = some ⟨p, n⟩ := by
  simp only [links, Option.map_eq_some_iff] at hp hn
  obtain ⟨h, hh, rfl⟩ := hp
  obtain ⟨h', hh', rfl⟩ := hn
  rw [hh] at hh' ⊢
  rw [Option.some.inj hh']

end ListMem
open ListMem

theorem listInsertBetween_spec {m : ListMem α φ} {e p n : Ent} (he : m.Live e) (hp : m.Live p)
    (hn : m.Live n) (hep : e ≠ p) (hen : e ≠ n) :
    ∃ m', listInsertBetween e p n m = some m' ∧ SameData m m' ∧
      m'.links.Adjacent p e ∧ m'.links.Adjacent e n ∧
      (∀ a, a ≠ p → a ≠ e → m'.links.next a = m.links.next a) ∧
      (∀ b, b ≠ n → b ≠ e → m'.links.prev b = m.links.prev b) := by
  obtain ⟨m₁, h₁, s₁, p₁, n₁⟩ := setPrev_spec he p
  obtain ⟨m₂, h₂, s₂, n₂, p₂⟩ := setNext_spec (s₁.live he) n
  have s₁₂ := s₁.trans s₂
  obtain ⟨m₃, h₃, s₃, p₃, n₃⟩ := setPrev_spec (s₁₂.live hn) e
  have s₁₃ := s₁₂.trans s₃
  obtain ⟨m₄, h₄, s₄, n₄, p₄⟩ := setNext_spec (s₁₃.live hp) e
  refine ⟨m₄, by simp [listInsertBetween, h₁, h₂, h₃, h₄], s₁₃.trans s₄, ⟨?_, ?_⟩, ⟨?_, ?_⟩, ?_, ?_⟩
  · rw [n₄, Function.update_self]
  · rw [p₄, p₃, Function.update_of_ne hen, p₂, p₁, Function.update_self]
  · rw [n₄, Function.update_of_ne hep, n₃, n₂, Function.update_self]
  · rw [p₄, p₃, Function.update_self]
  · intro a ha hae
    rw [n₄, Function.update_of_ne ha, n₃, n₂, Function.update_of_ne hae, n₁]
  · intro b hb hbe
    rw [p₄, p₃, Function.update_of_ne hb, p₂, p₁, Function.update_of_ne hbe]

/-- The ring position of the first of `es`: its node, or the sentinel. -/
def posOf (es : List (ListEnt α)) : Ent := firstOf (Ent.node ·.addr) es .entries

/-- The ring position of the last of `es`: its node, or the sentinel. -/
def lastPosOf (es : List (ListEnt α)) : Ent := lastOf (Ent.node ·.addr) .entries es

theorem lastPosOf_concat (es : List (ListEnt α)) (e : ListEnt α) : lastPosOf (es ++ [e]) = .node e.addr := lastOf_concat

/-- The memory `m` holds the list `l`: a ring through exactly the nodes of `l`. -/
structure Rep (m : ListMem α φ) (l : MclList α φ) : Prop where
  ring : m.links.Ring (Ent.node ·.addr) .entries l.ents
  data : ∀ e ∈ l.ents, m.datas e.addr = some e.data
  live : ∀ a, m.datas a ≠ none → a ∈ l.ents.map (·.addr)
  fresh : ∀ e ∈ l.ents, e.addr < m.brk
  listSz : m.listSz = l.listSz
  eraseFn : m.eraseFn = l.eraseFn

theorem mclListNew_rep : Rep (mclListNew : ListMem α φ) .new := by
  refine ⟨⟨by simp [MclList.new], ?_⟩, by simp [MclList.new], ?_, by simp [MclList.new], rfl, rfl⟩
  · intro us vs heq
    obtain ⟨rfl, rfl⟩ := List.nil_eq_append_iff.mp heq
    exact ⟨rfl, rfl⟩
  · intro a ha
    exact absurd rfl ha

namespace Rep

variable {m m' : ListMem α φ} {l : MclList α φ} {e : ListEnt α} {pre suf : List (ListEnt α)}

theorem addrs_nodup (h : Rep m l) : (l.ents.map (·.addr)).Nodup := by
  have hn := (List.nodup_cons.mp h.ring.nodup).2
  rw [show l.ents.map (Ent.node ·.addr) = (l.ents.map (·.addr)).map Ent.node by simp] at hn
  exact List.Nodup.of_map _ hn

/-- The walks over the ring have fuel to spare. -/
theorem length_le_brk (h : Rep m l) : l.ents.length ≤ m.brk := by
  have hsub : l.ents.map (·.addr) ⊆ List.range m.brk := by
    intro a ha
    obtain ⟨e, he, rfl⟩ := List.mem_map.mp ha
    exact List.mem_range.mpr (h.fresh e he)
  simpa using (List.subperm_of_subset h.addrs_nodup hsub).length_le

theorem live_pos (h : Rep m l) (hsub : suf ⊆ l.ents) : m.Live (posOf suf) := by
  cases suf with
  | nil => exact live_entries m
  | cons e suf => exact live_node.mpr (by rw [h.data e (hsub (by simp))]; simp)

theorem live_lastPos (h : Rep m l) (hsub : pre ⊆ l.ents) : m.Live (lastPosOf pre) := by
  rcases pre.eq_nil_or_concat with rfl | ⟨es, e, rfl⟩
  · exact live_entries m
  · rw [List.concat_eq_append] at hsub ⊢
    have he : e ∈ l.ents := hsub (by simp)
    rw [lastPosOf_concat]
    exact live_node.mpr (by rw [h.data e he]; simp)

/-- What the code reads at a node. -/
theorem node_eq (h : Rep m l) (hl : l.ents = pre ++ e :: suf) :
    m.nodes e.addr = some ⟨⟨lastPosOf pre, posOf suf⟩, e.data⟩ := by
  have hd := h.data e (by simp [hl])
  have hr := h.ring
  rw [hl] at hr
  have hnext : m.links.next (.node e.addr) = some (posOf suf) := hr.next_eq
  have hprev : m.links.prev (.node e.addr) = some (lastPosOf pre) := hr.prev_eq
  cases hn : m.nodes e.addr with
  | none => simp [datas, hn] at hd
  | some n =>
    simp only [datas, links, ListMem.head, hn, Option.map_some, Option.some.injEq] at hd hnext hprev
    rw [← hd, ← hnext, ← hprev]

theorem entries_eq (h : Rep m l) : m.entries = ⟨lastPosOf l.ents, posOf l.ents⟩ := by
  have hnext : m.links.next .entries = some (posOf l.ents) := h.ring.next_sentinel
  have hprev : m.links.prev .entries = some (lastPosOf l.ents) := h.ring.prev_sentinel
  simp only [links, ListMem.head, Option.map_some, Option.some.injEq] at hnext hprev
  rw [← hnext, ← hprev]

theorem isListEmpty_eq (h : Rep m l) : isListEmpty m = l.ents.isEmpty := by
  rw [isListEmpty, h.entries_eq]
  cases l.ents <;> rfl

theorem datas_brk (h : Rep m l) : m.datas m.brk = none := by
  by_contra hne
  obtain ⟨e, he, ha⟩ := List.mem_map.mp (h.live m.brk hne)
  exact (h.fresh e he).ne ha

theorem brk_not_mem (h : Rep m l) :
    Ent.node m.brk ∉ Ent.entries :: l.ents.map (Ent.node ·.addr) := by
  simp only [List.mem_cons, reduceCtorEq, List.mem_map, Ent.node.injEq, false_or, not_exists,
    not_and]
  exact fun e he ha => (h.fresh e he).ne ha

/-- Linking a fresh node between `pre` and `suf`. -/
theorem insertBetween (h : Rep m l) (hl : l.ents = pre ++ suf) (data : Option α) (sz : ℤ) :
    ∃ m', listInsertBetween (.node m.brk) (lastPosOf pre) (posOf suf) (m.malloc data).2 = some m' ∧
      m'.listSz = m.listSz ∧
      Rep { m' with listSz := sz } { l with ents := pre ++ ⟨m.brk, data⟩ :: suf, listSz := sz } := by
  have hp := h.live_lastPos (show pre ⊆ l.ents by rw [hl]; exact List.subset_append_left pre suf)
  have hn := h.live_pos (show suf ⊆ l.ents by rw [hl]; exact List.subset_append_right pre suf)
  have hne : ∀ e, m.Live e → e ≠ .node m.brk := by
    rintro e he rfl
    exact live_node.mp he h.datas_brk
  obtain ⟨m', hm', hs, hpe, hen, hnext, hprev⟩ := listInsertBetween_spec
    (live_node.mpr (by rw [malloc_datas]; simp) : (m.malloc data).2.Live (.node m.brk))
    (malloc_live hp) (malloc_live hn) (hne _ hp).symm (hne _ hn).symm
  refine ⟨m', hm', hs.listSz, ?_, ?_, ?_, ?_, rfl, hs.eraseFn.trans h.eraseFn⟩
  · have hr := h.ring
    have hnotin := h.brk_not_mem
    rw [hl] at hr hnotin
    refine hr.insert hnotin hpe hen ?_ ?_
    · intro a ha hap
      have hab : a ≠ .node m.brk := fun hc => hnotin (hc ▸ ha)
      exact (hnext a hap hab).trans (congrArg (Option.map _) (malloc_head hab))
    · intro b hb hbn
      have hbb : b ≠ .node m.brk := fun hc => hnotin (hc ▸ hb)
      exact (hprev b hbn hbb).trans (congrArg (Option.map _) (malloc_head hbb))
  · intro e he
    change m'.datas e.addr = _
    rw [hs.datas, malloc_datas]
    have hold : e ∈ l.ents → Function.update m.datas m.brk (some data) e.addr = some e.data :=
      fun hm => by rw [Function.update_of_ne (h.fresh e hm).ne]; exact h.data e hm
    rcases List.mem_append.mp he with he | he
    · exact hold (by simp [hl, he])
    · rcases List.mem_cons.mp he with rfl | he
      · simp
      · exact hold (by simp [hl, he])
  · intro a ha
    change m'.datas a ≠ none at ha
    rw [hs.datas, malloc_datas] at ha
    by_cases hab : a = m.brk
    · simp [hab]
    · rw [Function.update_of_ne hab] at ha
      have := h.live a ha
      rw [hl] at this
      simp only [List.map_append, List.map_cons, List.mem_append, List.mem_cons] at this ⊢
      tauto
  · intro e he
    change e.addr < m'.brk
    rw [hs.brk]
    have hold : e ∈ l.ents → e.addr < m.brk + 1 := fun hm => (h.fresh e hm).trans (Nat.lt_succ_self _)
    rcases List.mem_append.mp he with he | he
    · exact hold (by simp [hl, he])
    · rcases List.mem_cons.mp he with rfl | he
      · exact Nat.lt_succ_self _
      · exact hold (by simp [hl, he])

/-- The positions that stay when the node of `e` goes. -/
theorem rest_ne (h : Rep m l) (hl : l.ents = pre ++ e :: suf) :
    ∀ x ∈ Ent.entries :: (pre ++ suf).map (Ent.node ·.addr), x ≠ .node e.addr := by
  have hnd := h.ring.nodup
  have hperm : l.ents.Perm (e :: (pre ++ suf)) := by
    rw [hl]
    exact List.perm_middle
  have hperm' := ((hperm.map (Ent.node ·.addr)).cons Ent.entries).trans (.swap _ _ _)
  rintro x hx rfl
  exact (List.nodup_cons.mp (hperm'.nodup_iff.mp hnd)).1 hx

theorem lastPosOf_ne (h : Rep m l) (hl : l.ents = pre ++ e :: suf) : lastPosOf pre ≠ .node e.addr := by
  apply h.rest_ne hl
  have hmem := lastOf_mem_cons (Ent.node ·.addr) .entries pre
  simp only [List.map_append, List.mem_cons, List.mem_append] at hmem ⊢
  tauto

theorem posOf_ne (h : Rep m l) (hl : l.ents = pre ++ e :: suf) : posOf suf ≠ .node e.addr := by
  apply h.rest_ne hl
  have hmem := firstOf_mem_cons (Ent.node ·.addr) .entries suf
  simp only [List.map_append, List.mem_cons, List.mem_append] at hmem ⊢
  tauto

/-- The stores of `HANDLE_ELEM`. -/
theorem unlink_spec (h : Rep m l) (hl : l.ents = pre ++ e :: suf) (freeFlag : Bool)
    (freeFn : Option φ) :
    ∃ m', ListCode.handleElem e.addr freeFlag freeFn m =
        some ({ m'.free e.addr with listSz := m'.listSz - 1 },
          if freeFlag then callFree freeFn e.data else []) ∧
      SameData m m' ∧
      m'.links.next = Function.update m.links.next (lastPosOf pre) (some (posOf suf)) ∧
      m'.links.prev = Function.update m.links.prev (posOf suf) (some (lastPosOf pre)) := by
  have hsubp : pre ⊆ l.ents := by
    rw [hl]
    exact List.subset_append_left _ _
  have hsubn : suf ⊆ l.ents := by
    rw [hl]
    exact fun x hx => List.mem_append_right _ (List.mem_cons_of_mem _ hx)
  obtain ⟨m₁, h₁, s₁, n₁, p₁⟩ := setNext_spec (h.live_lastPos hsubp) (posOf suf)
  obtain ⟨m₂, h₂, s₂, p₂, n₂⟩ := setPrev_spec (s₁.live (h.live_pos hsubn)) (lastPosOf pre)
  have hh : m.head (.node e.addr) = some ⟨lastPosOf pre, posOf suf⟩ := by
    simp [ListMem.head, h.node_eq hl]
  -- the second statement of HANDLE_ELEM reads the entry again, after the first store
  have hh₁ : m₁.head (.node e.addr) = some ⟨lastPosOf pre, posOf suf⟩ := by
    apply head_of_links
    · rw [p₁]
      simp [links, hh]
    · rw [n₁, Function.update_of_ne (h.lastPosOf_ne hl).symm]
      simp [links, hh]
  have hd₂ : m₂.datas e.addr = some e.data := by
    rw [(s₁.trans s₂).datas]
    exact h.data e (by simp [hl])
  obtain ⟨nd, hnd₂, hdata⟩ := Option.map_eq_some_iff.mp hd₂
  refine ⟨m₂, ?_, s₁.trans s₂, by rw [n₂, n₁], by rw [p₂, p₁]⟩
  simp [ListCode.handleElem, hh, h₁, hh₁, h₂, hnd₂, hdata, ListMem.free]

theorem ring_unlink (h : Rep m l) (hl : l.ents = pre ++ e :: suf)
    (hn : m'.links.next = Function.update m.links.next (lastPosOf pre) (some (posOf suf)))
    (hp : m'.links.prev = Function.update m.links.prev (posOf suf) (some (lastPosOf pre))) :
    (m'.free e.addr).links.Ring (Ent.node ·.addr) .entries (pre ++ suf) := by
  have hr := h.ring
  have hkeep := h.rest_ne hl
  rw [hl] at hr
  refine hr.remove ⟨?_, ?_⟩ ?_ ?_
  · change (m'.free e.addr).links.next (lastPosOf pre) = some (posOf suf)
    rw [free_next (h.lastPosOf_ne hl), hn, Function.update_self]
  · change (m'.free e.addr).links.prev (posOf suf) = some (lastPosOf pre)
    rw [free_prev (h.posOf_ne hl), hp, Function.update_self]
  · intro a ha (hap : a ≠ lastPosOf pre)
    rw [free_next (hkeep a ha), hn, Function.update_of_ne hap]
  · intro b hb (hbn : b ≠ posOf suf)
    rw [free_prev (hkeep b hb), hp, Function.update_of_ne hbn]

/-- Unlinking the node between `pre` and `suf` and freeing it. -/
theorem handleElem (h : Rep m l) (hl : l.ents = pre ++ e :: suf) (freeFlag : Bool)
    (freeFn : Option φ) :
    ∃ m', ListCode.handleElem e.addr freeFlag freeFn m =
        some (m', if freeFlag then callFree freeFn e.data else []) ∧
      Rep m' { l with ents := pre ++ suf, listSz := l.listSz - 1 } := by
  obtain ⟨m', hcode, hsame, hn, hp⟩ := h.unlink_spec hl freeFlag freeFn
  have hsub : pre ++ suf ⊆ l.ents := by
    intro x hx
    rw [hl]
    rcases List.mem_append.mp hx with hx | hx
    · exact List.mem_append_left _ hx
    · exact List.mem_append_right _ (List.mem_cons_of_mem _ hx)
  refine ⟨_, hcode, h.ring_unlink hl hn hp, ?_, ?_, ?_, ?_, hsame.eraseFn.trans h.eraseFn⟩
  · intro x hx
    change (m'.free e.addr).datas x.addr = _
    have hxe : x.addr ≠ e.addr := fun hc =>
      h.rest_ne hl (.node x.addr) (List.mem_cons_of_mem _ (List.mem_map_of_mem hx)) (by rw [hc])
    rw [free_datas, Function.update_of_ne hxe, hsame.datas]
    exact h.data x (hsub hx)
  · intro a ha
    change (m'.free e.addr).datas a ≠ none at ha
    rw [free_datas] at ha
    have hae : a ≠ e.addr := by
      rintro rfl
      simp at ha
    rw [Function.update_of_ne hae, hsame.datas] at ha
    have hmem := h.live a ha
    rw [hl] at hmem
    simp only [List.map_append, List.map_cons, List.mem_append, List.mem_cons] at hmem ⊢
    tauto
  · intro x hx
    change x.addr < m'.brk
    rw [hsame.brk]
    exact h.fresh x (hsub hx)
  · change m'.listSz - 1 = _
    rw [hsame.listSz, h.listSz]

end Rep

variable {m : ListMem α φ} {l : MclList α φ}

theorem mclListInsert_rep (h : Rep m l) (data : Option α) :
    ∃ m', mclListInsert data m = some ((l.insert m.brk data).1, m') ∧
      Rep m' (l.insert m.brk data).2 := by
  by_cases hsz : l.listSz ≥ mclListMaxSize
  · exact ⟨m, by simp [mclListInsert, MclList.insert, h.listSz, hsz], by simpa [MclList.insert, hsz]⟩
  obtain ⟨m', hm', hs, hr⟩ := h.insertBetween (show l.ents = [] ++ l.ents from rfl) data (l.listSz + 1)
  refine ⟨{ m' with listSz := l.listSz + 1 }, ?_, by simpa [MclList.insert, hsz] using hr⟩
  have hhead : (m.malloc data).2.head .entries = some ⟨lastPosOf l.ents, posOf l.ents⟩ := by
    rw [malloc_head (by simp), ← h.entries_eq]; rfl
  have hli : listInsert (.node m.brk) .entries (m.malloc data).2 = some m' := by
    simp only [listInsert, hhead, Option.bind_eq_bind, Option.bind_some]
    exact hm'
  simp only [mclListInsert, MclList.insert, h.listSz, hsz, if_false]
  change (listInsert (.node m.brk) .entries (m.malloc data).2).bind _ = _
  rw [hli, Option.bind_some, hs, h.listSz]

theorem mclListInsertTail_rep (h : Rep m l) (data : Option α) :
    ∃ m', mclListInsertTail data m = some ((l.insertTail m.brk data).1, m') ∧
      Rep m' (l.insertTail m.brk data).2 := by
  by_cases hsz : l.listSz ≥ mclListMaxSize
  · exact ⟨m, by simp [mclListInsertTail, MclList.insertTail, h.listSz, hsz],
      by simpa [MclList.insertTail, hsz]⟩
  obtain ⟨m', hm', hs, hr⟩ :=
    h.insertBetween (show l.ents = l.ents ++ [] by simp) data (l.listSz + 1)
  refine ⟨{ m' with listSz := l.listSz + 1 }, ?_, by simpa [MclList.insertTail, hsz] using hr⟩
  have hhead : (m.malloc data).2.head .entries = some ⟨lastPosOf l.ents, posOf l.ents⟩ := by
    rw [malloc_head (by simp), ← h.entries_eq]; rfl
  have hli : listInsertTail (.node m.brk) .entries (m.malloc data).2 = some m' := by
    simp only [listInsertTail, hhead, Option.bind_eq_bind, Option.bind_some]
    exact hm'
  simp only [mclListInsertTail, MclList.insertTail, h.listSz, hsz, if_false]
  change (listInsertTail (.node m.brk) .entries (m.malloc data).2).bind _ = _
  rw [hli, Option.bind_some, hs, h.listSz]

/-- The walk of `list_del` from any node on, with no hit behind it. -/
theorem listDelLoop_rep [DecidableEq α] (h : Rep m l) (data : Option α) (freeFlag : Bool)
    (cmpFunc : ListCmpFunc α) (freeFn : Option φ) (pre suf : List (ListEnt α)) (fuel : ℕ)
    (hl : l.ents = pre ++ suf) (hpre : ∀ e ∈ pre, delHit data cmpFunc e.data = false)
    (hfuel : suf.length < fuel) :
    ∃ m', listDelLoop data freeFlag cmpFunc freeFn fuel (posOf suf) m =
        some ((l.del (delHit data cmpFunc) (if freeFlag then freeFn else none)).1, m',
          (l.del (delHit data cmpFunc) (if freeFlag then freeFn else none)).2.2) ∧
      Rep m' (l.del (delHit data cmpFunc) (if freeFlag then freeFn else none)).2.1 := by
  induction suf generalizing pre fuel with
  | nil =>
    obtain ⟨fuel, rfl⟩ : ∃ k, fuel = k + 1 := ⟨fuel - 1, by simp at hfuel; omega⟩
    rw [MclList.del_of_not_hit (by simpa [hl] using hpre)]
    exact ⟨m, rfl, h⟩
  | cons e suf ih =>
    obtain ⟨fuel, rfl⟩ : ∃ k, fuel = k + 1 := ⟨fuel - 1, by simp at hfuel; omega⟩
    have hnode := h.node_eq hl
    cases he : delHit data cmpFunc e.data with
    | true =>
      obtain ⟨m', hm', hr⟩ := h.handleElem hl freeFlag freeFn
      rw [MclList.del_of_hit hl hpre he]
      refine ⟨m', ?_, hr⟩
      cases freeFlag <;> simp [listDelLoop, posOf, Ent.node?, hnode, he, hm', callFree]
    | false =>
      obtain ⟨m', hm', hr⟩ := ih (pre ++ [e]) fuel (by simp [hl])
        (fun x hx => by
          rcases List.mem_append.mp hx with hx | hx
          · exact hpre x hx
          · rw [List.mem_singleton.mp hx]; exact he)
        (by simp at hfuel; omega)
      exact ⟨m', by simpa [listDelLoop, posOf, Ent.node?, hnode, he] using hm', hr⟩

theorem listDel_rep [DecidableEq α] (h : Rep m l) (data : Option α) (freeFlag : Bool)
    (cmpFunc : ListCmpFunc α) (freeFn : Option φ) :
    ∃ m', listDel data m freeFlag cmpFunc freeFn =
        some ((l.del (delHit data cmpFunc) (if freeFlag then freeFn else none)).1, m',
          (l.del (delHit data cmpFunc) (if freeFlag then freeFn else none)).2.2) ∧
      Rep m' (l.del (delHit data cmpFunc) (if freeFlag then freeFn else none)).2.1 := by
  have hfuel := h.length_le_brk
  by_cases he : l.ents = []
  · rw [MclList.del_of_not_hit (by simp [he])]
    exact ⟨m, by simp [listDel, h.isListEmpty_eq, he], h⟩
  · have hloop := listDelLoop_rep h data freeFlag cmpFunc freeFn [] l.ents (m.brk + 1) rfl
      (by simp) (by omega)
    simpa [listDel, h.isListEmpty_eq, h.entries_eq, he] using hloop

theorem mclDefListIterHead_rep (h : Rep m l) (it : ListIter κ ν) :
    mclDefListIterHead it m = some (l.iterHead it) := by
  unfold mclDefListIterHead MclList.iterHead
  rw [h.isListEmpty_eq, h.entries_eq]
  cases l.ents <;> rfl

theorem mclDefListIterTail_rep (h : Rep m l) (it : ListIter κ ν) :
    mclDefListIterTail it m = some (l.iterTail it) := by
  unfold mclDefListIterTail MclList.iterTail
  rw [h.isListEmpty_eq, h.entries_eq]
  rcases l.ents.eq_nil_or_concat with he | ⟨es, e, he⟩ <;> rw [he]
  · rfl
  · simp [lastPosOf_concat, Ent.node?, setPos, commonIterOp, MclList.setPos]

theorem mclDefListIterNext_rep (h : Rep m l) (it : ListIter κ ν) :
    mclDefListIterNext it m = l.iterNext it := by
  unfold mclDefListIterNext iterStep MclList.iterNext
  rw [h.isListEmpty_eq]
  by_cases he : l.ents.isEmpty
  · simp [he, setPos, commonIterOp, MclList.setPos]
  simp only [he, Bool.not_false, if_true, commonIterOp]
  cases hd : it.data with
  | none => rfl
  | some a =>
    by_cases ha : a ∈ l.ents.map (·.addr)
    · obtain ⟨e, hmem, rfl⟩ := List.mem_map.mp ha
      obtain ⟨pre, suf, hl⟩ := List.append_of_mem hmem
      have hh : m.head (.node e.addr) = some ⟨lastPosOf pre, posOf suf⟩ := by
        simp [ListMem.head, h.node_eq hl]
      have hf := MclList.from?_eq hl h.addrs_nodup
      cases suf <;> simp [hh, hf, posOf, Ent.node?, setPos, MclList.setPos]
    · have hn : m.head (.node a) = none := by
        by_contra hc
        obtain ⟨x, hx⟩ := Option.ne_none_iff_exists'.mp hc
        exact ha (h.live a (live_node.mp ⟨x, hx⟩))
      simp [hn, MclList.from?_of_not_mem ha]

theorem mclDefListIterInfo_rep (h : Rep m l) (it : ListIter κ ν) :
    mclDefListIterInfo it m = l.iterInfo it := by
  unfold mclDefListIterInfo MclList.iterInfo
  cases it.data with
  | none => rfl
  | some ent =>
    cases it.ptr with
    | none => rfl
    | some a =>
      by_cases ha : a ∈ l.ents.map (·.addr)
      · obtain ⟨e, hmem, rfl⟩ := List.mem_map.mp ha
        obtain ⟨pre, suf, hl⟩ := List.append_of_mem hmem
        simp [h.node_eq hl, MclList.from?_eq hl h.addrs_nodup]
      · have hn : m.nodes a = none := by
          by_contra hc
          refine ha (h.live a ?_)
          simpa [datas] using hc
        simp [hn, MclList.from?_of_not_mem ha]

/-- An iterator on the first node of `es`, or at the end. -/
def AtPos (it : ListIter κ ν) (es : List (ListEnt α)) : Prop :=
  it.ptr = es.head?.map (·.addr) ∧ it.data = es.head?.map (·.addr)

theorem iterStep_next (h : Rep m l) {pre suf : List (ListEnt α)} {e : ListEnt α}
    (hl : l.ents = pre ++ e :: suf) {it : ListIter κ ν} (hit : AtPos it (e :: suf)) :
    ∃ it', mclDefListIterNext it m = some it' ∧ AtPos it' suf := by
  have hne : l.ents.isEmpty = false := by rw [hl]; cases pre <;> rfl
  refine ⟨MclList.setPos it (suf.head?.map (·.addr)), ?_, rfl, rfl⟩
  rw [mclDefListIterNext_rep h]
  have hd : it.data = some e.addr := hit.2
  simp only [MclList.iterNext, hne, hd, MclList.from?_eq hl h.addrs_nodup]
  rfl

theorem iterStep_prev (h : Rep m l) {pre suf : List (ListEnt α)} {e : ListEnt α}
    (hl : l.ents = pre.reverse ++ e :: suf) {it : ListIter κ ν} (hit : AtPos it (e :: pre)) :
    ∃ it', mclDefListIterPrev it m = some it' ∧ AtPos it' pre := by
  have hne : l.ents.isEmpty = false := by rw [hl]; cases pre.reverse <;> rfl
  have hh : m.head (.node e.addr) = some ⟨lastPosOf pre.reverse, posOf suf⟩ := by
    simp [ListMem.head, h.node_eq hl]
  have hd : it.data = some e.addr := hit.2
  refine ⟨setPos (commonIterOp it) (pre.head?.map (·.addr)), ?_, rfl, rfl⟩
  unfold mclDefListIterPrev iterStep
  rw [h.isListEmpty_eq, hne]
  cases pre with
  | nil => simp [commonIterOp, hd, hh, lastPosOf]
  | cons x pre => simp [commonIterOp, hd, hh, lastPosOf_concat, Ent.node?]

theorem iterInfo_at (h : Rep m l) {e : ListEnt α} (he : e ∈ l.ents) {es : List (ListEnt α)}
    {it : ListIter κ ν} (hit : AtPos it (e :: es)) : mclDefListIterInfo it m = some e.data := by
  obtain ⟨pre, suf, hl⟩ := List.append_of_mem he
  rw [mclDefListIterInfo_rep h]
  exact MclList.iterInfo_of_pos hl h.addrs_nodup hit.2 hit.1

/-- A walk over `es` by a step function that moves to the next of `es` yields the data of `es`. -/
theorem foreachLoop_eq (h : Rep m l) {step : ListIter κ ν → ListMem α φ → Option (ListIter κ ν)}
    (es : List (ListEnt α)) (hes : es ⊆ l.ents)
    (hstep : ∀ e suf, (∃ pre, es = pre ++ e :: suf) → ∀ it, AtPos it (e :: suf) →
      ∃ it', step it m = some it' ∧ AtPos it' suf)
    (fuel : ℕ) (hfuel : es.length < fuel) (it : ListIter κ ν) (hit : AtPos it es) :
    foreachLoop step m fuel it = some (es.map (·.data)) := by
  induction es generalizing fuel it with
  | nil =>
    obtain ⟨fuel, rfl⟩ : ∃ k, fuel = k + 1 := ⟨fuel - 1, by simp at hfuel; omega⟩
    have hp : it.ptr = none := hit.1
    simp [foreachLoop, Iter.isNull, hp]
  | cons e es ih =>
    obtain ⟨fuel, rfl⟩ : ∃ k, fuel = k + 1 := ⟨fuel - 1, by simp at hfuel; omega⟩
    obtain ⟨it', hs, hit'⟩ := hstep e es ⟨[], rfl⟩ it hit
    have hp : it.ptr = some e.addr := hit.1
    have hinfo := iterInfo_at h (hes (by simp)) hit
    have hrest := ih (fun x hx => hes (by simp [hx]))
      (fun x suf ⟨pre, hpre⟩ => hstep x suf ⟨e :: pre, by rw [hpre]; rfl⟩) fuel
      (by simp at hfuel; omega) it' hit'
    simp [foreachLoop, Iter.isNull, hp, hinfo, hs, hrest]

theorem mclForeach_rep (h : Rep m l) (it : ListIter κ ν) : mclForeach it m = some l.elems := by
  have hfuel := h.length_le_brk
  rw [mclForeach, mclDefListIterHead_rep h]
  refine foreachLoop_eq h l.ents (List.Subset.refl _) ?_ _ (by omega) _ ⟨rfl, rfl⟩
  rintro e suf ⟨pre, hl⟩ it hit
  exact iterStep_next h hl hit

theorem mclForeachReverse_rep (h : Rep m l) (it : ListIter κ ν) :
    mclForeachReverse it m = some l.elems.reverse := by
  have hfuel := h.length_le_brk
  have hat : AtPos (l.iterTail it) l.ents.reverse := by
    simp [AtPos, MclList.iterTail, MclList.setPos]
  rw [mclForeachReverse, mclDefListIterTail_rep h, MclList.elems, ← List.map_reverse]
  refine foreachLoop_eq h l.ents.reverse (by simp) ?_ _ (by simp; omega) _ hat
  rintro e suf ⟨pre, hrev⟩ it hit
  have hl : l.ents = suf.reverse ++ e :: pre.reverse := by
    rw [← List.reverse_reverse l.ents, hrev]
    simp
  exact iterStep_prev h hl hit

/-- The walk of `mcl_list_find` from any node on. -/
theorem findLoop_eq (h : Rep m l) (hit : α → Bool) (pre suf : List (ListEnt α)) (fuel : ℕ)
    (hl : l.ents = pre ++ suf) (hfuel : suf.length < fuel) (it : ListIter κ ν)
    (hat : AtPos it suf) :
    findLoop hit m fuel it = some ((suf.find? fun e => e.data.all hit).bind (·.data)) := by
  induction suf generalizing pre fuel it with
  | nil =>
    obtain ⟨fuel, rfl⟩ : ∃ k, fuel = k + 1 := ⟨fuel - 1, by simp at hfuel; omega⟩
    have hp : it.ptr = none := hat.1
    simp [findLoop, Iter.isNull, hp]
  | cons e suf ih =>
    obtain ⟨fuel, rfl⟩ : ∃ k, fuel = k + 1 := ⟨fuel - 1, by simp at hfuel; omega⟩
    have hp : it.ptr = some e.addr := hat.1
    have hinfo := iterInfo_at h (show e ∈ l.ents by simp [hl]) hat
    obtain ⟨it', hs, hat'⟩ := iterStep_next h hl hat
    cases hd : e.data with
    | none => simp [findLoop, Iter.isNull, hp, hinfo, hd]
    | some x =>
      cases hx : hit x with
      | true => simp [findLoop, Iter.isNull, hp, hinfo, hd, hx]
      | false =>
        have hrest := ih (pre ++ [e]) fuel (by simp [hl]) (by simp at hfuel; omega) it' hat'
        simp [findLoop, Iter.isNull, hp, hinfo, hd, hx, hs, hrest]

theorem mclListFind_rep [DecidableEq α] (h : Rep m l) (data : α) (cmpFunc : ListCmpFunc α) :
    mclListFind (some data) m cmpFunc = some (l.find (findHit data cmpFunc)) := by
  have hfuel := h.length_le_brk
  simp only [mclListFind, mclDefListIterHead_rep h, Option.bind_eq_bind, Option.bind_some]
  exact findLoop_eq h _ [] l.ents _ rfl (by omega) _ ⟨rfl, rfl⟩

end Mcl.ListCode
