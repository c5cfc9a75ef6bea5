import Mathlib.Data.List.Basic
import Mathlib.Tactic.Ring
import Mcl.Library.Strip
import Mcl.Util.String

/-! `mcl_trim`: what it leaves, and where it reads and writes. -/
namespace Mcl

open Library

variable {step i : ℤ} {pre mid post rest chars below : List Byte}

/-- The `n` indices that a scan reads from `i` on. -/
def walk (step i : ℤ) (n : ℕ) : List ℤ := (List.range n).map fun j : ℕ => i + step * j

theorem walk_succ (step i : ℤ) (n : ℕ) : walk step i (n + 1) = i :: walk step (i + step) n := by
  simp only [walk, List.range_succ_eq_map, List.map_cons, List.map_map]
  congr 1
  · simp
  · refine List.map_congr_left fun j _ => ?_
    simp only [Function.comp_apply, Nat.succ_eq_add_one]
    push_cast
    ring

theorem mem_walk {j : ℤ} {n : ℕ} (hj : j ∈ walk step i n) : ∃ m < n, j = i + step * m := by
  obtain ⟨m, hm, rfl⟩ := List.mem_map.mp hj
  exact ⟨m, List.mem_range.mp hm, rfl⟩

/-- A scan passes blanks one by one. -/
theorem skipSpaces_append (hpre : ∀ c ∈ pre, isSpace c = true) :
    skipSpaces step (pre ++ chars) i =
      (skipSpaces step chars (i + step * pre.length)).map (Prod.map id (walk step i pre.length ++ ·)) := by
  induction pre generalizing i with
  | nil =>
    simp only [List.nil_append, List.length_nil, Nat.cast_zero, mul_zero, add_zero]
    exact (congrFun Option.map_id _).symm
  | cons c pre ih =>
    have hc : isSpace c = true := hpre c (by simp)
    have hi : i + step * ((c :: pre).length : ℤ) = i + step + step * pre.length := by
      rw [List.length_cons]
      push_cast
      ring
    rw [List.cons_append, skipSpaces, if_pos hc, ih fun d hd => hpre d (by simp [hd]), hi,
      List.length_cons, walk_succ, Option.map_map]
    rfl

theorem skipSpaces_stop {c : Byte} (hpre : ∀ c ∈ pre, isSpace c = true) (hc : isSpace c = false) :
    skipSpaces step (pre ++ c :: chars) i =
      some (i + step * pre.length, walk step i (pre.length + 1)) := by
  rw [skipSpaces_append hpre, skipSpaces, hc, walk, walk, List.range_succ, List.map_append]
  rfl

/-- Whatever comes of a scan, it reads the first character. -/
theorem mem_of_skipSpaces {j : ℤ} {touched : List ℤ} (h : skipSpaces step chars i = some (j, touched)) :
    i ∈ touched := by
  cases chars with
  | nil => cases h
  | cons c chars =>
    rw [skipSpaces] at h
    split at h
    · obtain ⟨_, _, heq⟩ := Option.map_eq_some_iff.mp h
      cases heq
      exact List.mem_cons_self
    · cases h
      exact List.mem_singleton_self i

theorem readChar_append (front : List Byte) (c : Byte) (rest : List Byte) :
    readChar (front ++ c :: rest) front.length = some c := by
  rw [readChar, if_pos (Int.natCast_nonneg _), Int.toNat_natCast, List.getElem?_append_right (Nat.le_refl _),
    Nat.sub_self, List.getElem?_cons_zero]

theorem writeChar_append (front : List Byte) (b c : Byte) (rest : List Byte) :
    writeChar (front ++ b :: rest) front.length c = some (front ++ c :: rest) := by
  have hin : 0 ≤ (front.length : ℤ) ∧ (front.length : ℤ) < (front ++ b :: rest).length := by
    rw [List.length_append, List.length_cons]
    omega
  rw [writeChar, if_pos hin, Int.toNat_natCast, List.set_append_right _ _ (Nat.le_refl _), Nat.sub_self,
    List.set_cons_zero]

/-- The copy loop moves `mid` down over what lies in front of it, by as many bytes as `gap` has. -/
theorem moveChars_append (mid done gap rest : List Byte) :
    ∃ touched, moveChars mid.length done.length (done.length + gap.length) (done ++ (gap ++ (mid ++ rest))) =
        some (done ++ (mid ++ (gap ++ (mid ++ rest)).drop mid.length), touched) ∧
      ∀ i ∈ touched, 0 ≤ i ∧ i < done.length + gap.length + mid.length := by
  induction mid generalizing done gap with
  | nil => exact ⟨[], rfl, by simp⟩
  | cons c mid ih =>
    -- one byte on, `done` has it too and the gap, which now ends in it, starts one place higher
    obtain ⟨g, gap', hgap, hlen⟩ : ∃ (g : Byte) (gap' : List Byte), gap ++ [c] = g :: gap' ∧
        gap'.length = gap.length := by
      cases gap with
      | nil => exact ⟨c, [], rfl, rfl⟩
      | cons g gap => exact ⟨g, gap ++ [c], rfl, by simp⟩
    have hmem : gap ++ (c :: mid ++ rest) = g :: (gap' ++ (mid ++ rest)) := by
      rw [← List.cons_append, ← hgap]
      simp
    obtain ⟨touched, hmove, hin⟩ := ih (done ++ [c]) gap'
    rw [hlen] at hmove hin
    have hdone : (done ++ [c]).length = done.length + 1 := by simp
    have hread := readChar_append (done ++ gap) c (mid ++ rest)
    have hwrite := writeChar_append done g c (gap' ++ (mid ++ rest))
    rw [List.append_assoc, List.length_append, Nat.cast_add, ← List.cons_append] at hread
    rw [← hmem] at hwrite
    refine ⟨(done.length + gap.length : ℤ) :: (done.length : ℤ) :: touched, ?_, fun i hi => ?_⟩
    · have hhead : (done.length + gap.length + 1 : ℤ) = (done ++ [c]).length + gap.length := by omega
      have hsrc : (done.length + 1 : ℤ) = (done ++ [c]).length := by omega
      have hnext : done ++ c :: (gap' ++ (mid ++ rest)) = done ++ [c] ++ (gap' ++ (mid ++ rest)) := by simp
      simp only [List.length_cons, moveChars, hread, hwrite, Option.bind_eq_bind, Option.bind_some]
      rw [hhead, hsrc, hnext, hmove, hmem, List.drop_succ_cons]
      simp
    · rw [List.length_cons]
      rcases List.mem_cons.mp hi with rfl | hi
      · omega
      · rcases List.mem_cons.mp hi with rfl | hi
        · omega
        · have := hin i hi
          omega

theorem strlen_append (mid rest : List Byte) :
    strlen (mid ++ 0 :: rest) = some (mid.takeWhile (· ≠ 0)).length := by
  induction mid with
  | nil => rfl
  | cons c mid ih =>
    rw [List.cons_append, strlen, ih, List.takeWhile_cons]
    by_cases hc : c = 0
    · rw [if_pos hc, if_neg (by simpa using hc)]
      rfl
    · rw [if_neg hc, if_pos (by simpa using hc)]
      rfl

namespace MclString

variable {s : MclString}

/-- NUL stands behind the LEN bytes. -/
def Terminated (s : MclString) : Prop := s.ptr[s.len.toNat]? = some 0

/-- The string as `mcl_trim` sees it: `pre` and `post` are what it drops of the LEN bytes. -/
structure Parts (s : MclString) (pre mid post rest : List Byte) : Prop where
  len : s.contents.length = s.len.toNat
  contents : s.contents = pre ++ (mid ++ post)
  ptr : s.ptr = s.contents ++ 0 :: rest
  blankPre : ∀ c ∈ pre, isSpace c = true
  blankPost : ∀ c ∈ post, isSpace c = true
  noPost : mid = [] → post = []
  head : ∀ c, mid.head? = some c → isSpace c = false
  last : ∀ c, mid.getLast? = some c → isSpace c = false

theorem Valid.terminated (h : s.Valid) : s.Terminated := by
  rw [Terminated, h.len_toNat]
  exact h.term

theorem Terminated.length_contents (h : s.Terminated) : s.contents.length = s.len.toNat := by
  have hlt := (List.getElem?_eq_some_iff.mp h).1
  rw [MclString.contents, List.length_take]
  omega

theorem Terminated.parts (h : s.Terminated) :
    ∃ pre post rest, s.Parts pre (strip isSpace s.contents) post rest := by
  obtain ⟨hlt, hget⟩ := List.getElem?_eq_some_iff.mp h
  obtain ⟨pre, post, heq, hpre, hpost, hnil⟩ := exists_ends isSpace s.contents
  refine ⟨pre, post, s.ptr.drop (s.len.toNat + 1), h.length_contents, heq, ?_, hpre, hpost, hnil, fun _ => strip_head?,
    fun _ => strip_getLast?⟩
  rw [MclString.contents, ← hget, ← List.drop_eq_getElem_cons hlt, List.take_append_drop]

/-- `head` stops where the kept bytes start, at the latest at NUL. -/
theorem Parts.scan_up (h : s.Parts pre mid post rest) :
    ∃ touched, skipSpaces 1 s.ptr 0 = some ((pre.length : ℤ), touched) ∧
      ∀ i ∈ touched, 0 ≤ i ∧ i ≤ s.len.toNat := by
  obtain ⟨c, chars, hptr, hc⟩ : ∃ c chars, s.ptr = pre ++ c :: chars ∧ isSpace c = false := by
    cases mid with
    | nil => exact ⟨0, rest, by rw [h.ptr, h.contents, h.noPost rfl, List.append_nil, List.append_nil], rfl⟩
    | cons c mid => exact ⟨c, mid ++ (post ++ 0 :: rest), by rw [h.ptr, h.contents]; simp, h.head c rfl⟩
  refine ⟨walk 1 0 (pre.length + 1), by rw [hptr, skipSpaces_stop h.blankPre hc]; simp, fun i hi => ?_⟩
  obtain ⟨m, hm, rfl⟩ := mem_walk hi
  have hlen := h.len
  rw [h.contents, List.length_append] at hlen
  omega

/-- `tail` stops at the last kept byte. Without one it leaves the buffer, and the byte before that has
to stop it. -/
theorem Parts.scan_down (h : s.Parts pre mid post rest)
    (hbelow : mid = [] → ∃ c, below.head? = some c ∧ isSpace c = false) :
    ∃ tail touched,
      skipSpaces (-1) (s.contents.reverse ++ below) (s.len.toNat - 1) = some (tail, touched) ∧
        (tail + 1 - pre.length).toNat = mid.length ∧
        (mid ≠ [] → ∀ i ∈ touched, 0 ≤ i ∧ i ≤ s.len.toNat) := by
  have hlen := h.len
  rw [h.contents, List.length_append, List.length_append] at hlen
  have hpre : ∀ c ∈ pre.reverse, isSpace c = true := fun c hc => h.blankPre c (List.mem_reverse.mp hc)
  have hpost : ∀ c ∈ post.reverse, isSpace c = true := fun c hc => h.blankPost c (List.mem_reverse.mp hc)
  cases hmid : mid.reverse with
  | nil =>
    obtain rfl := List.reverse_eq_nil_iff.mp hmid
    obtain rfl := h.noPost rfl
    obtain ⟨c, hhead, hc⟩ := hbelow rfl
    obtain ⟨below, rfl⟩ := List.head?_eq_some_iff.mp hhead
    have hcontents : s.contents = pre := by rw [h.contents, List.append_nil, List.append_nil]
    refine ⟨_, _, by rw [hcontents, skipSpaces_stop hpre hc], ?_, fun hne => absurd rfl hne⟩
    rw [List.length_reverse, List.length_nil]
    simp only [List.length_nil, add_zero] at hlen
    omega
  | cons c mid' =>
    have hlast : mid.getLast? = some c := by rw [List.getLast?_eq_head?_reverse, hmid]; rfl
    have hpos : 0 < mid.length := by rw [← List.length_reverse, hmid]; simp
    have hmem : s.contents.reverse ++ below = post.reverse ++ c :: (mid' ++ (pre.reverse ++ below)) := by
      rw [h.contents, List.reverse_append, List.reverse_append, hmid]
      simp
    refine ⟨_, _, by rw [hmem, skipSpaces_stop hpost (h.last c hlast)], ?_, fun _ i hi => ?_⟩
    · rw [List.length_reverse]
      omega
    · obtain ⟨m, hm, rfl⟩ := mem_walk hi
      rw [List.length_reverse] at hm
      omega

/-- What `mcl_trim` makes of the string when `mid` is the part it keeps. -/
def trimmed (s : MclString) (mid : List Byte) : MclString :=
  { s with
    len := BitVec.ofNat 32 (mid.takeWhile (· ≠ 0)).length
    ptr := mid ++ 0 :: s.ptr.drop (mid.length + 1) }

/-- Trimming runs to its end, and inside the buffer unless nothing is kept. -/
theorem Parts.mclTrim_eq (h : s.Parts pre mid post rest)
    (hbelow : mid = [] → ∃ c, below.head? = some c ∧ isSpace c = false) :
    ∃ touched, mclTrim s below = some (s.trimmed mid, touched) ∧
      (mid ≠ [] → ∀ i ∈ touched, 0 ≤ i ∧ i ≤ s.len.toNat) := by
  have hlen := h.len
  have hptr : s.ptr = pre ++ (mid ++ (post ++ 0 :: rest)) := by
    rw [h.ptr, h.contents]
    simp
  have hlength : pre.length + mid.length + post.length = s.len.toNat := by
    rw [h.contents, List.length_append, List.length_append] at hlen
    omega
  obtain ⟨up, hup, hin_up⟩ := h.scan_up
  obtain ⟨tail, down, hdown, hn, hin_down⟩ := h.scan_down hbelow
  obtain ⟨moved, hmove, hin_moved⟩ := moveChars_append mid [] pre (post ++ 0 :: rest)
  have hmoved : moveChars mid.length 0 pre.length s.ptr = some (mid ++ s.ptr.drop mid.length, moved) := by
    rw [← hptr] at hmove
    simpa using hmove
  have hwrite : writeChar (mid ++ s.ptr.drop mid.length) mid.length 0 =
      some (mid ++ 0 :: s.ptr.drop (mid.length + 1)) := by
    have hlt : mid.length < s.ptr.length := by
      rw [hptr]
      simp only [List.length_append, List.length_cons]
      omega
    rw [List.drop_eq_getElem_cons hlt, writeChar_append]
  have hshort : ¬s.ptr.length < s.len.toNat := by
    rw [h.ptr, List.length_append]
    omega
  have hrun : mclTrim s below = some (s.trimmed mid, up ++ down ++ moved ++ [(mid.length : ℤ)] ++
      (List.range ((mid.takeWhile (· ≠ 0)).length + 1)).map Int.ofNat) := by
    have hdown' : skipSpaces (-1) ((s.ptr.take s.len.toNat).reverse ++ below) (s.len.toNat - 1) =
      some (tail, down) := hdown
    simp only [mclTrim, if_neg hshort, hup, hdown', hn, hmoved, hwrite, strlen_append, Option.bind_eq_bind,
      Option.bind_some, trimmed]
  refine ⟨_, hrun, fun hmid i hi => ?_⟩
  have hkept : (mid.takeWhile (· ≠ 0)).length ≤ mid.length := (List.takeWhile_prefix _).length_le
  simp only [List.mem_append, List.mem_singleton, List.mem_map, List.mem_range] at hi
  rcases hi with (((hi | hi) | hi) | rfl) | ⟨k, hk, rfl⟩
  · exact hin_up i hi
  · exact hin_down hmid i hi
  · have := hin_moved i hi
    rw [List.length_nil] at this
    omega
  · omega
  · rw [Int.ofNat_eq_natCast]
    omega

/-- Without NUL among the kept bytes the new length is theirs. -/
theorem trimmed_len (hnul : 0 ∉ mid) (hlt : mid.length < 2 ^ 32) : (s.trimmed mid).len.toNat = mid.length := by
  have hall : mid.takeWhile (· ≠ 0) = mid := by
    rw [List.takeWhile_eq_self_iff]
    intro c hc
    rw [decide_eq_true_eq]
    rintro rfl
    exact hnul hc
  rw [trimmed, hall, BitVec.toNat_ofNat, Nat.mod_eq_of_lt hlt]

theorem trimmed_contents (hnul : 0 ∉ mid) (hlt : mid.length < 2 ^ 32) : (s.trimmed mid).contents = mid := by
  rw [contents, trimmed_len hnul hlt]
  exact List.take_left

theorem trimmed_terminated (hnul : 0 ∉ mid) (hlt : mid.length < 2 ^ 32) : (s.trimmed mid).Terminated := by
  rw [Terminated, trimmed_len hnul hlt]
  change (mid ++ 0 :: s.ptr.drop (mid.length + 1))[mid.length]? = some 0
  rw [List.getElem?_append_right (Nat.le_refl _), Nat.sub_self]
  rfl

theorem trimmed_trimmed (s : MclString) (mid : List Byte) : (s.trimmed mid).trimmed mid = s.trimmed mid := by
  have hdrop : (mid ++ 0 :: s.ptr.drop (mid.length + 1)).drop (mid.length + 1) = s.ptr.drop (mid.length + 1) := by
    rw [List.drop_append, List.drop_eq_nil_of_le (Nat.le_succ _), Nat.add_sub_cancel_left]
    rfl
  simp only [trimmed, hdrop]

/-- `mcl_trim` takes away the blanks at both ends and no others, and a second time there are none. -/
theorem Terminated.trim_strips (hs : s.Terminated) (hnul : 0 ∉ s.contents) {c : Byte}
    (hbelow : below.head? = some c) (hc : isSpace c = false) :
    ∃ s' touched, mclTrim s below = some (s', touched) ∧
      s'.contents = strip isSpace s.contents ∧ s'.len.toNat = s'.contents.length ∧
      s'.ptr[s'.len.toNat]? = some 0 ∧ ∃ again, mclTrim s' below = some (s', again) := by
  obtain ⟨pre, post, rest, hparts⟩ := hs.parts
  obtain ⟨touched, htrim, -⟩ := hparts.mclTrim_eq fun _ => ⟨c, hbelow, hc⟩
  have hnul' : 0 ∉ strip isSpace s.contents := by
    intro h0
    rw [hparts.contents] at hnul
    exact hnul (List.mem_append_right _ (List.mem_append_left _ h0))
  have hlt : (strip isSpace s.contents).length < 2 ^ 32 := by
    have hlen := hparts.len
    have := s.len.isLt
    rw [hparts.contents, List.length_append, List.length_append] at hlen
    omega
  have hcontents : (s.trimmed (strip isSpace s.contents)).contents = strip isSpace s.contents :=
    trimmed_contents hnul' hlt
  have hterm := trimmed_terminated (s := s) hnul' hlt
  refine ⟨_, touched, htrim, hcontents, ?_, hterm, ?_⟩
  · rw [hcontents, trimmed_len hnul' hlt]
  · obtain ⟨_, _, _, hparts'⟩ := hterm.parts
    obtain ⟨again, htrim', -⟩ := hparts'.mclTrim_eq fun _ => ⟨c, hbelow, hc⟩
    rw [hcontents, strip_strip, trimmed_trimmed] at htrim'
    exact ⟨again, htrim'⟩

/-- `"  a b\t"` loses its ends and keeps the blank inside. -/
theorem Terminated.trim_strips_blank :
    ∃ s' touched, mclTrim (mclStringAlloc [32, 32, 97, 32, 98, 9] 6) [0] = some (s', touched) ∧
      s'.contents = strip isSpace (mclStringAlloc [32, 32, 97, 32, 98, 9] 6).contents ∧
      s'.len.toNat = s'.contents.length ∧ s'.ptr[s'.len.toNat]? = some 0 ∧
      ∃ again, mclTrim s' [0] = some (s', again) :=
  Terminated.trim_strips (s := mclStringAlloc [32, 32, 97, 32, 98, 9] 6) rfl (by decide) rfl (by decide)

/-- `mcl_trim` reads and writes only bytes of the buffer. -/
def TrimsInside (s : MclString) (below : List Byte) : Prop :=
  ∃ s' touched, mclTrim s below = some (s', touched) ∧ ∀ i ∈ touched, 0 ≤ i ∧ i ≤ s.len.toNat

/-- Among the reads are those of the backward scan. -/
theorem mclTrim_scan_down {s' : MclString} {touched : List ℤ} (h : mclTrim s below = some (s', touched)) :
    ∃ tail down, skipSpaces (-1) (s.contents.reverse ++ below) (s.len.toNat - 1) = some (tail, down) ∧
      ∀ i ∈ down, i ∈ touched := by
  rw [mclTrim] at h
  split at h
  · cases h
  · simp only [Option.bind_eq_bind, Option.bind_eq_some_iff, Prod.exists] at h
    obtain ⟨head, up, hup, tail, down, hdown, ptr, moved, hmove, ptr', hwrite, len, hlen, heq⟩ := h
    cases heq
    exact ⟨tail, down, hdown, fun i hi => by simp [hi]⟩

/-- What stops the backward scan inside the buffer is a byte of the string that is no blank. -/
theorem Terminated.inside_iff (hs : s.Terminated) (below : List Byte) :
    s.TrimsInside below ↔ ∃ c ∈ s.contents, isSpace c = false := by
  constructor
  · rintro ⟨s', touched, htrim, hin⟩
    by_contra hno
    have hblank : ∀ c ∈ s.contents.reverse, isSpace c = true := by
      intro c hc
      by_contra hne
      exact hno ⟨c, List.mem_reverse.mp hc, Bool.eq_false_iff.mpr hne⟩
    obtain ⟨tail, down, hscan, hdown⟩ := mclTrim_scan_down htrim
    rw [skipSpaces_append hblank] at hscan
    obtain ⟨⟨j, rest⟩, hrest, heq⟩ := Option.map_eq_some_iff.mp hscan
    cases heq
    -- past all the blanks it reads the byte in front of them
    have hmem := hin _ (hdown _ (List.mem_append_right _ (mem_of_skipSpaces hrest)))
    rw [List.length_reverse, hs.length_contents] at hmem
    omega
  · rintro ⟨c, hc, hne⟩
    obtain ⟨pre, post, rest, hparts⟩ := hs.parts
    have hmid : strip isSpace s.contents ≠ [] := by
      intro hnil
      rw [strip_eq_nil_iff.mp hnil c hc] at hne
      cases hne
    have hstops : strip isSpace s.contents = [] → ∃ c, below.head? = some c ∧ isSpace c = false :=
      fun hnil => absurd hnil hmid
    obtain ⟨touched, htrim, hin⟩ := hparts.mclTrim_eq hstops
    exact ⟨_, touched, htrim, hin hmid⟩

/-- The strings that `mcl_string_alloc` and `mcl_string_copy` return. -/
def Made (s : MclString) : Prop := s.Built ∨ ∃ src : MclString, src.Valid ∧ s = mclStringCopy src

theorem Made.terminated (h : s.Made) : s.Terminated := by
  rcases h with hs | ⟨src, hsrc, rfl⟩
  · exact hs.valid.terminated
  · exact hsrc.copy_valid.terminated

/-- A fresh string is trimmed inside its buffer exactly when it has a byte that is no blank. -/
theorem Made.trimsInside_iff (hs : s.Made) (below : List Byte) :
    s.TrimsInside below ↔ ∃ c ∈ s.contents, isSpace c = false :=
  hs.terminated.inside_iff below

/-- The string `" a"`: its last byte stops the scan. -/
theorem Made.trimsInside_iff_letter :
    (mclStringAlloc [32, 97] 2).TrimsInside [] ↔ ∃ c ∈ (mclStringAlloc [32, 97] 2).contents, isSpace c = false :=
  Made.trimsInside_iff (Or.inl ⟨[32, 97], 2, by decide, by decide, by decide, rfl⟩) []

/-- The backward scan of the empty string reads the byte in front of the buffer, the last one of `_ref`. -/
theorem trim_empty :
    (mclStringAlloc [] 0).Made ∧
      (mclTrim (mclStringAlloc [] 0) [0]).map Prod.snd = some [0, -1, 0, 0] ∧
      ¬(mclStringAlloc [] 0).TrimsInside [0] := by
  have hmade : (mclStringAlloc [] 0).Made := Or.inl ⟨[], 0, by decide, by decide, by decide, rfl⟩
  refine ⟨hmade, rfl, fun hin => ?_⟩
  obtain ⟨c, hc, -⟩ := (hmade.terminated.inside_iff [0]).mp hin
  cases hc

end MclString

end Mcl
