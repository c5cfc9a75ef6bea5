import Mathlib.Data.Nat.Digits.Defs
import Mcl.Library.Lines
import Mcl.Util.Log

/-! What a log is for: everything that a logger accepts can be read back from its file. -/
namespace Mcl
open Mcl.Library

/-- What a call of `mcl_log_info` is to keep. -/
structure LogRecord where
  tm : Tm
  level : LogLevel
  place : Option (List Byte × ℤ)
  message : List Byte

inductive LogEntry where
  | forbidden
  | nullContent
  | record (r : LogRecord)

/-- The loggers, and what each stream has got since the program began. -/
structure Journal where
  loggers : List (Option MclLog)
  entries : Stream → List LogEntry
  closed : Bool

namespace Journal

def took (fp : Stream) (entry : LogEntry) (j : Journal) : Journal :=
  { j with entries := Function.update j.entries fp (j.entries fp ++ [entry]) }

theorem took_self (fp : Stream) (entry : LogEntry) (j : Journal) :
    (j.took fp entry).entries fp = j.entries fp ++ [entry] := Function.update_self ..

theorem took_of_ne {fp fp' : Stream} (hne : fp' ≠ fp) (entry : LogEntry) (j : Journal) :
    (j.took fp entry).entries fp' = j.entries fp' := Function.update_of_ne hne ..

def put (fp : Stream) (entry : LogEntry) (j : Journal) : Option Journal :=
  if fp = .stdout ∧ j.closed then none else some (j.took fp entry)

def enroll (logger : MclLog) (j : Journal) : Option ℕ × Journal :=
  (some j.loggers.length, { j with loggers := j.loggers ++ [some logger] })

def step (j : Journal) : LogOp → Option (Option ℕ × Journal)
  | .new logName opens =>
    if logName.val = gDefaultStdout then some (j.enroll ⟨.stdout, lvAll⟩)
    else if 512 ≤ logName.val.length + 4 then none
    else if opens then some (j.enroll ⟨.file (logName.val ++ text ".log"), lvAll⟩)
    else some (none, j)
  | .info none _ _ _ _ _ => some (none, j)
  | .info (some logger) level file line content tm => do
    let log ← j.loggers[logger]?.join
    let j ←
      if level < log.lv then j.put .stdout .forbidden
      else
        match content with
        | none => j.put .stdout .nullContent
        | some content => j.put log.fp (.record ⟨tm, level, file.map fun file => (file.val, line), content.val⟩)
    some (none, j)
  | .setLevel none _ => some (none, j)
  | .setLevel (some logger) lv =>
    j.loggers[logger]?.join.map fun log => (none, { j with loggers := j.loggers.set logger (some { log with lv := lv }) })
  | .destroy none => none
  | .destroy (some logger) => do
    let log ← j.loggers[logger]?.join
    if log.fp = .stdout ∧ j.closed then none
    else
      some (none, { j with loggers := j.loggers.set logger none, closed := j.closed || decide (log.fp = .stdout) })

end Journal

def journalMachine : Machine Journal LogOp (Option ℕ) := ⟨⟨[], fun _ => [], false⟩, Journal.step⟩

/-! The lines of a log. -/

def levelName (lv : LogLevel) : List Byte :=
  if lv = lvDebug then text "DEBUG"
  else if lv = lvInfo then text "INFO"
  else if lv = lvWarn ∨ lv = lvError then text "ERROR"
  else if lv = lvFatal then text "FATAL"
  else text "UNKONWN"

def placeText : Option (List Byte × ℤ) → List Byte
  | none => []
  | some (file, line) => text "[file: " ++ file ++ text ", line: " ++ decimal line ++ text "] "

namespace LogRecord

/-- The time, the level, and the rest of the line. -/
def seen (r : LogRecord) : List Byte × List Byte × List Byte :=
  (strftime r.tm, levelName r.level, placeText r.place ++ r.message.take 255)

def line (r : LogRecord) : List Byte :=
  text "[" ++ r.seen.1 ++ text "] [" ++ r.seen.2.1 ++ text "] " ++ r.seen.2.2

end LogRecord

namespace LogEntry

def line : LogEntry → List Byte
  | forbidden => text "level forbiden"
  | nullContent => text "null log content"
  | record r => r.line

def seen : LogEntry → Option (List Byte × List Byte × List Byte)
  | record r => some r.seen
  | _ => none

end LogEntry

/-- How a line of a log is read: two fields in brackets, and the rest. -/
def readLine (line : List Byte) : Option (List Byte × List Byte × List Byte) := do
  let line ← behind (text "[") line
  let (time, line) := fieldOf 93 line
  let line ← behind (text " [") line
  let (mode, line) := fieldOf 93 line
  let line ← behind (text " ") line
  some (time, mode, line)

/-! What may stand in a field. -/

/-- Neither the end of a line nor that of a field. -/
def Inside (bytes : List Byte) : Prop := newline ∉ bytes ∧ 93 ∉ bytes

instance (bytes : List Byte) : Decidable (Inside bytes) := inferInstanceAs (Decidable (_ ∧ _))

theorem Inside.append {xs ys : List Byte} (hx : Inside xs) (hy : Inside ys) : Inside (xs ++ ys) := by
  constructor
  · rw [List.mem_append, not_or]
    exact ⟨hx.1, hy.1⟩
  · rw [List.mem_append, not_or]
    exact ⟨hx.2, hy.2⟩

theorem decimal_natCast (n : ℕ) : decimal n = (Nat.toDigits 10 n).map fun c => BitVec.ofNat 8 c.toNat := by
  have hrepr : (toString (n : ℤ)).toList = Nat.toDigits 10 n := Nat.toList_repr
  rw [decimal, text, hrepr]

theorem inside_digits (n : ℕ) : Inside ((Nat.toDigits 10 n).map fun c => BitVec.ofNat 8 c.toNat) := by
  have hdigit : ∀ c ∈ Nat.toDigits 10 n, 48 ≤ c.toNat ∧ c.toNat ≤ 57 := by
    intro c hc
    have h := Nat.isDigit_of_mem_toDigits (by decide) (by decide) hc
    simp only [Char.isDigit, Bool.and_eq_true, decide_eq_true_eq] at h
    exact h
  have hne : ∀ k : ℕ, k < 48 ∨ 57 < k → k < 256 →
      BitVec.ofNat 8 k ∉ (Nat.toDigits 10 n).map fun c => BitVec.ofNat 8 c.toNat := by
    intro k hk hsmall hmem
    obtain ⟨c, hc, heq⟩ := List.mem_map.mp hmem
    have hc := hdigit c hc
    have hval := congrArg BitVec.toNat heq
    rw [BitVec.toNat_ofNat, BitVec.toNat_ofNat] at hval
    omega
  exact ⟨hne 10 (by decide) (by decide), hne 93 (by decide) (by decide)⟩

theorem inside_decimal (n : ℤ) : Inside (decimal n) := by
  cases n with
  | ofNat n =>
    rw [Int.ofNat_eq_natCast, decimal_natCast]
    exact inside_digits n
  | negSucc n =>
    have hrepr : (toString (Int.negSucc n)).toList = '-' :: Nat.toDigits 10 (n + 1) := by
      change ("-" ++ Nat.repr (n + 1)).toList = _
      rw [String.toList_append, Nat.toList_repr]
      rfl
    rw [decimal, text, hrepr, List.map_cons, ← List.singleton_append]
    exact Inside.append (by decide) (inside_digits (n + 1))

theorem length_decimal_le {n k : ℕ} (hk : 0 < k) (hn : n < 10 ^ k) : (decimal n).length ≤ k := by
  rw [decimal_natCast, List.length_map]
  exact (Nat.length_toDigits_le_iff (by decide) hk).mpr hn

theorem length_twoDigits_le {n : ℕ} (hn : n < 100) : (twoDigits n).length ≤ 2 := by
  unfold twoDigits
  split
  · next hsmall =>
    have hlen : (decimal n).length ≤ 1 := length_decimal_le (by decide) hsmall
    rw [List.length_append]
    change 1 + _ ≤ 2
    omega
  · exact length_decimal_le (by decide) hn

theorem inside_twoDigits (n : ℕ) : Inside (twoDigits n) := by
  unfold twoDigits
  split
  · exact Inside.append (by decide) (inside_decimal n)
  · exact inside_decimal n

theorem inside_strftime (tm : Tm) : Inside (strftime tm) := by
  have hdash : Inside (text "-") := by decide
  have hcolon : Inside (text ":") := by decide
  have hspace : Inside (text " ") := by decide
  unfold strftime
  repeat' apply Inside.append
  all_goals first
    | assumption
    | exact inside_twoDigits _
    | exact inside_decimal _

/-- The time fits its buffer. -/
theorem makeTime_eq (tm : Tm) : makeTime maxLogTimeLen tm = some (strftime tm) := by
  obtain ⟨hmon, hmday, hhour, hmin, hsec⟩ := tm.small
  have hyear := length_decimal_le (by decide : 0 < 10) tm.year_lt
  have hmon' := length_twoDigits_le (n := tm.mon + 1) (by omega)
  have hmday' := length_twoDigits_le (n := tm.mday) (by omega)
  have hhour' := length_twoDigits_le (n := tm.hour) (by omega)
  have hmin' := length_twoDigits_le (n := tm.min) (by omega)
  have hsec' := length_twoDigits_le (n := tm.sec) (by omega)
  have hone : (text "-").length = 1 ∧ (text ":").length = 1 ∧ (text " ").length = 1 := by decide
  refine if_pos ?_
  unfold strftime maxLogTimeLen
  simp only [List.length_append, hone]
  omega

theorem levelName_mem (lv : LogLevel) :
    levelName lv ∈ [text "DEBUG", text "INFO", text "ERROR", text "FATAL", text "UNKONWN"] := by
  unfold levelName
  split_ifs <;> simp

/-- So does the level. -/
theorem makeMode_eq (lv : LogLevel) : makeMode maxLogModeLen lv = some (levelName lv) := by
  have hfits : ∀ s ∈ [text "DEBUG", text "INFO", text "ERROR", text "FATAL", text "UNKONWN"],
      terminate maxLogModeLen (snprintf maxLogModeLen s).1 (snprintf maxLogModeLen s).2 = some s := by decide
  have hmode : makeMode maxLogModeLen lv =
      terminate maxLogModeLen (snprintf maxLogModeLen (levelName lv)).1 (snprintf maxLogModeLen (levelName lv)).2 := by
    unfold makeMode levelName
    split_ifs <;> rfl
  rw [hmode]
  exact hfits _ (levelName_mem lv)

theorem inside_levelName (lv : LogLevel) : Inside (levelName lv) := by
  have hinside : ∀ s ∈ [text "DEBUG", text "INFO", text "ERROR", text "FATAL", text "UNKONWN"], Inside s := by decide
  exact hinside _ (levelName_mem lv)

theorem makeFilepath_eq (logName : List Byte) :
    makeFilepath 512 gLogDirname logName =
      if 512 ≤ logName.length + 4 then none else some (logName ++ text ".log") := by
  have hdir : ¬ gLogDirname.length ≠ 0 := by decide
  have hlen : (logName ++ text ".log").length = logName.length + 4 := List.length_append
  simp only [makeFilepath, hdir, if_false, snprintf, terminate, hlen]
  split
  · next hfits =>
    rw [if_neg (by omega), List.take_take, List.take_of_length_le]
    omega
  · next hlong => rw [if_pos (by omega)]

/-! A line as it is written is read as what was to be kept. -/

theorem LogRecord.line_eq (r : LogRecord) :
    r.line = text "[" ++ (r.seen.1 ++ 93 :: (text " [" ++ (r.seen.2.1 ++ 93 :: (text " " ++ r.seen.2.2)))) := by
  simp [LogRecord.line, text]

theorem readLine_line (e : LogEntry) : readLine e.line = e.seen := by
  cases e with
  | forbidden => rfl
  | nullContent => rfl
  | record r =>
    have htime : 93 ∉ r.seen.1 := (inside_strftime r.tm).2
    have hmode : 93 ∉ r.seen.2.1 := (inside_levelName r.level).2
    change readLine r.line = some r.seen
    rw [r.line_eq]
    simp only [readLine, behind_append, fieldOf_append htime, fieldOf_append hmode, Option.bind_eq_bind, Option.bind_some]

/-! The code and the journal. -/

def bytesOf (entries : List LogEntry) : List Byte := entries.flatMap fun e => e.line ++ [newline]

/-- The streams have got the lines of the journal. -/
structure Keeps (files : List Byte → Option (List Byte)) (shown : List Byte) (w : LogWorld) (j : Journal) : Prop where
  loggers : w.loggers = j.loggers
  files : ∀ path, (w.files path).getD [] = (files path).getD [] ++ bytesOf (j.entries (.file path))
  stdout : w.stdout = if j.closed then none else some (shown ++ bytesOf (j.entries .stdout))

namespace LogWorld

variable {files : List Byte → Option (List Byte)} {shown : List Byte} {w : LogWorld} {j : Journal}

theorem bytesOf_concat (entries : List LogEntry) (e : LogEntry) :
    bytesOf (entries ++ [e]) = bytesOf entries ++ (e.line ++ [newline]) := by
  rw [bytesOf, List.flatMap_append, List.flatMap_singleton]
  rfl

/-- A line is written as the journal takes its entry. -/
theorem write_put (h : Keeps files shown w j) (fp : Stream) (e : LogEntry) :
    (w.write fp (e.line ++ [newline]) = none ∧ j.put fp e = none) ∨
      ∃ w' j', w.write fp (e.line ++ [newline]) = some w' ∧ j.put fp e = some j' ∧ Keeps files shown w' j' := by
  cases fp with
  | stdout =>
    cases hclosed : j.closed with
    | true =>
      refine .inl ⟨?_, ?_⟩
      · rw [write, h.stdout, hclosed]
        rfl
      · rw [Journal.put, if_pos ⟨rfl, hclosed⟩]
    | false =>
      have hopen : ¬ (Stream.stdout = .stdout ∧ j.closed = true) := by simp [hclosed]
      have hshown : w.stdout = some (shown ++ bytesOf (j.entries .stdout)) := by
        rw [h.stdout, hclosed]
        rfl
      refine .inr ⟨{ w with stdout := some (shown ++ bytesOf (j.entries .stdout) ++ (e.line ++ [newline])) }, _, ?_,
        if_neg hopen, h.loggers, fun path => ?_, ?_⟩
      · rw [write, hshown]
        rfl
      · rw [Journal.took_of_ne (by simp)]
        exact h.files path
      · have hstill : (j.took .stdout e).closed = false := hclosed
        rw [hstill, Journal.took_self, bytesOf_concat, List.append_assoc]
        rfl
  | file path =>
    have hopen : ¬ (Stream.file path = .stdout ∧ j.closed = true) := by simp
    refine .inr ⟨_, _, rfl, if_neg hopen, h.loggers, fun path' => ?_, ?_⟩
    · dsimp only
      by_cases hpath : path' = path
      · subst hpath
        rw [Function.update_self, Journal.took_self, Option.getD_some, h.files, bytesOf_concat, List.append_assoc]
      · rw [Function.update_of_ne hpath, Journal.took_of_ne (by simpa using hpath)]
        exact h.files path'
    · rw [Journal.took_of_ne (by simp)]
      exact h.stdout

/-- What `mcl_log_info` writes without a place. -/
theorem line_record_none (tm : Tm) (level : LogLevel) (content : List Byte) :
    text "[" ++ strftime tm ++ text "] [" ++ levelName level ++ text "] " ++ (snprintf maxLogBuffLen content).1 ++
        text "\n" =
      (LogEntry.record ⟨tm, level, none, content⟩).line ++ [newline] := by
  rfl

/-- And with one. -/
theorem line_record_some (tm : Tm) (level : LogLevel) (file : List Byte) (line : ℤ) (content : List Byte) :
    text "[" ++ strftime tm ++ text "] [" ++ levelName level ++ text "] [file: " ++ file ++ text ", line: " ++
          decimal line ++ text "] " ++ (snprintf maxLogBuffLen content).1 ++ text "\n" =
      (LogEntry.record ⟨tm, level, some (file, line), content⟩).line ++ [newline] := by
  have hjoined : text "] [file: " = text "] " ++ text "[file: " := rfl
  have hnewline : text "\n" = [newline] := rfl
  simp only [hjoined, hnewline, LogEntry.line, LogRecord.line, LogRecord.seen, placeText, snprintf, maxLogBuffLen,
    List.append_assoc]

/-- What a call that writes a line makes of the code and of the journal. -/
def Alike {α β : Type} (R : α → β → Prop) (x : Option (Option ℕ × α)) (y : Option (Option ℕ × β)) : Prop :=
  (x = none ∧ y = none) ∨ ∃ r w j, x = some (r, w) ∧ y = some (r, j) ∧ R w j

theorem alike_write (h : Keeps files shown w j) (fp : Stream) (e : LogEntry) {out : List Byte}
    (hout : out = e.line ++ [newline]) :
    Alike (Keeps files shown) ((w.write fp out).map fun w => (none, w)) ((j.put fp e).bind fun j => some (none, j)) := by
  subst hout
  rcases write_put h fp e with ⟨hw, hj⟩ | ⟨w', j', hw, hj, hkeeps⟩
  · rw [hw, hj]
    exact .inl ⟨rfl, rfl⟩
  · rw [hw, hj]
    exact .inr ⟨none, w', j', rfl, rfl, hkeeps⟩

theorem alike_none : Alike (Keeps files shown) none none := .inl ⟨rfl, rfl⟩

theorem alike_same (h : Keeps files shown w j) : Alike (Keeps files shown) (some (none, w)) (some (none, j)) :=
  .inr ⟨none, w, j, rfl, rfl, h⟩

theorem alike_enroll (h : Keeps files shown w j) (logger : MclLog) :
    Alike (Keeps files shown) (some (w.alloc logger)) (some (j.enroll logger)) := by
  refine .inr ⟨some w.loggers.length, _, (j.enroll logger).2, rfl, ?_, ?_, h.files, h.stdout⟩
  · rw [h.loggers]
    rfl
  · change w.loggers ++ [some logger] = j.loggers ++ [some logger]
    rw [h.loggers]

/-- `fopen` of a file for appending. -/
theorem write_nil (h : Keeps files shown w j) (path : List Byte) :
    ∃ w', w.write (.file path) [] = some w' ∧ Keeps files shown w' j := by
  refine ⟨_, rfl, h.loggers, fun path' => ?_, h.stdout⟩
  dsimp only
  by_cases hpath : path' = path
  · subst hpath
    rw [Function.update_self, Option.getD_some, List.append_nil]
    exact h.files path'
  · rw [Function.update_of_ne hpath]
    exact h.files path'

theorem alike_new (h : Keeps files shown w j) (logName : CString) (opens : Bool) :
    Alike (Keeps files shown) (execLog w (.new logName opens)) (j.step (.new logName opens)) := by
  have hlen : (logName.val ++ text ".log").length ≠ 0 := by
    rw [List.length_append]
    exact Nat.ne_of_gt (Nat.add_pos_right _ (by decide))
  simp only [execLog, Journal.step, mclLogNew, makeFilepath_eq]
  split
  · exact alike_enroll h _
  split
  · exact alike_none
  simp only [Option.bind_eq_bind, Option.bind_some, hlen, if_false]
  split
  · obtain ⟨w', hw, hkeeps⟩ := write_nil h (logName.val ++ text ".log")
    rw [hw]
    exact alike_enroll hkeeps _
  · exact alike_same h

/-- Where a pointer to a logger that is gone is passed, both stop. -/
theorem alike_deref (h : Keeps files shown w j) (logger : ℕ) {f : MclLog → Option (Option ℕ × LogWorld)}
    {g : MclLog → Option (Option ℕ × Journal)} (hfg : ∀ log, Alike (Keeps files shown) (f log) (g log)) :
    Alike (Keeps files shown) ((w.deref logger).bind f) ((j.loggers[logger]?.join).bind g) := by
  rw [deref, h.loggers]
  cases j.loggers[logger]?.join with
  | none => exact alike_none
  | some log => exact hfg log

theorem alike_info (h : Keeps files shown w j) (logger : Option ℕ) (level : LogLevel) (file : Option CString) (line : ℤ)
    (content : Option CString) (tm : Tm) :
    Alike (Keeps files shown) (execLog w (.info logger level file line content tm))
      (j.step (.info logger level file line content tm)) := by
  cases logger with
  | none => exact alike_same h
  | some logger =>
    simp only [execLog, Journal.step, mclLogInfo, makeTime_eq, makeMode_eq, Option.bind_eq_bind, Option.bind_some]
    rw [Option.map_bind]
    apply alike_deref h logger
    intro log
    rw [Function.comp_apply]
    by_cases hlevel : level < log.lv
    · rw [if_pos hlevel, if_pos hlevel]
      exact alike_write h .stdout .forbidden rfl
    rw [if_neg hlevel, if_neg hlevel]
    cases content with
    | none => exact alike_write h .stdout .nullContent rfl
    | some content =>
      -- with a place and without one the line is the same, except for `placeText`
      cases file with
      | none => exact alike_write h log.fp (.record ⟨tm, level, none, content.val⟩) (line_record_none ..)
      | some file =>
        exact alike_write h log.fp (.record ⟨tm, level, some (file.val, line), content.val⟩) (line_record_some ..)

theorem keeps_store (h : Keeps files shown w j) (logger : ℕ) (value : Option MclLog) :
    Keeps files shown (w.store logger value) { j with loggers := j.loggers.set logger value } := by
  refine ⟨?_, h.files, h.stdout⟩
  change w.loggers.set logger value = _
  rw [h.loggers]

theorem alike_setLevel (h : Keeps files shown w j) (logger : Option ℕ) (lv : LogLevel) :
    Alike (Keeps files shown) (execLog w (.setLevel logger lv)) (j.step (.setLevel logger lv)) := by
  cases logger with
  | none => exact alike_same h
  | some logger =>
    simp only [execLog, Journal.step, mclLogSetLevel, Option.map_map]
    rw [Option.map_eq_bind, Option.map_eq_bind]
    refine alike_deref h logger fun log => ?_
    exact alike_same (keeps_store h logger (some { log with lv := lv }))

theorem alike_destroy (h : Keeps files shown w j) (logger : Option ℕ) :
    Alike (Keeps files shown) (execLog w (.destroy logger)) (j.step (.destroy logger)) := by
  cases logger with
  | none => exact alike_none
  | some logger =>
    simp only [execLog, Journal.step, mclLogDestroy, Option.bind_eq_bind, Option.bind_some]
    rw [Option.map_bind]
    refine alike_deref h logger fun log => ?_
    have hkeeps := keeps_store h logger none
    cases hfp : log.fp with
    | file path =>
      have hother : ¬ (Stream.file path = .stdout ∧ j.closed = true) := by simp
      rw [Function.comp_apply, hfp, if_neg hother]
      have hclosed : (j.closed || decide (Stream.file path = .stdout)) = j.closed := Bool.or_false j.closed
      rw [hclosed]
      exact alike_same hkeeps
    | stdout =>
      rw [Function.comp_apply, hfp]
      cases hclosed : j.closed with
      | true =>
        have hgone : w.stdout = none := by rw [h.stdout, if_pos hclosed]
        dsimp only
        rw [if_pos hgone, if_pos ⟨rfl, rfl⟩]
        exact alike_none
      | false =>
        have hopen : w.stdout ≠ none := by simp [h.stdout, hclosed]
        dsimp only
        rw [if_neg hopen, if_neg (by simp)]
        apply alike_same
        exact ⟨hkeeps.loggers, hkeeps.files, rfl⟩

theorem alike_exec (h : Keeps files shown w j) (op : LogOp) : Alike (Keeps files shown) (execLog w op) (j.step op) := by
  cases op with
  | new logName opens => exact alike_new h logName opens
  | info logger level file line content tm => exact alike_info h logger level file line content tm
  | setLevel logger lv => exact alike_setLevel h logger lv
  | destroy logger => exact alike_destroy h logger

end LogWorld

/-- The code is defined just where the journal goes on. -/
theorem log_runs (files : List Byte → Option (List Byte)) (shown : List Byte) (ops : List LogOp) :
    ((logMachine files shown).run ops = none ∧ journalMachine.run ops = none) ∨
      ∃ hist w j, (logMachine files shown).run ops = some (hist, w) ∧ journalMachine.run ops = some (hist, j) ∧
        Keeps files shown w j := by
  apply Machine.run_bisimulation
  · refine ⟨rfl, fun path => ?_, ?_⟩
    · exact (List.append_nil _).symm
    · exact congrArg some (List.append_nil shown).symm
  · intro w j op h
    exact LogWorld.alike_exec h op

/-! The lines come apart again where no message and no name of a source file has a newline in it. -/

def LogOp.Plain : LogOp → Prop
  | .info _ _ file _ content _ => (∀ f ∈ file, newline ∉ f.val) ∧ ∀ c ∈ content, newline ∉ c.val
  | _ => True

instance : DecidablePred LogOp.Plain
  | .info _ _ file _ content _ =>
    inferInstanceAs (Decidable ((∀ f ∈ file, newline ∉ f.val) ∧ ∀ c ∈ content, newline ∉ c.val))
  | .new .. | .setLevel .. | .destroy .. => isTrue trivial

theorem newline_not_mem_append {xs ys : List Byte} : newline ∉ xs ++ ys ↔ newline ∉ xs ∧ newline ∉ ys := by
  rw [List.mem_append, not_or]

theorem LogRecord.newline_not_mem {r : LogRecord} (hplace : ∀ p ∈ r.place, newline ∉ p.1)
    (hmessage : newline ∉ r.message) : newline ∉ r.line := by
  have hplaceText : newline ∉ placeText r.place := by
    cases hp : r.place with
    | none => exact List.not_mem_nil
    | some p =>
      have hfile := hplace p hp
      have hline := (inside_decimal p.2).1
      simp only [placeText, newline_not_mem_append]
      exact ⟨⟨⟨⟨by decide, hfile⟩, by decide⟩, hline⟩, by decide⟩
  have hcut : newline ∉ r.message.take 255 := fun hc => hmessage (List.mem_of_mem_take hc)
  simp only [LogRecord.line, newline_not_mem_append]
  exact ⟨⟨⟨⟨⟨by decide, (inside_strftime r.tm).1⟩, by decide⟩, (inside_levelName r.level).1⟩, by decide⟩,
    newline_not_mem_append.mpr ⟨hplaceText, hcut⟩⟩

namespace Journal

variable {j j' : Journal} {r : Option ℕ}

/-- A step adds one entry to a stream, or none. -/
def Adds (op : LogOp) (j j' : Journal) : Prop :=
  ∀ fp, j'.entries fp = j.entries fp ∨
    ∃ e, j'.entries fp = j.entries fp ++ [e] ∧ (op.Plain → newline ∉ e.line)

theorem adds_put {op : LogOp} {fp : Stream} {e : LogEntry} (hput : j.put fp e = some j')
    (he : op.Plain → newline ∉ e.line) : Adds op j j' := by
  unfold put at hput
  split at hput
  · exact absurd hput (by simp)
  · intro fp'
    rw [← Option.some.inj hput]
    by_cases hfp : fp' = fp
    · subst hfp
      exact .inr ⟨e, took_self .., he⟩
    · exact .inl (took_of_ne hfp e j)

theorem adds_of_entries {op : LogOp} (hentries : j'.entries = j.entries) : Adds op j j' :=
  fun fp => .inl (congrFun hentries fp)

theorem adds_info {logger : Option ℕ} {level : LogLevel} {file : Option CString} {line : ℤ} {content : Option CString}
    {tm : Tm} (hs : j.step (.info logger level file line content tm) = some (r, j')) :
    Adds (.info logger level file line content tm) j j' := by
  cases logger with
  | none =>
    cases hs
    exact adds_of_entries rfl
  | some logger =>
    simp only [step, Option.bind_eq_bind] at hs
    obtain ⟨log, hlog, hs⟩ := Option.bind_eq_some_iff.mp hs
    split at hs
    · obtain ⟨k, hput, hs⟩ := Option.bind_eq_some_iff.mp hs
      cases hs
      exact adds_put hput fun _ => by decide
    cases content with
    | none =>
      obtain ⟨k, hput, hs⟩ := Option.bind_eq_some_iff.mp hs
      cases hs
      exact adds_put hput fun _ => by decide
    | some content =>
      obtain ⟨k, hput, hs⟩ := Option.bind_eq_some_iff.mp hs
      cases hs
      apply adds_put hput
      intro hplain
      apply LogRecord.newline_not_mem
      · intro p hp
        obtain ⟨f, hf, rfl⟩ := Option.map_eq_some_iff.mp hp
        exact hplain.1 f hf
      · exact hplain.2 content rfl

theorem adds_step {op : LogOp} (hs : j.step op = some (r, j')) : Adds op j j' := by
  cases op with
  | new logName opens =>
    apply adds_of_entries
    simp only [step] at hs
    split at hs
    · cases hs
      rfl
    split at hs
    · exact absurd hs (by simp)
    split at hs
    · cases hs
      rfl
    · cases hs
      rfl
  | info logger level file line content tm => exact adds_info hs
  | setLevel logger lv =>
    apply adds_of_entries
    cases logger with
    | none =>
      cases hs
      rfl
    | some logger =>
      obtain ⟨log, hlog, hs⟩ := Option.map_eq_some_iff.mp hs
      cases hs
      rfl
  | destroy logger =>
    apply adds_of_entries
    cases logger with
    | none => exact absurd hs (by simp [step])
    | some logger =>
      simp only [step, Option.bind_eq_bind] at hs
      obtain ⟨log, hlog, hs⟩ := Option.bind_eq_some_iff.mp hs
      split at hs
      · exact absurd hs (by simp)
      · cases hs
        rfl

/-- No line of a stream is broken. -/
def Unbroken (j : Journal) : Prop := ∀ fp, ∀ e ∈ j.entries fp, newline ∉ e.line

theorem unbroken_step {op : LogOp} (hj : j.Unbroken) (hplain : op.Plain) (hs : j.step op = some (r, j')) :
    j'.Unbroken := by
  intro fp e he
  rcases adds_step hs fp with hsame | ⟨e', hadded, hline⟩
  · rw [hsame] at he
    exact hj fp e he
  · rw [hadded, List.mem_append, List.mem_singleton] at he
    rcases he with he | rfl
    · exact hj fp e he
    · exact hline hplain

theorem unbroken_of_run {ops : List LogOp} (hplain : ∀ op ∈ ops, op.Plain) {hist : List (LogOp × Option ℕ)}
    (hrun : journalMachine.run ops = some (hist, j)) : j.Unbroken := by
  have hreach := Machine.reach_of_inputs (p := LogOp.Plain) hrun hplain
  apply hreach.invariant
  · intro fp e he
    exact absurd he List.not_mem_nil
  · intro j op r j' hj hop hs
    exact unbroken_step hj hop hs

end Journal

theorem linesOf_bytesOf {entries : List LogEntry} (h : ∀ e ∈ entries, newline ∉ e.line) :
    (linesOf newline (bytesOf entries)).map (·.map readLine) = some (entries.map LogEntry.seen) := by
  have hbytes : bytesOf entries = (entries.map LogEntry.line).flatMap fun line => line ++ [newline] := by
    rw [List.flatMap_map]
    rfl
  have hlines : ∀ line ∈ entries.map LogEntry.line, newline ∉ line := by
    intro line hline
    obtain ⟨e, he, rfl⟩ := List.mem_map.mp hline
    exact h e he
  rw [hbytes, linesOf_flatMap hlines, Option.map_some, List.map_map]
  exact congrArg some (List.map_congr_left fun e _ => readLine_line e)

/-- Every record that a logger takes is read back from its stream, in order and behind what stood there before, and
nothing else is, whatever the program does with its loggers. -/
theorem log_reads_back (files : List Byte → Option (List Byte)) (shown : List Byte) (ops : List LogOp) :
    ((logMachine files shown).run ops).map Prod.fst = (journalMachine.run ops).map Prod.fst ∧
      ∀ hist w j, (logMachine files shown).run ops = some (hist, w) → journalMachine.run ops = some (hist, j) →
        (∀ op ∈ ops, op.Plain) →
          (∀ path, ∃ added, (w.files path).getD [] = (files path).getD [] ++ added ∧
            (linesOf newline added).map (·.map readLine) = some ((j.entries (.file path)).map LogEntry.seen)) ∧
          (w.stdout = none ↔ j.closed = true) ∧
          ∀ shown', w.stdout = some shown' → ∃ added, shown' = shown ++ added ∧
            (linesOf newline added).map (·.map readLine) = some ((j.entries .stdout).map LogEntry.seen) := by
  rcases log_runs files shown ops with ⟨hw, hj⟩ | ⟨hist, w, j, hw, hj, hkeeps⟩
  · constructor
    · rw [hw, hj]
      rfl
    · intro hist w j hw'
      rw [hw] at hw'
      exact absurd hw' (by simp)
  constructor
  · rw [hw, hj]
    rfl
  · intro hist' w' j' hw' hj' hplain
    obtain ⟨rfl, rfl⟩ := Prod.mk.inj (Option.some.inj (hw.symm.trans hw'))
    obtain ⟨-, rfl⟩ := Prod.mk.inj (Option.some.inj (hj.symm.trans hj'))
    have hunbroken := Journal.unbroken_of_run hplain hj
    refine ⟨fun path => ⟨_, hkeeps.files path, linesOf_bytesOf (hunbroken _)⟩, ?_, ?_⟩
    · rw [hkeeps.stdout]
      split <;> simp_all
    · intro shown' hshown
      rw [hkeeps.stdout] at hshown
      split at hshown
      · exact absurd hshown (by simp)
      · exact ⟨_, (Option.some.inj hshown).symm, linesOf_bytesOf (hunbroken _)⟩

def startTime : Tm := ⟨2024, 0, 2, 3, 4, 5, by decide, by decide⟩

/-- Two loggers of one file: a warning, which is seen as an error, a level that is forbidden, and a fatal error. -/
def twoLoggers : List LogOp :=
  [.new ⟨text "a", by decide⟩ true, .new ⟨text "a", by decide⟩ true,
    .info (some 0) lvWarn (some ⟨text "x.c", by decide⟩) 7 (some ⟨text "one", by decide⟩) startTime,
    .setLevel (some 1) lvError,
    .info (some 1) lvInfo none (-1) (some ⟨text "two", by decide⟩) startTime,
    .info (some 1) lvFatal none (-1) (some ⟨text "three", by decide⟩) startTime,
    .destroy (some 0)]

theorem log_reads_back_twoLoggers :
    ∃ hist w, (logMachine (fun _ => none) []).run twoLoggers = some (hist, w) ∧
      (linesOf newline ((w.files (text "a.log")).getD [])).map (·.map readLine) =
        some [some (text "2024-01-02 03:04:05", text "ERROR", text "[file: x.c, line: 7] one"),
          some (text "2024-01-02 03:04:05", text "FATAL", text "three")] := by
  have hplain : ∀ op ∈ twoLoggers, op.Plain := by decide
  obtain ⟨hist, j, hj, hentries⟩ := Machine.exists_of_run journalMachine twoLoggers
    (fun r => (r.2.entries (.file (text "a.log"))).map LogEntry.seen =
      [some (text "2024-01-02 03:04:05", text "ERROR", text "[file: x.c, line: 7] one"),
        some (text "2024-01-02 03:04:05", text "FATAL", text "three")]) (by decide)
  obtain ⟨hsame, hread⟩ := log_reads_back (fun _ => none) [] twoLoggers
  rw [hj] at hsame
  obtain ⟨⟨hist', w⟩, hw, hhist⟩ := Option.map_eq_some_iff.mp hsame
  cases hhist
  obtain ⟨hfiles, -, -⟩ := hread hist w j hw hj hplain
  obtain ⟨added, hadded, hlines⟩ := hfiles (text "a.log")
  refine ⟨hist, w, hw, ?_⟩
  rw [hadded]
  exact hlines.trans (congrArg some hentries)

end Mcl
