import Mathlib.Logic.Function.Basic
import Mcl.Library.Runs
import Mcl.Util.String

/-! `mcl_log.c`. The files are what they contain, and a `FILE` is where it writes to; what `stdout` has shown is counted
with what its buffer still holds. `none` is undefined behaviour: a write outside a buffer, the use of a `mcl_log` that is
gone, or of `stdout` after `fclose`. -/
namespace Mcl
open Mcl.Library

/-- The bytes of a string literal. -/
def text (s : String) : List Byte := s.toList.map fun c => BitVec.ofNat 8 c.toNat

def newline : Byte := 10

/-- What `printf` writes for `%d`. -/
def decimal (n : ℤ) : List Byte := text (toString n)

/-! `mcl_log_level`, an enumeration with the representation of `unsigned`. -/

abbrev LogLevel := ℕ

def lvAll : LogLevel := 1
def lvDebug : LogLevel := 2
def lvInfo : LogLevel := 3
def lvWarn : LogLevel := 4
def lvError : LogLevel := 5
def lvFatal : LogLevel := 6

def maxLogTimeLen : ℕ := 30
def maxLogBuffLen : ℕ := 256
def maxLogModeLen : ℕ := 8

def gLogDirname : List Byte := text ""
def gDefaultStdout : List Byte := text "__STDOUT__"

/-- What `snprintf` leaves in a buffer of `size` bytes, and what it returns. -/
def snprintf (size : ℕ) (out : List Byte) : List Byte × ℕ := (out.take (size - 1), out.length)

/-- `output[len] = 0` on a buffer of `size` bytes. -/
def terminate (size : ℕ) (output : List Byte) (len : ℕ) : Option (List Byte) :=
  if len < size then some (output.take len) else none

def makeFilepath (size : ℕ) (dirname filename : List Byte) : Option (List Byte) :=
  let (output, len) :=
    if dirname.length ≠ 0 then snprintf size (dirname ++ text "/" ++ filename ++ text ".log")
    else snprintf size (filename ++ text ".log")
  terminate size output len

/-- `struct tm`, as `localtime` fills it in. -/
structure Tm where
  year : ℕ
  mon : ℕ
  mday : ℕ
  hour : ℕ
  min : ℕ
  sec : ℕ
  year_lt : year < 10 ^ 10
  small : mon < 12 ∧ mday < 32 ∧ hour < 24 ∧ min < 60 ∧ sec < 61
  deriving DecidableEq

def twoDigits (n : ℕ) : List Byte := if n < 10 then text "0" ++ decimal n else decimal n

/-- What `strftime` writes for `%Y-%m-%d %H:%M:%S`. -/
def strftime (tm : Tm) : List Byte :=
  decimal tm.year ++ text "-" ++ twoDigits (tm.mon + 1) ++ text "-" ++ twoDigits tm.mday ++ text " " ++
    twoDigits tm.hour ++ text ":" ++ twoDigits tm.min ++ text ":" ++ twoDigits tm.sec

/-- Where the buffer is too small `strftime` leaves anything in it. -/
def makeTime (size : ℕ) (tm : Tm) : Option (List Byte) :=
  if (strftime tm).length < size then some (strftime tm) else none

def makeMode (size : ℕ) (lv : LogLevel) : Option (List Byte) :=
  let (modestr, ret) :=
    if lv = lvDebug then snprintf size (text "DEBUG")
    else if lv = lvInfo then snprintf size (text "INFO")
    -- `case LV_WARN` has no `break`, so the next one writes over what it has written
    else if lv = lvWarn ∨ lv = lvError then snprintf size (text "ERROR")
    else if lv = lvFatal then snprintf size (text "FATAL")
    else snprintf size (text "UNKONWN")
  terminate size modestr ret

/-- Where a `FILE` writes to. -/
inductive Stream where
  | stdout
  | file (path : List Byte)
  deriving DecidableEq

/-- `mcl_log`. -/
structure MclLog where
  fp : Stream
  lv : LogLevel
  deriving DecidableEq

/-- The files and what they contain, what `stdout` has shown unless it is closed, and every `mcl_log` that has been made,
unless it is freed. -/
structure LogWorld where
  files : List Byte → Option (List Byte)
  stdout : Option (List Byte)
  loggers : List (Option MclLog)

namespace LogWorld

def write (fp : Stream) (out : List Byte) (w : LogWorld) : Option LogWorld :=
  match fp with
  | .stdout => w.stdout.map fun shown => { w with stdout := some (shown ++ out) }
  | .file path => some { w with files := Function.update w.files path (some ((w.files path).getD [] ++ out)) }

/-- The `mcl_log` behind a pointer. -/
def deref (logger : ℕ) (w : LogWorld) : Option MclLog := w.loggers[logger]?.join

def store (logger : ℕ) (value : Option MclLog) (w : LogWorld) : LogWorld :=
  { w with loggers := w.loggers.set logger value }

def alloc (logger : MclLog) (w : LogWorld) : Option ℕ × LogWorld :=
  (some w.loggers.length, { w with loggers := w.loggers ++ [some logger] })

end LogWorld

/-- `mcl_log_new`. `opens` says whether `fopen` does. -/
def mclLogNew (logName : List Byte) (opens : Bool) (w : LogWorld) : Option (Option ℕ × LogWorld) :=
  if logName = gDefaultStdout then some (w.alloc ⟨.stdout, lvAll⟩)
  else do
    let filePath ← makeFilepath 512 gLogDirname logName
    if filePath.length = 0 then some (none, w)
    else if opens then do
      let w ← w.write (.file filePath) []
      some (w.alloc ⟨.file filePath, lvAll⟩)
    else some (none, w)

/-- `mcl_log_info`. `content` is what the format and its arguments expand to, if the format is not NULL. -/
def mclLogInfo (logger : Option ℕ) (level : LogLevel) (file : Option (List Byte)) (line : ℤ)
    (content : Option (List Byte)) (tm : Tm) (w : LogWorld) : Option LogWorld :=
  match logger with
  | none => some w
  | some logger => do
    let log ← w.deref logger
    if level < log.lv then w.write .stdout (text "level forbiden\n")
    else
      match content with
      | none => w.write .stdout (text "null log content\n")
      | some content => do
        let timestr ← makeTime maxLogTimeLen tm
        let modestr ← makeMode maxLogModeLen level
        let logbuff := (snprintf maxLogBuffLen content).1
        match file with
        | some file =>
          w.write log.fp (text "[" ++ timestr ++ text "] [" ++ modestr ++ text "] [file: " ++ file ++ text ", line: " ++
            decimal line ++ text "] " ++ logbuff ++ text "\n")
        | none => w.write log.fp (text "[" ++ timestr ++ text "] [" ++ modestr ++ text "] " ++ logbuff ++ text "\n")

def mclLogSetLevel (logger : Option ℕ) (lv : LogLevel) (w : LogWorld) : Option LogWorld :=
  match logger with
  | none => some w
  | some logger => (w.deref logger).map fun log => w.store logger (some { log with lv := lv })

/-- `mcl_log_destroy`. Another `FILE` of the same file is still open. -/
def mclLogDestroy (logger : Option ℕ) (w : LogWorld) : Option LogWorld := do
  let logger ← logger
  let log ← w.deref logger
  match log.fp with
  | .stdout => if w.stdout = none then none else some ({ w with stdout := none }.store logger none)
  | .file _ => some (w.store logger none)

/-- What a `char *` points to. -/
abbrev CString := { s : List Byte // 0 ∉ s }

inductive LogOp where
  | new (logName : CString) (opens : Bool)
  | info (logger : Option ℕ) (level : LogLevel) (file : Option CString) (line : ℤ) (content : Option CString) (tm : Tm)
  | setLevel (logger : Option ℕ) (lv : LogLevel)
  | destroy (logger : Option ℕ)

/-- The answer is the pointer that `mcl_log_new` returns. -/
def execLog (w : LogWorld) : LogOp → Option (Option ℕ × LogWorld)
  | .new logName opens => mclLogNew logName.val opens w
  | .info logger level file line content tm =>
    (mclLogInfo logger level (file.map Subtype.val) line (content.map Subtype.val) tm w).map fun w => (none, w)
  | .setLevel logger lv => (mclLogSetLevel logger lv w).map fun w => (none, w)
  | .destroy logger => (mclLogDestroy logger w).map fun w => (none, w)

/-- A program with these files, that has shown this. -/
def logMachine (files : List Byte → Option (List Byte)) (shown : List Byte) : Machine LogWorld LogOp (Option ℕ) :=
  ⟨⟨files, some shown, []⟩, execLog⟩

end Mcl
