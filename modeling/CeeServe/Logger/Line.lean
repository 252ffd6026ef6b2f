import CeeServe.Lib.CString
import CeeServe.Lib.Decimal
import CeeServe.Lib.Framing

/-! # The lines of the logger

`logger` prints one line for each call: the local time in an array of 50 bytes, the tag
in brackets, and the message. The line can be taken apart again, and a log is a row of
such lines.
-/
namespace CeeServe.Logger
open CString Decimal Framing

/-- What `localtime` fills in for a time since the Epoch; a minute may have a leap second. -/
structure Tm where
  tmYear : ℕ
  tmMon : ℕ
  tmMday : ℕ
  tmHour : ℕ
  tmMin : ℕ
  tmSec : ℕ
  inRange : (70 ≤ tmYear ∧ tmYear < 2 ^ 31) ∧ tmMon < 12 ∧ (1 ≤ tmMday ∧ tmMday ≤ 31) ∧ tmHour < 24 ∧ tmMin < 60 ∧
    tmSec ≤ 60
deriving DecidableEq

def dash : UInt8 := 45

/-- `%02d` of a number below 100. -/
def twoDigits (n : ℕ) : List UInt8 := if n < 10 then 48 :: decimal n else decimal n

/-- `"%F %X"` in the locale that a program starts in. -/
def formatTime (tm : Tm) : List UInt8 :=
  decimal (tm.tmYear + 1900) ++ dash :: (twoDigits (tm.tmMon + 1) ++ dash :: (twoDigits tm.tmMday ++
    sp :: (twoDigits tm.tmHour ++ colon :: (twoDigits tm.tmMin ++ colon :: twoDigits tm.tmSec))))

/-- The array holds anything when the text and its terminator do not fit. -/
def strftime (maxsize : ℕ) (tm : Tm) : Option (List UInt8) :=
  if (formatTime tm).length + 1 ≤ maxsize then some (formatTime tm) else none

/-- `char timestr[50]`. -/
def timestrSize : ℕ := 50

/-- What `printf("%s [%s]: %s\n", timestr, tag, message)` prints. -/
def logger (tm : Tm) (tag message : List UInt8) : Option (List UInt8) :=
  (strftime timestrSize tm).map fun timestr =>
    timestr ++ ascii " [" ++ tag ++ ascii "]: " ++ message ++ [lf]

def epoch : Tm := ⟨70, 0, 1, 0, 0, 0, by decide⟩

example : logger epoch (ascii "staticserver") (ascii "hello") =
    some (ascii "1970-01-01 00:00:00 [staticserver]: hello\n") := by decide +kernel

/-- `__log`. -/
def log (tm : Tm) (msg : List UInt8) : Option (List UInt8) := logger tm (ascii "staticserver") msg

def logAll : List (Tm × List UInt8) → Option (List UInt8)
  | [] => some []
  | call :: calls => (log call.1 call.2).bind fun line => (logAll calls).map (line ++ ·)

structure LogLine where
  time : Tm
  tag : List UInt8
  message : List UInt8
deriving DecidableEq

def readTime (timestr : List UInt8) : Option Tm :=
  match timestr.splitOnP fun c => !isDigit c with
  | [year, mon, mday, hour, min, sec] =>
    if h : (70 ≤ ofDecimal year - 1900 ∧ ofDecimal year - 1900 < 2 ^ 31) ∧ ofDecimal mon - 1 < 12 ∧
        (1 ≤ ofDecimal mday ∧ ofDecimal mday ≤ 31) ∧ ofDecimal hour < 24 ∧ ofDecimal min < 60 ∧ ofDecimal sec ≤ 60 then
      some ⟨ofDecimal year - 1900, ofDecimal mon - 1, ofDecimal mday, ofDecimal hour, ofDecimal min, ofDecimal sec, h⟩
    else none
  | _ => none

/-- The time up to the bracket, the tag in it, and the message behind the colon. -/
def readLine (line : List UInt8) : Option LogLine :=
  (cut 91 line).bind fun r => (cut 93 r.2).bind fun q =>
    (readTime r.1.dropLast).map fun tm => ⟨tm, q.1, q.2.drop 2⟩

def nextLine (stream : List UInt8) : Option (LogLine × List UInt8) :=
  (cut lf stream).bind fun r => (readLine r.1).map fun line => (line, r.2)

theorem isDigit_twoDigits {n : ℕ} {c : UInt8} (hc : c ∈ twoDigits n) : isDigit c = true := by
  unfold twoDigits at hc
  split at hc
  · rcases List.mem_cons.mp hc with rfl | hc
    · rfl
    · exact isDigit_decimal hc
  · exact isDigit_decimal hc

theorem ofDecimal_twoDigits (n : ℕ) : ofDecimal (twoDigits n) = n := by
  unfold twoDigits
  split
  · have hzero : ofDecimal (48 :: decimal n) = ofDecimal (decimal n) := rfl
    exact hzero.trans (ofDecimal_decimal n)
  · exact ofDecimal_decimal n

theorem length_twoDigits_le {n : ℕ} (h : n < 100) : (twoDigits n).length ≤ 2 := by
  unfold twoDigits
  split
  case isTrue hlt => exact Nat.succ_le_succ (length_decimal_le (by decide) (by omega))
  case isFalse => exact length_decimal_le (by decide) (by omega)

/-- The array has room for the time of every clock, whatever its year. -/
theorem length_formatTime_le (tm : Tm) : (formatTime tm).length + 1 ≤ 26 := by
  obtain ⟨⟨-, hyear⟩, hmon, ⟨-, hmday⟩, hhour, hmin, hsec⟩ := tm.inRange
  have hyear' : (decimal (tm.tmYear + 1900)).length ≤ 10 := length_decimal_le (by decide) (by omega)
  have hmon' : (twoDigits (tm.tmMon + 1)).length ≤ 2 := length_twoDigits_le (by omega)
  have hmday' : (twoDigits tm.tmMday).length ≤ 2 := length_twoDigits_le (by omega)
  have hhour' : (twoDigits tm.tmHour).length ≤ 2 := length_twoDigits_le (by omega)
  have hmin' : (twoDigits tm.tmMin).length ≤ 2 := length_twoDigits_le (by omega)
  have hsec' : (twoDigits tm.tmSec).length ≤ 2 := length_twoDigits_le (by omega)
  simp only [formatTime, List.length_append, List.length_cons]
  omega

theorem strftime_timestr (tm : Tm) : strftime timestrSize tm = some (formatTime tm) :=
  if_pos ((length_formatTime_le tm).trans (by decide))

theorem splitOnP_formatTime (tm : Tm) : (formatTime tm).splitOnP (fun c => !isDigit c) =
    [decimal (tm.tmYear + 1900), twoDigits (tm.tmMon + 1), twoDigits tm.tmMday, twoDigits tm.tmHour, twoDigits tm.tmMin,
      twoDigits tm.tmSec] := by
  have hyear : ∀ c ∈ decimal (tm.tmYear + 1900), (!isDigit c) = false := fun c hc => by simp [isDigit_decimal hc]
  have htwo : ∀ n, ∀ c ∈ twoDigits n, (!isDigit c) = false := fun n c hc => by simp [isDigit_twoDigits hc]
  have hdash : (!isDigit dash) = true := rfl
  have hsp : (!isDigit sp) = true := rfl
  have hcolon : (!isDigit colon) = true := rfl
  have hfield : ∀ n d s, (!isDigit d) = true → (twoDigits n ++ d :: s).splitOnP (fun c => !isDigit c) =
      twoDigits n :: s.splitOnP fun c => !isDigit c := fun n d s hd =>
    List.splitOnP_append_cons_of_forall_mem (htwo n) d hd s
  rw [formatTime, List.splitOnP_append_cons_of_forall_mem hyear dash hdash, hfield _ _ _ hdash, hfield _ _ _ hsp,
    hfield _ _ _ hcolon, hfield _ _ _ hcolon, List.splitOnP_eq_singleton (htwo _)]

theorem readTime_formatTime (tm : Tm) : readTime (formatTime tm) = some tm := by
  simp only [readTime, splitOnP_formatTime, ofDecimal_decimal, ofDecimal_twoDigits, Nat.add_sub_cancel]
  rw [dif_pos tm.inRange]

theorem formatTime_ne {tm : Tm} {c : UInt8} (hc : c ∈ formatTime tm) :
    isDigit c = true ∨ c = dash ∨ c = sp ∨ c = colon := by
  simp only [formatTime, List.mem_append, List.mem_cons] at hc
  rcases hc with hc | rfl | hc | rfl | hc | rfl | hc | rfl | hc | rfl | hc
  · exact Or.inl (isDigit_decimal hc)
  · simp
  · exact Or.inl (isDigit_twoDigits hc)
  · simp
  · exact Or.inl (isDigit_twoDigits hc)
  · simp
  · exact Or.inl (isDigit_twoDigits hc)
  · simp
  · exact Or.inl (isDigit_twoDigits hc)
  · simp
  · exact Or.inl (isDigit_twoDigits hc)

theorem logger_eq (tm : Tm) (tag message : List UInt8) : logger tm tag message =
    some (formatTime tm ++ ascii " [" ++ tag ++ ascii "]: " ++ message ++ [lf]) := by
  rw [logger, strftime_timestr, Option.map_some]

theorem readLine_logged {tm : Tm} {tag message : List UInt8} (htag : 93 ∉ tag) :
    readLine (formatTime tm ++ [sp] ++ 91 :: (tag ++ 93 :: colon :: sp :: message)) = some ⟨tm, tag, message⟩ := by
  have hopen : 91 ∉ formatTime tm ++ [sp] := by
    intro hc
    rcases List.mem_append.mp hc with hc | hc
    · rcases formatTime_ne hc with h | h | h | h <;> exact absurd h (by decide)
    · exact absurd (List.mem_singleton.mp hc) (by decide)
  simp only [readLine, cut_append hopen, cut_append htag, Option.bind_some, List.dropLast_concat, readTime_formatTime,
    Option.map_some, List.drop_succ_cons, List.drop_zero]

/-- A line is taken apart again when the tag has no bracket and neither tag nor message
breaks the line. -/
theorem encodes_line {tm : Tm} {tag message line : List UInt8} (hline : logger tm tag message = some line)
    (htag : 93 ∉ tag) (hbreak : lf ∉ tag) (hmessage : lf ∉ message) : Encodes nextLine line ⟨tm, tag, message⟩ := by
  have hopen : ascii " [" = [sp, 91] := by decide +kernel
  have hclose : ascii "]: " = [93, colon, sp] := by decide +kernel
  have hbody : line = formatTime tm ++ [sp] ++ 91 :: (tag ++ 93 :: colon :: sp :: message) ++ [lf] := by
    rw [logger_eq, hopen, hclose, Option.some.injEq] at hline
    rw [← hline]
    simp
  have hone : lf ∉ formatTime tm ++ [sp] ++ 91 :: (tag ++ 93 :: colon :: sp :: message) := by
    simp only [List.mem_append, List.mem_cons, List.not_mem_nil, or_false]
    rintro ((hc | hc) | hc | hc | hc | hc | hc | hc)
    · rcases formatTime_ne hc with h | h | h | h <;> exact absurd h (by decide)
    · exact absurd hc (by decide)
    · exact absurd hc (by decide)
    · exact hbreak hc
    · exact absurd hc (by decide)
    · exact absurd hc (by decide)
    · exact absurd hc (by decide)
    · exact hmessage hc
  constructor
  · rw [hbody]
    simp
  · intro rest
    rw [hbody, List.append_assoc, List.singleton_append, nextLine, cut_append hone, Option.bind_some,
      readLine_logged htag, Option.map_some]

/-- The lines of a row of calls, one for each, none of them undefined. -/
theorem logAll_lines {calls : List (Tm × List UInt8)} (h : ∀ call ∈ calls, lf ∉ call.2) :
    ∃ lines, logAll calls = some lines.flatten ∧
      List.Forall₂ (Encodes nextLine) lines (calls.map fun call => ⟨call.1, ascii "staticserver", call.2⟩) := by
  have htag : 93 ∉ ascii "staticserver" ∧ lf ∉ ascii "staticserver" := by decide +kernel
  induction calls with
  | nil => exact ⟨[], rfl, .nil⟩
  | cons call calls ih =>
    obtain ⟨hcall, hcalls⟩ := List.forall_mem_cons.mp h
    obtain ⟨lines, hlines, hall⟩ := ih hcalls
    have hline := logger_eq call.1 (ascii "staticserver") call.2
    refine ⟨_ :: lines, ?_, .cons (encodes_line hline htag.1 htag.2 hcall) hall⟩
    simp only [logAll, log, hline, hlines, Option.bind_some, Option.map_some, List.flatten_cons]

end CeeServe.Logger
