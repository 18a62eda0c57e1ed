import Pintail.Types.Canonical
import Pintail.Words.Text

/-! # Times in text

A text is read as a time of day or a span of time: a date and time gives its time of day, and any
other text its days, hours, minutes and seconds, or the digits of the last three in a row.
-/

namespace Pintail

open Words List

def splitOnce (separates : Char → Bool) (text : List Char) : Option (List Char × List Char) :=
  match text.dropWhile fun c => !separates c with
  | [] => none
  | _ :: rest => some (text.takeWhile fun c => !separates c, rest)

def int64? (text : List Char) : Option ℤ := signed? (2 ^ 63) text

def checked (n : ℤ) : Option ℤ := if -2 ^ 63 ≤ n ∧ n < 2 ^ 63 then some n else none

/-- The digits after the sixth are left out. -/
def fractionMicros (fraction : List Char) : Option ℤ :=
  if fraction = [] then some 0
  else if fraction.all Char.isDigit then
    (digits? (fraction.take 6)).map fun micros => (micros : ℤ) * 10 ^ (6 - fraction.length)
  else none

/-- The date with its fields at their full width. -/
def paddedDate (year month day : ℕ) : List Char :=
  let field := fun width n => (Nat.toDigits 10 n).leftpad width '0'
  field 4 year ++ '-' :: field 2 month ++ '-' :: field 2 day

def readDate (date : List Char) : Option ℤ :=
  -- a field cut out between dashes has no sign but a plus
  match (date.splitOn '-').mapM (unsigned? (2 ^ 63)) with
  | some [year, month, day] => parseDateDays (paddedDate year month day)
  | _ => none

def readTimeOfDay (time : List Char) : Option ℤ := do
  let (clock, fraction) := (splitOnce (· = '.') time).getD (time, [])
  let (hour, minute, second) ← match (clock.splitOn ':').mapM int64? with
    | some [hour, minute] => some (hour, minute, 0)
    | some [hour, minute, second] => some (hour, minute, second)
    | _ => none
  if 0 ≤ hour ∧ hour ≤ 23 ∧ 0 ≤ minute ∧ minute ≤ 59 ∧ 0 ≤ second ∧ second ≤ 59 then
    return (hour * 3600 + minute * 60 + second) * 1000000 + (← fractionMicros fraction)
  else none

def parseDatetimeLenientMicros (text : List Char) : Option ℤ := do
  let text := trimEnds text
  let (date, time) := (splitOnce (fun c => c = ' ' || c = 'T') text).getD (text, [])
  let days ← readDate date
  if trimEnds time = [] then return days * microsPerDay
  else return days * microsPerDay + (← readTimeOfDay (trimEnds time))

def readClock (clock : List Char) : Option (ℤ × ℤ × ℤ) :=
  match clock.splitOn ':' with
  | [hours, minutes, seconds] => do return (← int64? hours, ← int64? minutes, ← int64? seconds)
  | [hours, minutes] => do return (← int64? hours, ← int64? minutes, 0)
  | [compact] => do
    if compact.all Char.isDigit then
      let value ← int64? compact
      return (value / 10000, value / 100 % 100, value % 100)
    else none
  | _ => none

def readSpan (text : List Char) : Option ℤ := do
  let negative := text.head? = some '-'
  let unsigned := if negative then text.tail else text
  let unsigned := if unsigned.head? = some '+' then unsigned.tail else unsigned
  let (clock, fraction) := (splitOnce (· = '.') unsigned).getD (unsigned, [])
  let (days, clock) ← match splitOnce (· = ' ') (trimEnds clock) with
    | some (days, clock) => do pure (← int64? days, trimEnds clock)
    | none => some (0, trimEnds clock)
  let (hours, minutes, seconds) ← readClock clock
  if 0 ≤ minutes ∧ minutes ≤ 59 ∧ 0 ≤ seconds ∧ seconds ≤ 59 then
    let micros ← fractionMicros fraction
    let whole ← checked ((← checked (days * 86400)) + (← checked (hours * 3600)))
    let seconds ← checked (whole + (minutes * 60 + seconds))
    let total ← checked ((← checked (seconds * 1000000)) + micros)
    -- there is no number opposite to the least one
    return if negative then (-total).bmod (2 ^ 64) else total
  else none

def parseTimeMicros (text : String) : Option ℤ :=
  let text := trimEnds text.toList
  match parseDatetimeLenientMicros text with
  | some micros => some (micros % microsPerDay)
  | none => readSpan text

example : parseTimeMicros "-1 2:03:04.5" = some (-93784500000) := by decide +kernel

end Pintail
