import Manifest.Datetime
import Manifest.Text.Blank

/-! Moments: a day and a time of day on a clock that runs a fixed offset ahead of universal time;
and the spellings in which functions accept them. -/
namespace Manifest

open Calendar

/-- A moment as its clock shows it. The offset is in minutes. -/
structure Moment where
  date : Date
  time : Time
  offset : Int
  deriving DecidableEq, Repr, Inhabited

namespace Moment

/-- Moves the clock by minutes, by less than a day. A leap second stays one. -/
def shift (m : Moment) (minutes : Int) : Moment :=
  let total : Int := m.time.hour * 60 + m.time.minute + minutes
  let date := if total < 0 then m.date.previous else if 1440 ≤ total then m.date.next else m.date
  let ofDay := (total % 1440).toNat
  { m with date, time := { m.time with hour := ofDay / 60, minute := ofDay % 60 } }

def toUniversal (m : Moment) : Moment := { m.shift (-m.offset) with offset := 0 }

/-- Seconds since the start of 1970 in universal time; a leap second counts as the one before it. -/
def timestamp (m : Moment) : Int :=
  m.date.dayNumber * 86400 +
    (m.time.hour * 3600 + m.time.minute * 60 + min m.time.second 59 : Nat) - m.offset * 60

def yearInRange (year : Int) : Bool := -262143 ≤ year && year ≤ 262142

def isValid (d : Date) (t : Time) : Bool := yearInRange d.year && d.isValid && t.isValid

/-- The offset of a full spelling: `Z`, or hours and minutes behind a sign. The minus sign of
typesetters is one, too. -/
def readOffset : List Char → Option (Int × List Char)
  | [] => none
  | c :: s =>
    if c = 'Z' ∨ c = 'z' then some (0, s)
    else do
      let sign : Int ←
        if c = '+' then some 1 else if c = '-' ∨ c = '\u2212' then some (-1) else none
      let (hour, s) ← Datetime.readDigits 2 s
      let s ← Datetime.expect ':' s
      let (minute, s) ← Datetime.readDigits 2 s
      if hour ≤ 23 ∧ minute ≤ 59 then some (sign * (hour * 60 + minute), s) else none

/-- The full spelling: fixed widths, a time of day, and an offset. -/
def readFull (s : List Char) : Option Moment := do
  let (date, s) ← Datetime.readDate s
  let (time, s) ← Datetime.readDelimitedTime s
  let (offset, s) ← readOffset s
  if s.isEmpty then some ⟨date, time, offset⟩ else none

def skip (s : List Char) : List Char := s.dropWhile Text.isBlank

def readNumber (most : Nat) (s : List Char) : Option (Nat × List Char) :=
  let s := skip s
  let ds := (s.take most).takeWhile Char.isDigit
  if ds.isEmpty then none else some (Decimal.value ds, s.drop ds.length)

/-- A year, after white space: up to four digits, or any number of them after a sign. -/
def readYear (s : List Char) : Option (Int × List Char) :=
  match skip s with
  | '-' :: s => signed (-1) s
  | '+' :: s => signed 1 s
  | s => (readNumber 4 s).map fun (n, rest) => ((n : Int), rest)
where
  signed (sign : Int) (s : List Char) : Option (Int × List Char) :=
    match Decimal.spanDigits s with
    | ([], _) => none
    | (ds, rest) => some (sign * Decimal.value ds, rest)

def readLooseDate (s : List Char) : Option (Date × List Char) := do
  let (year, s) ← readYear s
  let s ← Datetime.expect '-' s
  let (month, s) ← readNumber 2 s
  let s ← Datetime.expect '-' s
  let (day, s) ← readNumber 2 s
  return (⟨year, month, day⟩, s)

def readLooseTime (s : List Char) : Option (Time × List Char) := do
  let (hour, s) ← readNumber 2 s
  let s ← Datetime.expect ':' s
  let (minute, s) ← readNumber 2 s
  let s ← Datetime.expect ':' s
  let (second, s) ← readNumber 2 s
  let (nanosecond, s) ← Datetime.readFraction s
  return (⟨hour, minute, second, nanosecond⟩, s)

/-- A loose spelling without an offset, which means universal time. `delimiter` reads what stands
between the day and the time of day. -/
def readLoose (delimiter : List Char → Option (List Char)) (s : List Char) : Option Moment := do
  let (date, s) ← readLooseDate s
  let (time, s) ← readLooseTime (← delimiter s)
  if s.isEmpty && isValid date time then some ⟨date, time, 0⟩ else none

def readDay (s : List Char) : Option Moment := do
  let (date, s) ← readLooseDate s
  let midnight : Time := ⟨0, 0, 0, 0⟩
  if s.isEmpty && isValid date midnight then some ⟨date, midnight, 0⟩ else none

def readChars (s : List Char) : Option Moment :=
  readFull s <|> readLoose (Datetime.expect 'T') s <|> readLoose (fun s => some (skip s)) s <|>
    readDay s

/-- The moment that a text spells, white space around it aside: the full spelling, then the loose
ones with `T` and with white space before the time, then a day alone. -/
def ofText? (s : String) : Option Moment := readChars (Text.trimChars s.toList)

def ofInstant? (s : String) : Option Moment := do
  let (date, s) ← readLooseDate s.toList
  let (time, s) ← readLooseTime (← match s with
    | 'T' :: s | 't' :: s | ' ' :: s => some s
    | _ => none)
  let (offset, s) ← readOffset (skip s)
  if s.isEmpty && isValid date time then some ⟨date, time, offset⟩ else none

end Moment
end Manifest
