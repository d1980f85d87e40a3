import Manifest.Calendar
import Manifest.Decimal.Text

/-! Dates and times as documents hold them: a day, a time of day, or both, perhaps with the offset
from universal time; their text, and reading it. -/
namespace Manifest

open Calendar

inductive Offset
  | universal
  | minutes (m : Int)
  deriving DecidableEq, Repr

inductive Datetime
  | date (d : Date)
  | time (t : Time)
  | wall (d : Date) (t : Time)
  | instant (d : Date) (t : Time) (o : Offset)
  deriving DecidableEq, Repr

namespace Datetime

def dateText (d : Date) : List Char :=
  pad 4 d.year.toNat ++ '-' :: pad 2 d.month ++ '-' :: pad 2 d.day

def fractionText (nanosecond : Nat) : List Char :=
  if nanosecond = 0 then []
  else '.' :: ((pad 9 nanosecond).reverse.dropWhile (· == '0')).reverse

@[simp] theorem fractionText_zero : fractionText 0 = [] := rfl

def timeText (t : Time) : List Char :=
  pad 2 t.hour ++ ':' :: pad 2 t.minute ++ ':' :: pad 2 t.second ++ fractionText t.nanosecond

def offsetText : Offset → List Char
  | .universal => ['Z']
  | .minutes m =>
    (if m < 0 then '-' else '+') :: pad 2 (m.natAbs / 60) ++ ':' :: pad 2 (m.natAbs % 60)

def toChars : Datetime → List Char
  | .date d => dateText d
  | .time t => timeText t
  | .wall d t => dateText d ++ 'T' :: timeText t
  | .instant d t o => dateText d ++ 'T' :: timeText t ++ offsetText o

def text (x : Datetime) : String := String.ofList x.toChars

def readDigits : Nat → List Char → Option (Nat × List Char)
  | 0, s => some (0, s)
  | n + 1, c :: s =>
    if c.isDigit then
      (readDigits n s).map fun (v, rest) => ((c.toNat - 48) * Nat.pow 10 n + v, rest)
    else none
  | _ + 1, [] => none

def expect (c : Char) : List Char → Option (List Char)
  | [] => none
  | d :: s => if d = c then some s else none

def readDate (s : List Char) : Option (Date × List Char) := do
  let (year, s) ← readDigits 4 s
  let s ← expect '-' s
  let (month, s) ← readDigits 2 s
  let s ← expect '-' s
  let (day, s) ← readDigits 2 s
  let d : Date := ⟨year, month, day⟩
  if d.isValid then some (d, s) else none

/-- The nanoseconds that the digits after the point denote; digits after the ninth are dropped. -/
def fractionValue (ds : List Char) : Nat :=
  let kept := ds.take 9
  Decimal.value kept * Nat.pow 10 (9 - kept.length)

def readFraction : List Char → Option (Nat × List Char)
  | '.' :: s =>
    match Decimal.spanDigits s with
    | ([], _) => none
    | (ds, rest) => some (fractionValue ds, rest)
  | s => some (0, s)

def readTime (s : List Char) : Option (Time × List Char) := do
  let (hour, s) ← readDigits 2 s
  let s ← expect ':' s
  let (minute, s) ← readDigits 2 s
  let s ← expect ':' s
  let (second, s) ← readDigits 2 s
  let (nanosecond, s) ← readFraction s
  let t : Time := ⟨hour, minute, second, nanosecond⟩
  if t.isValid then some (t, s) else none

def readSignedOffset (sign : Int) (s : List Char) : Option (Offset × List Char) := do
  let (hour, s) ← readDigits 2 s
  let s ← expect ':' s
  let (minute, s) ← readDigits 2 s
  if hour ≤ 23 ∧ minute ≤ 59 then some (.minutes (sign * (hour * 60 + minute)), s) else none

def readOffset : List Char → Option (Offset × List Char)
  | 'Z' :: s | 'z' :: s => some (.universal, s)
  | '+' :: s => readSignedOffset 1 s
  | '-' :: s => readSignedOffset (-1) s
  | _ => none

/-- The time of day after a day: behind `T`, `t` or one space. -/
def readDelimitedTime : List Char → Option (Time × List Char)
  | 'T' :: s | 't' :: s | ' ' :: s => readTime s
  | _ => none

def read (s : List Char) : Option (Datetime × List Char) :=
  match readDate s with
  | some (d, afterDate) =>
    match readDelimitedTime afterDate with
    | some (t, afterTime) =>
      match readOffset afterTime with
      | some (o, rest) => some (.instant d t o, rest)
      | none => some (.wall d t, afterTime)
    | none => some (.date d, afterDate)
  | none => (readTime s).map fun (t, rest) => (.time t, rest)

def ofText? (s : String) : Option Datetime :=
  match read s.toList with
  | some (x, []) => some x
  | _ => none

end Datetime
end Manifest
