/-! The proleptic Gregorian calendar: leap years, day counts, weekdays and numbered weeks. -/
namespace Manifest.Calendar

def isLeap (year : Int) : Bool :=
  year % 4 == 0 && (year % 100 != 0 || year % 400 == 0)

def daysInMonth (year : Int) (month : Nat) : Nat :=
  match month with
  | 2 => if isLeap year then 29 else 28
  | 4 | 6 | 9 | 11 => 30
  | _ => 31

theorem daysInMonth_le (year : Int) (month : Nat) : daysInMonth year month ≤ 31 := by
  unfold daysInMonth; split <;> first | (split <;> omega) | omega

/-- A day of the calendar. Years count on through zero into negatives. -/
structure Date where
  year : Int
  month : Nat
  day : Nat
  deriving DecidableEq, Repr, Inhabited

namespace Date

def isValid (d : Date) : Bool :=
  1 ≤ d.month && d.month ≤ 12 && 1 ≤ d.day && d.day ≤ daysInMonth d.year d.month

def next (d : Date) : Date :=
  if d.day < daysInMonth d.year d.month then { d with day := d.day + 1 }
  else if d.month < 12 then ⟨d.year, d.month + 1, 1⟩
  else ⟨d.year + 1, 1, 1⟩

def previous (d : Date) : Date :=
  if 1 < d.day then { d with day := d.day - 1 }
  else if 1 < d.month then ⟨d.year, d.month - 1, daysInMonth d.year (d.month - 1)⟩
  else ⟨d.year - 1, 12, 31⟩

def daysInMonths (year : Int) : Nat → Nat
  | 0 => 0
  | month + 1 => daysInMonths year month + daysInMonth year (month + 1)

/-- The day's number in its year, from 1. -/
def ordinal (d : Date) : Nat := daysInMonths d.year (d.month - 1) + d.day

/-- Days since 1970-01-01. -/
def dayNumber (d : Date) : Int :=
  let y := d.year - 1
  y * 365 + y / 4 - y / 100 + y / 400 + d.ordinal - 719163

/-- The weekday, Monday being 0. -/
def weekday (d : Date) : Nat := ((d.dayNumber + 3) % 7).toNat

def sundayWeek (d : Date) : Nat := (d.ordinal + 6 - (d.weekday + 1) % 7) / 7

def mondayWeek (d : Date) : Nat := (d.ordinal + 6 - d.weekday) / 7

end Date

/-- Years with a 53rd numbered week start on a Thursday, or on a Wednesday when they are leap
years. -/
def weeksInYear (year : Int) : Nat :=
  let first := (Date.mk year 1 1).weekday
  if first = 3 ∨ (first = 2 ∧ isLeap year) then 53 else 52

/-- Year and number of the week in the scheme where a week belongs to the year of its Thursday. -/
def Date.numberedWeek (d : Date) : Int × Nat :=
  let week := (d.ordinal + 9 - d.weekday) / 7
  if week = 0 then (d.year - 1, weeksInYear (d.year - 1))
  else if weeksInYear d.year < week then (d.year + 1, 1)
  else (d.year, week)

structure Time where
  hour : Nat
  minute : Nat
  second : Nat
  nanosecond : Nat
  deriving DecidableEq, Repr, Inhabited

def Time.isValid (t : Time) : Bool :=
  t.hour ≤ 23 && t.minute ≤ 59 && t.second ≤ 60 && t.nanosecond < 1000000000

def pad (width n : Nat) : List Char :=
  let ds := Nat.toDigits 10 n
  List.replicate (width - ds.length) '0' ++ ds

end Manifest.Calendar
