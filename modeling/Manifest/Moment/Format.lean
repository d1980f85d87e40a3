import Manifest.Moment

/-! Writing moments by a format: text with items behind percent signs. -/
namespace Manifest.Moment

open Calendar

inductive Padding
  | none
  | space
  | zero
  deriving DecidableEq, Repr

inductive Field
  | year
  | century
  | yearOfCentury
  | weekYear
  | weekYearOfCentury
  | quarter
  | month
  | day
  | sundayWeek
  | mondayWeek
  | numberedWeek
  | weekdayFromSunday
  | weekdayFromMonday
  | ordinal
  | hour
  | hour12
  | minute
  | second
  | nanosecond
  | timestamp
  deriving DecidableEq, Repr

/-- How precisely, and with which separators, an offset is written. -/
inductive OffsetStyle
  | plain
  | colon
  | seconds
  | hours
  deriving DecidableEq, Repr

inductive Item
  | literal (text : List Char)
  | number (field : Field) (padding : Padding)
  | weekday (long : Bool)
  | monthName (long : Bool)
  | halfDay (upper : Bool)
  | fraction (dot : Bool) (digits : Nat)
  | shortFraction
  | offset (style : OffsetStyle)
  | full
  deriving DecidableEq, Repr

def zeroed (f : Field) : Item := .number f .zero

def plainItems (c : Char) : Option (List Item) :=
  let date : List Item :=
    [zeroed .month, .literal ['/'], zeroed .day, .literal ['/'], zeroed .yearOfCentury]
  let clock : List Item :=
    [zeroed .hour, .literal [':'], zeroed .minute, .literal [':'], zeroed .second]
  match c with
  | 'A' => some [.weekday true]
  | 'B' => some [.monthName true]
  | 'C' => some [zeroed .century]
  | 'D' => some date
  | 'F' => some [zeroed .year, .literal ['-'], zeroed .month, .literal ['-'], zeroed .day]
  | 'G' => some [zeroed .weekYear]
  | 'H' => some [zeroed .hour]
  | 'I' => some [zeroed .hour12]
  | 'M' => some [zeroed .minute]
  | 'P' => some [.halfDay false]
  | 'R' => some [zeroed .hour, .literal [':'], zeroed .minute]
  | 'S' => some [zeroed .second]
  | 'T' => some clock
  | 'U' => some [zeroed .sundayWeek]
  | 'V' => some [zeroed .numberedWeek]
  | 'W' => some [zeroed .mondayWeek]
  | 'X' => some clock
  | 'Y' => some [zeroed .year]
  | 'Z' => some [.offset .colon]
  | 'a' => some [.weekday false]
  | 'b' => some [.monthName false]
  | 'c' => some ([.weekday false, .literal [' '], .monthName false, .literal [' '],
      .number .day .space, .literal [' ']] ++ clock ++ [.literal [' '], zeroed .year])
  | 'd' => some [zeroed .day]
  | 'e' => some [.number .day .space]
  | 'f' => some [zeroed .nanosecond]
  | 'g' => some [zeroed .weekYearOfCentury]
  | 'h' => some [.monthName false]
  | 'j' => some [zeroed .ordinal]
  | 'k' => some [.number .hour .space]
  | 'l' => some [.number .hour12 .space]
  | 'm' => some [zeroed .month]
  | 'n' => some [.literal ['\n']]
  | 'p' => some [.halfDay true]
  | 'q' => some [.number .quarter .none]
  | 'r' => some [zeroed .hour12, .literal [':'], zeroed .minute, .literal [':'], zeroed .second,
      .literal [' '], .halfDay true]
  | 's' => some [.number .timestamp .none]
  | 't' => some [.literal ['\t']]
  | 'u' => some [.number .weekdayFromMonday .none]
  | 'v' => some [.number .day .space, .literal ['-'], .monthName false, .literal ['-'],
      zeroed .year]
  | 'w' => some [.number .weekdayFromSunday .none]
  | 'x' => some date
  | 'y' => some [zeroed .yearOfCentury]
  | 'z' => some [.offset .plain]
  | '+' => some [.full]
  | '%' => some [.literal ['%']]
  | _ => none

def paddedItems (padding : Padding) (c : Char) : Option (List Item) :=
  match plainItems c with
  | some [.number f _] => some [.number f padding]
  | _ => none

def before (items : Option (List Item)) (rest : Option (List Item)) : Option (List Item) := do
  return (← items) ++ (← rest)

def readFormat : List Char → Option (List Item)
  | [] => some []
  | '%' :: '-' :: c :: s => before (paddedItems .none c) (readFormat s)
  | '%' :: '_' :: c :: s => before (paddedItems .space c) (readFormat s)
  | '%' :: '0' :: c :: s => before (paddedItems .zero c) (readFormat s)
  | '%' :: ':' :: ':' :: ':' :: 'z' :: s => before (some [.offset .hours]) (readFormat s)
  | '%' :: ':' :: ':' :: 'z' :: s => before (some [.offset .seconds]) (readFormat s)
  | '%' :: ':' :: 'z' :: s => before (some [.offset .colon]) (readFormat s)
  | '%' :: '.' :: 'f' :: s => before (some [.shortFraction]) (readFormat s)
  | '%' :: '.' :: '3' :: 'f' :: s => before (some [.fraction true 3]) (readFormat s)
  | '%' :: '.' :: '6' :: 'f' :: s => before (some [.fraction true 6]) (readFormat s)
  | '%' :: '.' :: '9' :: 'f' :: s => before (some [.fraction true 9]) (readFormat s)
  | '%' :: '3' :: 'f' :: s => before (some [.fraction false 3]) (readFormat s)
  | '%' :: '6' :: 'f' :: s => before (some [.fraction false 6]) (readFormat s)
  | '%' :: '9' :: 'f' :: s => before (some [.fraction false 9]) (readFormat s)
  | '%' :: c :: s => before (plainItems c) (readFormat s)
  | ['%'] => none
  | c :: s => before (some [.literal [c]]) (readFormat s)

def fillLeft (c : Char) (width : Nat) (cs : List Char) : List Char :=
  List.replicate (width - cs.length) c ++ cs

/-- An integer filled up to a width, with its sign written always or only when it is negative. Zeros
go between the sign and the digits. -/
def integerText (padding : Padding) (width : Nat) (always : Bool) (n : Int) : List Char :=
  let sign := if n < 0 then ['-'] else if always then ['+'] else []
  let digits := Nat.toDigits 10 n.natAbs
  match padding with
  | .none => sign ++ digits
  | .space => fillLeft ' ' width (sign ++ digits)
  | .zero => sign ++ fillLeft '0' (width - sign.length) digits

/-- Two places. A number with more tens than nine writes them as one character counted on from
`0`. -/
def twoPlaces (padding : Padding) (n : Nat) : List Char :=
  let ones := Char.ofNat (48 + n % 10)
  match padding, n / 10 with
  | .none, 0 => [ones]
  | .space, 0 => [' ', ones]
  | _, tens => [Char.ofNat (48 + tens), ones]

/-- A year: four places, and with a sign outside 0 to 9999. -/
def yearText (padding : Padding) (year : Int) : List Char :=
  if 0 ≤ year ∧ year ≤ 9999 then integerText padding 4 false year
  else integerText padding 5 true year

def weekdayNames : List String :=
  ["Monday", "Tuesday", "Wednesday", "Thursday", "Friday", "Saturday", "Sunday"]

def monthNames : List String :=
  ["January", "February", "March", "April", "May", "June", "July", "August", "September",
    "October", "November", "December"]

def nameText (names : List String) (index : Nat) (long : Bool) : List Char :=
  let name := ((names[index]?).getD "").toList
  if long then name else name.take 3

def fractionDigits (nanosecond digits : Nat) : List Char := (pad 9 nanosecond).take digits

/-- A fraction of a second with as many groups of three digits as it needs, none for a whole
second. -/
def shortFractionText (nanosecond : Nat) : List Char :=
  if nanosecond = 0 then []
  else if nanosecond % 1000000 = 0 then '.' :: fractionDigits nanosecond 3
  else if nanosecond % 1000 = 0 then '.' :: fractionDigits nanosecond 6
  else '.' :: fractionDigits nanosecond 9

def offsetText (style : OffsetStyle) (minutes : Int) : List Char :=
  let sign := if minutes < 0 then '-' else '+'
  let hour := pad 2 (minutes.natAbs / 60)
  let minute := pad 2 (minutes.natAbs % 60)
  match style with
  | .plain => sign :: hour ++ minute
  | .colon => sign :: hour ++ ':' :: minute
  | .seconds => sign :: hour ++ ':' :: minute ++ [':', '0', '0']
  | .hours => sign :: hour

def clockText (t : Time) : List Char :=
  pad 2 t.hour ++ ':' :: pad 2 t.minute ++ ':' :: pad 2 t.second

def stampText (m : Moment) (fraction : List Char) : List Char :=
  yearText .zero m.date.year ++ '-' :: pad 2 m.date.month ++ '-' :: pad 2 m.date.day ++
    'T' :: clockText m.time ++ fraction

def dialHour (hour : Nat) : Nat := if hour % 12 = 0 then 12 else hour % 12

def numberText (m : Moment) (padding : Padding) : Field → List Char
  | .year => yearText padding m.date.year
  | .century => twoPlaces padding (m.date.year / 100 % 256).toNat
  | .yearOfCentury => twoPlaces padding (m.date.year % 100).toNat
  | .weekYear => yearText padding m.date.numberedWeek.1
  | .weekYearOfCentury => twoPlaces padding (m.date.numberedWeek.1 % 100).toNat
  | .quarter => Nat.toDigits 10 ((m.date.month - 1) / 3 + 1)
  | .month => twoPlaces padding m.date.month
  | .day => twoPlaces padding m.date.day
  | .sundayWeek => twoPlaces padding m.date.sundayWeek
  | .mondayWeek => twoPlaces padding m.date.mondayWeek
  | .numberedWeek => twoPlaces padding m.date.numberedWeek.2
  | .weekdayFromSunday => Nat.toDigits 10 ((m.date.weekday + 1) % 7)
  | .weekdayFromMonday => Nat.toDigits 10 (m.date.weekday + 1)
  | .ordinal => integerText padding 3 false m.date.ordinal
  | .hour => twoPlaces padding m.time.hour
  | .hour12 => twoPlaces padding (dialHour m.time.hour)
  | .minute => twoPlaces padding m.time.minute
  | .second => twoPlaces padding m.time.second
  | .nanosecond => integerText padding 9 false m.time.nanosecond
  | .timestamp => integerText padding 9 false m.timestamp

def itemText (m : Moment) : Item → List Char
  | .literal cs => cs
  | .number f padding => m.numberText padding f
  | .weekday long => nameText weekdayNames m.date.weekday long
  | .monthName long => nameText monthNames (m.date.month - 1) long
  | .halfDay upper =>
    match decide (m.time.hour < 12), upper with
    | true, true => ['A', 'M']
    | true, false => ['a', 'm']
    | false, true => ['P', 'M']
    | false, false => ['p', 'm']
  | .fraction dot digits =>
    (if dot then ['.'] else []) ++ fractionDigits m.time.nanosecond digits
  | .shortFraction => shortFractionText m.time.nanosecond
  | .offset style => offsetText style m.offset
  | .full =>
    m.stampText (shortFractionText m.time.nanosecond) ++ offsetText .colon m.offset

def format? (m : Moment) (format : String) : Option String :=
  (readFormat format.toList).map fun items => String.ofList (items.flatMap m.itemText)

def universalStamp (m : Moment) : String :=
  let u := m.toUniversal
  String.ofList (u.stampText ('.' :: fractionDigits u.time.nanosecond 6) ++ ['Z'])

def localStamp (m : Moment) : String :=
  String.ofList
    (m.stampText ('.' :: fractionDigits m.time.nanosecond 6) ++ offsetText .colon m.offset)

end Manifest.Moment
