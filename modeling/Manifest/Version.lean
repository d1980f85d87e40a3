import Manifest.Path
import Manifest.Text.Visible

/-! Semantic versions: reading, text, and the order that ranks pre-releases below releases and build
metadata last. -/
namespace Manifest

/-- A version. Pre-release and build metadata are lists of identifiers, empty when absent. -/
structure Version where
  major : Nat
  minor : Nat
  patch : Nat
  pre : List (List Char)
  build : List (List Char)
  deriving DecidableEq, Repr, Inhabited

namespace Version

inductive Part
  | major
  | minor
  | patch
  | pre
  | build
  deriving DecidableEq, Repr

def Part.name : Part → String
  | .major => "major version number"
  | .minor => "minor version number"
  | .patch => "patch version number"
  | .pre => "pre-release identifier"
  | .build => "build metadata"

inductive Fault
  | empty
  | unexpectedEnd (part : Part)
  | unexpectedChar (part : Part) (c : Char)
  | unexpectedCharAfter (part : Part) (c : Char)
  | leadingZero (part : Part)
  | overflow (part : Part)
  | emptySegment (part : Part)
  deriving DecidableEq, Repr

def Fault.message : Fault → String
  | .empty => "empty string, expected a semver version"
  | .unexpectedEnd p => s!"unexpected end of input while parsing {p.name}"
  | .unexpectedChar p c => s!"unexpected character {Text.quoteChar c} while parsing {p.name}"
  | .unexpectedCharAfter p c => s!"unexpected character {Text.quoteChar c} after {p.name}"
  | .leadingZero p => s!"invalid leading zero in {p.name}"
  | .overflow p => s!"value of {p.name} exceeds u64::MAX"
  | .emptySegment p => s!"empty identifier segment in {p.name}"

/-- The greatest number that may stand in a version is one less than this. -/
def limit : Nat := 0x10000000000000000

/-- Goes on with a number whose digits so far have the value `n`. Digits after a zero are refused
before the size is looked at. -/
def readMore (part : Part) (n : Nat) : List Char → Except Fault (Nat × List Char)
  | [] => .ok (n, [])
  | c :: s =>
    if c.isDigit then
      if n = 0 then .error (.leadingZero part)
      else if n * 10 + (c.toNat - 48) < limit then readMore part (n * 10 + (c.toNat - 48)) s
      else .error (.overflow part)
    else .ok (n, c :: s)

def readNumber (part : Part) : List Char → Except Fault (Nat × List Char)
  | [] => .error (.unexpectedEnd part)
  | c :: s =>
    if c.isDigit then readMore part (c.toNat - 48) s else .error (.unexpectedChar part c)

def readDot (part : Part) : List Char → Except Fault (List Char)
  | [] => .error (.unexpectedEnd part)
  | c :: s => if c = '.' then .ok s else .error (.unexpectedCharAfter part c)

def isIdentifierChar (c : Char) : Bool := c.isAlphanum || c == '-'

def isNumeric (w : List Char) : Bool := w.all Char.isDigit

/-- Checks one identifier: not empty, and in a pre-release no number with a zero in front. -/
def checkIdentifier (part : Part) (w : List Char) : Except Fault Unit :=
  if w.isEmpty then .error (.emptySegment part)
  else if part = .pre ∧ isNumeric w ∧ 1 < w.length ∧ w.head? = some '0' then
    .error (.leadingZero part)
  else .ok ()

def readIdentifiers (part : Part) (s : List Char) :
    Except Fault (List (List Char) × List Char) := do
  let run := s.takeWhile fun c => isIdentifierChar c || c == '.'
  let words := Path.splitChars '.' run
  words.forM (checkIdentifier part)
  return (words, s.drop run.length)

def readMarked (mark : Char) (part : Part) (s : List Char) :
    Except Fault (Option (List (List Char)) × List Char) :=
  match s with
  | c :: rest =>
    if c = mark then do
      let (words, rest) ← readIdentifiers part rest
      return (some words, rest)
    else .ok (none, s)
  | [] => .ok (none, s)

def readChars (s : List Char) : Except Fault Version := do
  if s.isEmpty then throw .empty
  let (major, s) ← readNumber .major s
  let s ← readDot .major s
  let (minor, s) ← readNumber .minor s
  let s ← readDot .minor s
  let (patch, s) ← readNumber .patch s
  let (pre, s) ← readMarked '-' .pre s
  let (build, s) ← readMarked '+' .build s
  match s with
  | [] => return ⟨major, minor, patch, pre.getD [], build.getD []⟩
  | c :: _ =>
    let part : Part := if build.isSome then .build else if pre.isSome then .pre else .patch
    throw (.unexpectedCharAfter part c)

def read (s : String) : Except Fault Version := readChars s.toList

def dotted : List (List Char) → List Char
  | [] => []
  | [w] => w
  | w :: ws => w ++ '.' :: dotted ws

def toChars (v : Version) : List Char :=
  Nat.toDigits 10 v.major ++ '.' :: Nat.toDigits 10 v.minor ++ '.' :: Nat.toDigits 10 v.patch ++
    (if v.pre.isEmpty then [] else '-' :: dotted v.pre) ++
    (if v.build.isEmpty then [] else '+' :: dotted v.build)

def text (v : Version) : String := String.ofList v.toChars

def compareChars : List Char → List Char → Ordering
  | [], [] => .eq
  | [], _ :: _ => .lt
  | _ :: _, [] => .gt
  | a :: s, b :: t => (compare a.toNat b.toNat).then (compareChars s t)

/-- The order of two identifiers: numbers by value, then by their leading zeros, below all others,
which go by their characters. -/
def compareIdentifier (a b : List Char) : Ordering :=
  let value (w : List Char) : Nat := w.foldl (fun n c => n * 10 + (c.toNat - 48)) 0
  match isNumeric a, isNumeric b with
  | true, true => (compare (value a) (value b)).then (compare a.length b.length)
  | true, false => .lt
  | false, true => .gt
  | false, false => compareChars a b

/-- The order of lists of identifiers by the first difference; a longer list is the greater one. -/
def compareIdentifiers : List (List Char) → List (List Char) → Ordering
  | [], [] => .eq
  | [], _ :: _ => .lt
  | _ :: _, [] => .gt
  | a :: s, b :: t => (compareIdentifier a b).then (compareIdentifiers s t)

/-- The order of pre-releases: having none ranks highest. -/
def comparePre (a b : List (List Char)) : Ordering :=
  match a, b with
  | [], [] => .eq
  | [], _ :: _ => .gt
  | _ :: _, [] => .lt
  | a, b => compareIdentifiers a b

def compare (v w : Version) : Ordering :=
  (Ord.compare v.major w.major).then <| (Ord.compare v.minor w.minor).then <|
    (Ord.compare v.patch w.patch).then <| (comparePre v.pre w.pre).then <|
      compareIdentifiers v.build w.build

instance : LE Version := ⟨fun v w => compare v w ≠ .gt⟩

instance (v w : Version) : Decidable (v ≤ w) := inferInstanceAs (Decidable (compare v w ≠ .gt))

/-- A greatest version, the last one of equals. -/
def greatest? : List Version → Option Version
  | [] => none
  | v :: vs => some (vs.foldl (fun best w => if best ≤ w then w else best) v)

/-- A least version, the first one of equals. -/
def least? : List Version → Option Version
  | [] => none
  | v :: vs => some (vs.foldl (fun best w => if best ≤ w then best else w) v)

end Version
end Manifest
