import Manifest.Json
import Manifest.Decimal.Text

/-! Reading JSON text. Objects keep their members as written, repeated keys included; `Json.sorted`
settles them. At most 127 arrays and objects may stand inside one another. -/
namespace Manifest.Json.Reader

variable {ρ : Type}

def isSpace (c : Char) : Bool := c == ' ' || c == '\n' || c == '\t' || c == '\r'

def skip (s : List Char) : List Char := s.dropWhile isSpace

def hexDigit? (c : Char) : Option Nat :=
  if '0' ≤ c ∧ c ≤ '9' then some (c.toNat - 48)
  else if 'a' ≤ c ∧ c ≤ 'f' then some (c.toNat - 87)
  else if 'A' ≤ c ∧ c ≤ 'F' then some (c.toNat - 55)
  else none

def hex4? (a b c d : Char) : Option Nat := do
  return (((← hexDigit? a) * 16 + (← hexDigit? b)) * 16 + (← hexDigit? c)) * 16 + (← hexDigit? d)

def unescape? (c : Char) : Option Char :=
  if c = '"' then some '"'
  else if c = '\\' then some '\\'
  else if c = '/' then some '/'
  else if c = 'b' then some '\x08'
  else if c = 'f' then some '\x0c'
  else if c = 'n' then some '\n'
  else if c = 'r' then some '\r'
  else if c = 't' then some '\t'
  else none

/-- The characters of a string up to its closing quote, and the rest. A character beyond the basic
plane is written as two escapes; half of such a pair is refused. -/
def stringBody : List Char → Option (List Char × List Char)
  | [] => none
  | '"' :: s => some ([], s)
  | '\\' :: 'u' :: a :: b :: c :: d :: s =>
    match hex4? a b c d with
    | none => none
    | some n =>
      if n < 0xD800 ∨ 0xE000 ≤ n then
        (stringBody s).map fun (cs, rest) => (Char.ofNat n :: cs, rest)
      else if n < 0xDC00 then
        match s with
        | '\\' :: 'u' :: e :: f :: g :: h :: s =>
          match hex4? e f g h with
          | none => none
          | some m =>
            if 0xDC00 ≤ m ∧ m < 0xE000 then
              (stringBody s).map fun (cs, rest) =>
                (Char.ofNat (0x10000 + (n - 0xD800) * 0x400 + (m - 0xDC00)) :: cs, rest)
            else none
        | _ => none
      else none
  | '\\' :: c :: s =>
    match unescape? c with
    | some d => (stringBody s).map fun (cs, rest) => (d :: cs, rest)
    | none => none
  | c :: s =>
    if c.toNat < 0x20 ∨ c = '\\' then none
    else (stringBody s).map fun (cs, rest) => (c :: cs, rest)

/-- An integer between the least 64-bit integer and the greatest unsigned one stays exact; zero with
a sign and anything larger becomes a double. -/
def ofInteger (negative : Bool) (n : Nat) : Json ρ :=
  if negative then
    if 0 < n ∧ n ≤ 0x8000000000000000 then .int (-n) else .float (-(Decimal.nearest n 0))
  else if n < 0x10000000000000000 then .int n
  else .float (Decimal.nearest n 0)

def fraction : List Char → Option (List Char × List Char)
  | '.' :: s =>
    match Decimal.spanDigits s with
    | ([], _) => none
    | (ds, rest) => some (ds, rest)
  | s => some ([], s)

def exponent : List Char → Option (Option Int × List Char)
  | [] => some (none, [])
  | c :: s =>
    if c = 'e' ∨ c = 'E' then
      let (sign, s) : Int × List Char := match s with
        | '-' :: s => (-1, s)
        | '+' :: s => (1, s)
        | s => (1, s)
      match Decimal.spanDigits s with
      | ([], _) => none
      | (ds, rest) => some (some (sign * Decimal.value ds), rest)
    else some (none, c :: s)

/-- A number whose sign has been read. One with a fraction or an exponent is the double next to
it. -/
def unsigned (negative : Bool) (s : List Char) : Option (Json ρ × List Char) :=
  match Decimal.spanDigits s with
  | ([], _) => none
  | ('0' :: _ :: _, _) => none
  | (whole, s) => do
    let (part, s) ← fraction s
    let (power, s) ← exponent s
    if part.isEmpty ∧ power.isNone then some (ofInteger negative (Decimal.value whole), s)
    else
      let x := Decimal.Literal.toFloat ⟨negative, whole, part, power.getD 0⟩
      if Decimal.isFinite x then some (.float x, s) else none

def number : List Char → Option (Json ρ × List Char)
  | '-' :: s => unsigned true s
  | s => unsigned false s

def items (item : List Char → Option (Json ρ × List Char)) :
    Nat → List Char → Option (List (Json ρ) × List Char)
  | 0, _ => none
  | n + 1, s => do
    let (x, s) ← item s
    match skip s with
    | ',' :: s => (items item n s).map fun (xs, rest) => (x :: xs, rest)
    | ']' :: s => some ([x], s)
    | _ => none

def members (item : List Char → Option (Json ρ × List Char)) :
    Nat → List Char → Option (List (String × Json ρ) × List Char)
  | 0, _ => none
  | n + 1, s =>
    match skip s with
    | '"' :: s => do
      let (k, s) ← stringBody s
      match skip s with
      | ':' :: s => do
        let (x, s) ← item s
        match skip s with
        | ',' :: s =>
          (members item n s).map fun (ms, rest) => ((String.ofList k, x) :: ms, rest)
        | '}' :: s => some ([(String.ofList k, x)], s)
        | _ => none
      | _ => none
    | _ => none

def value (depth : Nat) (s : List Char) : Option (Json ρ × List Char) :=
  match skip s with
  | 'n' :: 'u' :: 'l' :: 'l' :: s => some (.null, s)
  | 't' :: 'r' :: 'u' :: 'e' :: s => some (.bool true, s)
  | 'f' :: 'a' :: 'l' :: 's' :: 'e' :: s => some (.bool false, s)
  | '"' :: s => (stringBody s).map fun (cs, rest) => (.string (String.ofList cs), rest)
  | '[' :: s =>
    match depth with
    | 0 => none
    | depth + 1 =>
      match skip s with
      | ']' :: s => some (.array [], s)
      | _ => (items (value depth) s.length s).map fun (xs, rest) => (.array xs, rest)
  | '{' :: s =>
    match depth with
    | 0 => none
    | depth + 1 =>
      match skip s with
      | '}' :: s => some (.object [], s)
      | _ => (members (value depth) s.length s).map fun (ms, rest) => (.object ms, rest)
  | s => number s

end Reader

def raw? {ρ : Type} (s : String) : Option (Json ρ) :=
  match Reader.value 127 s.toList with
  | some (x, rest) => if (Reader.skip rest).isEmpty then some x else none
  | none => none

def ofText? {ρ : Type} (s : String) : Option (Json ρ) := (raw? s).map sorted

end Manifest.Json
