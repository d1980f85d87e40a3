import Manifest.Json.Reader

/-! The outline of a JSON text: its arrays and objects, with everything else in them as it is
written. The text is held against the grammar and nothing more. Whether a number or a string in it
denotes something is asked only of those that matter, and containers may stand inside one another as
deep as they like. -/
namespace Manifest.Json

inductive Outline
  | word (written : List Char)
  | string (body : List Char)
  | array (items : List Outline)
  | object (members : List (List Char × Outline))
  deriving Inhabited

namespace Outline

open Reader (skip hexDigit? unescape?)

def stringBody : List Char → Option (List Char × List Char)
  | [] => none
  | '"' :: s => some ([], s)
  | '\\' :: 'u' :: a :: b :: c :: d :: s =>
    if [a, b, c, d].all fun x => (hexDigit? x).isSome then
      (stringBody s).map fun (cs, rest) => ('\\' :: 'u' :: a :: b :: c :: d :: cs, rest)
    else none
  | '\\' :: c :: s =>
    if (unescape? c).isSome then (stringBody s).map fun (cs, rest) => ('\\' :: c :: cs, rest)
    else none
  | c :: s =>
    if c.toNat < 0x20 ∨ c = '\\' then none
    else (stringBody s).map fun (cs, rest) => (c :: cs, rest)

def oneOf (cs : List Char) : List Char → List Char × List Char
  | [] => ([], [])
  | c :: s => if c ∈ cs then ([c], s) else ([], c :: s)

def digits (s : List Char) : Option (List Char × List Char) :=
  match Decimal.spanDigits s with
  | ([], _) => none
  | r => some r

def whole : List Char → Option (List Char × List Char)
  | '0' :: s => some (['0'], s)
  | s => digits s

def fraction : List Char → Option (List Char × List Char)
  | '.' :: s => (digits s).map fun (ds, rest) => ('.' :: ds, rest)
  | s => some ([], s)

def exponent : List Char → Option (List Char × List Char)
  | [] => some ([], [])
  | c :: s =>
    if c = 'e' ∨ c = 'E' then
      let (sign, s) := oneOf ['+', '-'] s
      (digits s).map fun (ds, rest) => (c :: sign ++ ds, rest)
    else some ([], c :: s)

def number (s : List Char) : Option (List Char × List Char) := do
  let (sign, s) := oneOf ['-'] s
  let (whole, s) ← whole s
  let (part, s) ← fraction s
  let (power, s) ← exponent s
  return (sign ++ whole ++ part ++ power, s)

def entries {α : Type} (close : Char) (entry : List Char → Option (α × List Char)) :
    Nat → List Char → Option (List α × List Char)
  | 0, _ => none
  | n + 1, s => do
    let (a, s) ← entry s
    match skip s with
    | [] => none
    | c :: s =>
      if c = ',' then (entries close entry n s).map fun (as, rest) => (a :: as, rest)
      else if c = close then some ([a], s)
      else none

def member {α : Type} (item : List Char → Option (α × List Char)) (s : List Char) :
    Option ((List Char × α) × List Char) :=
  match skip s with
  | '"' :: s => do
    let (k, s) ← stringBody s
    match skip s with
    | ':' :: s => (item s).map fun (x, rest) => ((k, x), rest)
    | _ => none
  | _ => none

def container {α : Type} (close : Char) (entry : List Char → Option (α × List Char))
    (s : List Char) :
    Option (List α × List Char) :=
  match skip s with
  | [] => none
  | c :: rest => if c = close then some ([], rest) else entries close entry s.length s

def value (depth : Nat) (s : List Char) : Option (Outline × List Char) :=
  match skip s with
  | 'n' :: 'u' :: 'l' :: 'l' :: s => some (.word ['n', 'u', 'l', 'l'], s)
  | 't' :: 'r' :: 'u' :: 'e' :: s => some (.word ['t', 'r', 'u', 'e'], s)
  | 'f' :: 'a' :: 'l' :: 's' :: 'e' :: s => some (.word ['f', 'a', 'l', 's', 'e'], s)
  | '"' :: s => (stringBody s).map fun (body, rest) => (.string body, rest)
  | '[' :: s =>
    match depth with
    | 0 => none
    | depth + 1 => (container ']' (value depth) s).map fun (xs, rest) => (.array xs, rest)
  | '{' :: s =>
    match depth with
    | 0 => none
    | depth + 1 => (container '}' (member (value depth)) s).map fun (ms, rest) => (.object ms, rest)
  | s => (number s).map fun (written, rest) => (.word written, rest)

/-- The outline of a whole text. No more containers can stand inside one another than it has
characters. -/
def ofText? (s : String) : Option Outline :=
  match value s.toList.length s.toList with
  | some (x, rest) => if (skip rest).isEmpty then some x else none
  | none => none

def denoted? (body : List Char) : Option String :=
  match Reader.stringBody (body ++ ['"']) with
  | some (cs, []) => some (String.ofList cs)
  | _ => none

def string? : Outline → Option String
  | .string body => denoted? body
  | _ => none

def bool? : Outline → Option Bool
  | .word written =>
    if written = ['t', 'r', 'u', 'e'] then some true
    else if written = ['f', 'a', 'l', 's', 'e'] then some false
    else none
  | _ => none

def int? : Outline → Option Int
  | .word written =>
    match (Reader.number written : Option (Json Empty × List Char)) with
    | some (.int n, []) => some n
    | _ => none
  | _ => none

end Outline
end Manifest.Json
