import Manifest.Json
import Manifest.Decimal.Text
import Manifest.Text.Visible

/-! JSON text of a value: compact, or spread over lines with two spaces of indentation. -/
namespace Manifest.Json

variable {ρ : Type}

/-- How a character is written inside a string: quotes, backslashes and controls are escaped. -/
def escape (c : Char) : List Char :=
  if c = '"' then ['\\', '"']
  else if c = '\\' then ['\\', '\\']
  else if c = '\n' then ['\\', 'n']
  else if c = '\r' then ['\\', 'r']
  else if c = '\t' then ['\\', 't']
  else if c = '\x08' then ['\\', 'b']
  else if c = '\x0c' then ['\\', 'f']
  else if c.toNat < 0x20 then
    ['\\', 'u', '0', '0', Nat.digitChar (c.toNat / 16), Nat.digitChar (c.toNat % 16)]
  else [c]

def quoted (s : String) : List Char := '"' :: s.toList.flatMap escape ++ ['"']

def intText (n : Int) : List Char :=
  if n < 0 then '-' :: Decimal.digits n.natAbs else Decimal.digits n.natAbs

/-- The text of a number; infinities and NaNs have none and are written as null. -/
def floatText (x : Float) : List Char :=
  if Decimal.isFinite x then Decimal.ofFinite x else ['n', 'u', 'l', 'l']

mutual

def compactChars : Json ρ → List Char
  | .null => ['n', 'u', 'l', 'l']
  | .bool true => ['t', 'r', 'u', 'e']
  | .bool false => ['f', 'a', 'l', 's', 'e']
  | .int n => intText n
  | .float x => floatText x
  | .string s => quoted s
  | .array [] => ['[', ']']
  | .array (x :: xs) => '[' :: compactChars x ++ compactItems xs ++ [']']
  | .object [] => ['{', '}']
  | .object ((k, x) :: ms) =>
    '{' :: quoted k ++ ':' :: compactChars x ++ compactMembers ms ++ ['}']
  | .reference _ => ['n', 'u', 'l', 'l']

def compactItems : List (Json ρ) → List Char
  | [] => []
  | x :: xs => ',' :: compactChars x ++ compactItems xs

def compactMembers : List (String × Json ρ) → List Char
  | [] => []
  | (k, x) :: ms => ',' :: quoted k ++ ':' :: compactChars x ++ compactMembers ms

end

def compact (x : Json ρ) : String := String.ofList (compactChars x)

def newline (depth : Nat) : List Char := '\n' :: List.replicate (2 * depth) ' '

mutual

def prettyChars (depth : Nat) : Json ρ → List Char
  | .array (x :: xs) =>
    '[' :: newline (depth + 1) ++ prettyChars (depth + 1) x ++ prettyItems (depth + 1) xs ++
      newline depth ++ [']']
  | .object ((k, x) :: ms) =>
    '{' :: newline (depth + 1) ++ quoted k ++ ':' :: ' ' :: prettyChars (depth + 1) x ++
      prettyMembers (depth + 1) ms ++ newline depth ++ ['}']
  | .null => ['n', 'u', 'l', 'l']
  | .bool true => ['t', 'r', 'u', 'e']
  | .bool false => ['f', 'a', 'l', 's', 'e']
  | .int n => intText n
  | .float x => floatText x
  | .string s => quoted s
  | .array [] => ['[', ']']
  | .object [] => ['{', '}']
  | .reference _ => ['n', 'u', 'l', 'l']

def prettyItems (depth : Nat) : List (Json ρ) → List Char
  | [] => []
  | x :: xs => ',' :: newline depth ++ prettyChars depth x ++ prettyItems depth xs

def prettyMembers (depth : Nat) : List (String × Json ρ) → List Char
  | [] => []
  | (k, x) :: ms =>
    ',' :: newline depth ++ quoted k ++ ':' :: ' ' :: prettyChars depth x ++ prettyMembers depth ms

end

/-- The text with one item or member to a line; empty containers stay on their line. -/
def pretty (x : Json ρ) : String := String.ofList (prettyChars 0 x)

end Manifest.Json
