import Manifest.Json.Reader
import Manifest.Query.Expr

/-! The tokens of a query, and how strongly each binds to an expression on its left. -/
namespace Manifest.Query

inductive Token
  | current
  | name (s : String)
  | quotedName (s : String)
  | literal (value : Json Empty)
  | number (n : Int)
  | dot
  | star
  | comma
  | colon
  | pipe
  | or
  | and
  | ampersand
  | not
  | relation (r : Relation)
  | flatten
  | filter
  | openBracket
  | closeBracket
  | openBrace
  | closeBrace
  | openParen
  | closeParen
  deriving Inhabited

namespace Token

def power : Token → Nat
  | .pipe => 1
  | .or => 2
  | .and => 3
  | .relation _ => 5
  | .flatten => 9
  | .star => 20
  | .filter => 21
  | .dot => 40
  | .not => 45
  | .openBrace => 50
  | .openBracket => 55
  | .openParen => 60
  | _ => 0

def isCloseBracket : Token → Bool
  | .closeBracket => true
  | _ => false

def isCloseParen : Token → Bool
  | .closeParen => true
  | _ => false

def isNameStart (c : Char) : Bool := c.isAlpha || c == '_'

def isNameChar (c : Char) : Bool := c.isAlphanum || c == '_'

/-- The characters up to a closing quote, and the rest. A backslash and the character behind it stay
as they are. -/
def enclosed (quote : Char) : List Char → Option (List Char × List Char)
  | [] => none
  | '\\' :: c :: s => (enclosed quote s).map fun (cs, rest) => ('\\' :: c :: cs, rest)
  | c :: s =>
    if c = quote then some ([], s)
    else (enclosed quote s).map fun (cs, rest) => (c :: cs, rest)

def unescape (quote : Char) : List Char → List Char
  | '\\' :: c :: s => if c = quote then c :: unescape quote s else '\\' :: unescape quote (c :: s)
  | c :: s => c :: unescape quote s
  | [] => []

/-- The number that decimal digits denote, if it fits 32 bits with a sign. -/
def ofDigits? (ds : List Char) : Option Int :=
  let n := Nat.ofDigitChars 10 ds 0
  if n < 0x80000000 then some n else none

def read (c : Char) (s : List Char) : Option (Token × List Char) :=
  if isNameStart c then
    some (.name (String.ofList (c :: s.takeWhile isNameChar)), s.dropWhile isNameChar)
  else if c.isDigit then
    (ofDigits? (c :: s.takeWhile Char.isDigit)).map fun n => (.number n, s.dropWhile Char.isDigit)
  else if c = '-' then
    match s with
    | d :: _ =>
      if d.isDigit && d != '0' then
        (ofDigits? (s.takeWhile Char.isDigit)).map fun n => (.number (-n), s.dropWhile Char.isDigit)
      else none
    | [] => none
  else if c = '"' then do
    let (cs, rest) ← enclosed c s
    match (Json.ofText? (String.ofList ('"' :: cs ++ ['"'])) : Option (Json Empty)) with
    | some (.string t) => some (.quotedName t, rest)
    | _ => none
  else if c = '\x27' then
    (enclosed c s).map fun (cs, rest) => (.literal (.string (String.ofList (unescape c cs))), rest)
  else if c = '\x60' then do
    let (cs, rest) ← enclosed c s
    let value ← Json.ofText? (String.ofList (unescape c cs))
    return (.literal value, rest)
  else
    match c, s with
    | '[', ']' :: s => some (.flatten, s)
    | '[', '?' :: s => some (.filter, s)
    | '|', '|' :: s => some (.or, s)
    | '&', '&' :: s => some (.and, s)
    | '=', '=' :: s => some (.relation .eq, s)
    | '!', '=' :: s => some (.relation .ne, s)
    | '<', '=' :: s => some (.relation .le, s)
    | '>', '=' :: s => some (.relation .ge, s)
    | '[', s => some (.openBracket, s)
    | ']', s => some (.closeBracket, s)
    | '{', s => some (.openBrace, s)
    | '}', s => some (.closeBrace, s)
    | '(', s => some (.openParen, s)
    | ')', s => some (.closeParen, s)
    | '|', s => some (.pipe, s)
    | '&', s => some (.ampersand, s)
    | '!', s => some (.not, s)
    | '<', s => some (.relation .lt, s)
    | '>', s => some (.relation .gt, s)
    | '.', s => some (.dot, s)
    | '*', s => some (.star, s)
    | '@', s => some (.current, s)
    | ',', s => some (.comma, s)
    | ':', s => some (.colon, s)
    | _, _ => none

/-- The tokens of a text that starts at an octet offset and of which the first `n` characters have
been taken already, each with its offset. -/
def readAfter : Nat → Nat → List Char → Option (List (Nat × Token))
  | _, _, [] => some []
  | n + 1, offset, c :: s => readAfter n (offset + c.utf8Size) s
  | 0, offset, c :: s =>
    if Json.Reader.isSpace c then readAfter 0 (offset + c.utf8Size) s
    else
      match read c s with
      | none => none
      | some (t, rest) =>
        (readAfter (s.length - rest.length) (offset + c.utf8Size) s).map ((offset, t) :: ·)

/-- All tokens of a query with their octet offsets; nothing if some character starts none. -/
def readAll (text : List Char) : Option (List (Nat × Token)) := readAfter 0 0 text

@[simp] theorem readAll_nil : readAll [] = some [] := rfl

end Token
end Manifest.Query
