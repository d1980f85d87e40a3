import Manifest.Path
import Manifest.Value

/-! The smallest parts of TOML text: white space, comments, quoted text, keys and numbers. -/
namespace Manifest.Toml

/-- A step of reading. It fails with the number of characters that were left where it stopped. -/
abbrev Reader := StateT (List Char) (Except Nat)

namespace Reader

variable {α β σ : Type}

def stop : Reader α := fun s => .error s.length

def stopAt (left : Nat) : Reader α := fun _ => .error left

def left : Reader Nat := fun s => .ok (s.length, s)

def peek : Reader (Option Char) := fun s => .ok (s.head?, s)

def takeWhile (p : Char → Bool) : Reader (List Char) := fun s => .ok (s.takeWhile p, s.dropWhile p)

def accept (c : Char) : Reader Bool := fun s =>
  match s with
  | d :: rest => if d = c then .ok (true, rest) else .ok (false, s)
  | [] => .ok (false, s)

def expect (c : Char) : Reader Unit := do
  if ← accept c then return () else stop

def ofOption (f : List Char → Option (α × List Char)) : Reader α := fun s =>
  match f s with
  | some r => .ok r
  | none => .error s.length

def repeatUpTo (step : σ → Reader (σ ⊕ β)) : Nat → σ → Reader β
  | 0, _ => stop
  | n + 1, x => do
    match ← step x with
    | .inl y => repeatUpTo step n y
    | .inr b => return b

/-- Repeats a step until it is done. Each round but the last has to take a character. -/
def iterate (step : σ → Reader (σ ⊕ β)) (x : σ) : Reader β := fun s =>
  repeatUpTo step (s.length + 1) x s

end Reader

open Reader

def isSpace (c : Char) : Bool := c == ' ' || c == '\t'

def skipSpaces : Reader Unit := do let _ ← takeWhile isSpace

/-- A character that may stand in a comment: no control character but the tab. -/
def isCommentChar (c : Char) : Bool :=
  c == '\t' || (0x20 ≤ c.toNat && c.toNat ≤ 0x7E) || 0x80 ≤ c.toNat

def acceptNewline : Reader Bool := fun s =>
  match s with
  | '\n' :: rest => .ok (true, rest)
  | '\r' :: '\n' :: rest => .ok (true, rest)
  | s => .ok (false, s)

def skipComment : Reader Unit := do
  if ← accept '#' then
    let _ ← takeWhile isCommentChar

/-- The end of a line: spaces, perhaps a comment, then a line break or the end of the text. -/
def endLine : Reader Unit := do
  skipSpaces
  skipComment
  if ← acceptNewline then return ()
  match ← peek with
  | none => return ()
  | some _ => stop

/-- White space, line breaks and comments, as they may stand between the items of an array. Says
whether they end well: a comment, or a carriage return, has to be followed by a line break. -/
def skipLines : Reader Bool :=
  iterate (fun (_ : Unit) => do
    skipSpaces
    match ← peek with
    | some '#' | some '\n' | some '\r' => do
      skipComment
      if ← acceptNewline then return .inl () else return .inr false
    | _ => return .inr true) ()

def isTextChar (c : Char) : Bool := isCommentChar c

def unescape? (c : Char) : Option Char :=
  if c = 'b' then some '\x08'
  else if c = 't' then some '\t'
  else if c = 'n' then some '\n'
  else if c = 'f' then some '\x0c'
  else if c = 'r' then some '\r'
  else if c = '"' then some '"'
  else if c = '\\' then some '\\'
  else none

def scalar? (ds : List Char) : Option Char := do
  let n ← ds.foldlM (fun n d => do return n * 16 + (← Json.Reader.hexDigit? d)) 0
  if n < 0xD800 ∨ (0xE000 ≤ n ∧ n < 0x110000) then some (Char.ofNat n) else none

/-- Text that has been read, and the text behind it. -/
abbrev Quoted := Except Nat (List Char × List Char)

def Quoted.push (c : Char) (q : Quoted) : Quoted := q.map fun (cs, rest) => (c :: cs, rest)

/-- An escape behind its backslash; `next` reads on behind it. -/
def escaped (next : List Char → Quoted) : List Char → Quoted
  | 'u' :: a :: b :: c :: d :: s =>
    match scalar? [a, b, c, d] with
    | some x => (next s).push x
    | none => .error (s.length + 4)
  | 'U' :: a :: b :: c :: d :: e :: f :: g :: h :: s =>
    match scalar? [a, b, c, d, e, f, g, h] with
    | some x => (next s).push x
    | none => .error (s.length + 8)
  | c :: s =>
    match unescape? c with
    | some x => (next s).push x
    | none => .error s.length
  | [] => .error 0

def basic : Nat → List Char → Quoted
  | 0, s => .error s.length
  | _, [] => .error 0
  | n + 1, c :: s =>
    if c = '"' then .ok ([], s)
    else if c = '\\' then escaped (basic n) s
    else if isTextChar c then (basic n s).push c
    else .error (s.length + 1)

def verbatim : List Char → Quoted
  | [] => .error 0
  | c :: s =>
    if c = '\x27' then .ok ([], s)
    else if isTextChar c then (verbatim s).push c
    else .error (s.length + 1)

/-- The end of multi-line text at a run of at least three quotes: up to two quotes before the
closing three belong to the text. -/
def closing (quote : Char) (s : List Char) : Option (List Char × List Char) :=
  let run := (s.takeWhile (· == quote)).length
  if run < 3 then none
  else some (List.replicate (min (run - 3) 2) quote, s.drop (min run 5))

/-- Whether a backslash before this text continues the line: only spaces follow up to the line
break. -/
def continues (s : List Char) : Bool :=
  match s.dropWhile isSpace with
  | '\n' :: _ => true
  | '\r' :: '\n' :: _ => true
  | _ => false

def skipBreaks : List Char → List Char
  | '\r' :: '\n' :: s => skipBreaks s
  | c :: s => if isSpace c || c == '\n' then skipBreaks s else c :: s
  | [] => []

def basicLines : Nat → List Char → Quoted
  | 0, s => .error s.length
  | _, [] => .error 0
  | n + 1, c :: s =>
    match closing '"' (c :: s) with
    | some r => .ok r
    | none =>
      if c = '\\' then
        if continues s then basicLines n (skipBreaks s) else escaped (basicLines n) s
      else if c = '\n' ∨ isTextChar c then (basicLines n s).push c
      else
        match c, s with
        | '\r', '\n' :: s => (basicLines n s).push '\n'
        | _, _ => .error (s.length + 1)

def verbatimLines : Nat → List Char → Quoted
  | 0, s => .error s.length
  | _, [] => .error 0
  | n + 1, c :: s =>
    match closing '\x27' (c :: s) with
    | some r => .ok r
    | none =>
      if c = '\n' ∨ isTextChar c then (verbatimLines n s).push c
      else
        match c, s with
        | '\r', '\n' :: s => (verbatimLines n s).push '\n'
        | _, _ => .error (s.length + 1)

def dropFirstBreak : List Char → List Char
  | '\n' :: s => s
  | '\r' :: '\n' :: s => s
  | s => s

def quotedLine : Reader (List Char) := fun s =>
  match s with
  | '"' :: s => basic (s.length + 1) s
  | '\x27' :: s => verbatim s
  | s => .error s.length

def quotedText : Reader (List Char) := fun s =>
  match s with
  | '"' :: '"' :: '"' :: s => basicLines (s.length + 1) (dropFirstBreak s)
  | '\x27' :: '\x27' :: '\x27' :: s => verbatimLines (s.length + 1) (dropFirstBreak s)
  | s => quotedLine s

def isBareKeyChar (c : Char) : Bool := c.isAlphanum || c == '_' || c == '-'

def startsKey (c : Char) : Bool := isBareKeyChar c || c == '"' || c == '\x27'

def key : Reader String := do
  match ← peek with
  | some c =>
    if isBareKeyChar c then return String.ofList (← takeWhile isBareKeyChar)
    else return String.ofList (← quotedLine)
  | none => stop

/-- Keys with dots between them, at least one and fewer than eighty, spaces allowed around each. -/
def dottedKey : Reader Keys := do
  let start ← left
  let keys ← iterate (fun (keys : List String) => do
    skipSpaces
    let k ← key
    skipSpaces
    if ← accept '.' then return .inl (k :: keys) else return .inr (k :: keys).reverse) []
  if keys.length < 80 then return keys else stopAt start

/-- Digits behind a first one; an underscore may stand between two digits. -/
def moreDigits (isDigit : Char → Bool) : List Char → Option (List Char × List Char)
  | [] => some ([], [])
  | '_' :: s =>
    match s with
    | [] => none
    | c :: s =>
      if isDigit c then (moreDigits isDigit s).map fun (ds, rest) => (c :: ds, rest) else none
  | c :: s =>
    if isDigit c then (moreDigits isDigit s).map fun (ds, rest) => (c :: ds, rest)
    else some ([], c :: s)

def digits (isDigit : Char → Bool) : List Char → Option (List Char × List Char)
  | c :: s =>
    if isDigit c then (moreDigits isDigit s).map fun (ds, rest) => (c :: ds, rest) else none
  | [] => none

/-- The digits of a decimal integer: a zero, or digits that do not start with one. -/
def wholeDigits : List Char → Option (List Char × List Char)
  | '0' :: s => some (['0'], s)
  | s => digits Char.isDigit s

def sign : List Char → Bool × List Char
  | '+' :: s => (false, s)
  | '-' :: s => (true, s)
  | s => (false, s)

def ofInt? (n : Int) : Option Value :=
  if -0x8000000000000000 ≤ n ∧ n < 0x8000000000000000 then some (.int (Int64.ofInt n)) else none

def basedInteger (base : Nat) (s : List Char) : Option (Value × List Char) := do
  let isDigit (c : Char) : Bool := (Json.Reader.hexDigit? c).any (· < base)
  let (ds, rest) ← digits isDigit s
  let n := ds.foldl (fun n d => n * base + (Json.Reader.hexDigit? d).getD 0) 0
  return (← ofInt? n, rest)

def integer : List Char → Option (Value × List Char)
  | '0' :: 'x' :: s => basedInteger 16 s
  | '0' :: 'o' :: s => basedInteger 8 s
  | '0' :: 'b' :: s => basedInteger 2 s
  | s => do
    let (negative, s) := sign s
    let (ds, rest) ← wholeDigits s
    let n : Int := Decimal.value ds
    return (← ofInt? (if negative then -n else n), rest)

def power : List Char → Option (Int × List Char)
  | c :: s =>
    if c = 'e' ∨ c = 'E' then do
      let (negative, s) := sign s
      let (ds, rest) ← digits Char.isDigit s
      let n : Int := Decimal.value ds
      return (if negative then -n else n, rest)
    else none
  | [] => none

/-- A number with a point, an exponent or both. One that is too large is refused, unless it is
negative. -/
def fractional (s : List Char) : Option (Value × List Char) := do
  let (negative, s) := sign s
  let (whole, s) ← wholeDigits s
  let (part, exponent, rest) ← (match s with
    | '.' :: s => do
      let (part, s) ← digits Char.isDigit s
      match power s with
      | some (n, rest) => some (part, n, rest)
      | none => some (part, (0 : Int), s)
    | s => do
      let (n, rest) ← power s
      return ([], n, rest))
  let x := Decimal.Literal.toFloat ⟨negative, whole, part, exponent⟩
  if !negative && !Decimal.isFinite x then none else some (.float x, rest)

def named (s : List Char) : Option (Value × List Char) :=
  let (negative, s) := sign s
  match s with
  | 'i' :: 'n' :: 'f' :: rest =>
    some (.float (Float.ofBits (if negative then 0xFFF0000000000000 else 0x7FF0000000000000)), rest)
  | 'n' :: 'a' :: 'n' :: rest =>
    some (.float (Float.ofBits (if negative then 0xFFF8000000000000 else 0x7FF8000000000000)), rest)
  | _ => none

def plain (s : List Char) : Option (Value × List Char) :=
  ((Datetime.read s).map fun (d, rest) => (.datetime d, rest)) <|> fractional s <|> named s <|>
    integer s

end Manifest.Toml
