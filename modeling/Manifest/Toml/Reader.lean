import Manifest.Toml.Scan
import Manifest.Toml.Table

/-! Reading a TOML document, or finding the line at which it stops being one. -/
namespace Manifest.Toml

open Reader

def word (text : List Char) (v : Value) : Reader Value := fun s =>
  if s.take text.length = text then .ok (v, s.drop text.length) else .error s.length

/-- An array behind its opening bracket. A comma may follow the last item. An item that ill-formed
white space follows is refused as a whole, at its start. -/
def array (item : Reader Node) : Reader Node :=
  iterate (fun (items : List Node) => do
    let _ ← skipLines
    if ← accept ']' then return .inr (.array items.reverse)
    let start ← left
    let n ← item
    if !(← skipLines) then stopAt start
    else if ← accept ',' then return .inl (n :: items)
    else
      expect ']'
      return .inr (.array (n :: items).reverse)) []

structure Pair where
  place : Nat
  path : Keys
  node : Node

/-- The pairs of an inline table put together; they follow the rules for dotted keys. -/
def inlineTable? (pairs : List Pair) : Option Node := do
  let es ← pairs.foldlM (fun (es : Entries) p => do
    es.add p.place p.path.dropLast (← p.path.getLast?) p.node) []
  return .inline es

/-- An inline table behind its opening brace. Conflicting keys are found once the pairs end, before
what follows them is looked at, and are reported at the opening. -/
def inline (item : Reader Node) : Reader Node := do
  let start ← left
  let finish (pairs : List Pair) : Reader Node :=
    match inlineTable? pairs.reverse with
    | some n => return n
    | none => stopAt start
  iterate (fun (pairs : List Pair) => do
    let place ← left
    skipSpaces
    let next ← peek
    if (next.map startsKey).getD false then
      let path ← dottedKey
      expect '='
      skipSpaces
      let node ← item
      skipSpaces
      let pairs := ⟨place, path, node⟩ :: pairs
      if ← accept ',' then return .inl pairs
      let table ← finish pairs
      expect '}'
      return .inr table
    else if pairs.isEmpty then
      expect '}'
      return .inr (← finish [])
    else
      let _ ← finish pairs
      stopAt place) []

/-- A value in which arrays and inline tables stand at most `depth` deep inside one another. -/
def value : Nat → Reader Node
  | 0 => do
    match ← peek with
    | some '[' | some '{' => stop
    | _ => return .leaf (← simple)
  | depth + 1 => do
    match ← peek with
    | some '[' => do
      expect '['
      array (value depth)
    | some '{' => do
      expect '{'
      inline (value depth)
    | _ => return .leaf (← simple)
where
  /-- A value that holds no other. -/
  simple : Reader Value := do
    match ← peek with
    | some '"' | some '\x27' => return .string (String.ofList (← quotedText))
    | some 't' => word ['t', 'r', 'u', 'e'] (.bool true)
    | some 'f' => word ['f', 'a', 'l', 's', 'e'] (.bool false)
    | some _ => ofOption plain
    | none => stop

/-- A change that is refused is reported at the place where the line's own text starts. -/
def changed (start : Nat) : Option Progress → Reader Progress
  | some p => return p
  | none => stopAt start

def pair (p : Progress) : Reader Progress := do
  let start ← left
  let path ← dottedKey
  expect '='
  skipSpaces
  let n ← value 79
  endLine
  changed start (path.getLast?.bind fun key => p.add start path.dropLast key n)

def header (p : Progress) : Reader Progress := do
  let start ← left
  expect '['
  if ← accept '[' then
    let path ← dottedKey
    expect ']'
    expect ']'
    endLine
    changed start (p.openElement start path)
  else
    let path ← dottedKey
    expect ']'
    endLine
    changed start (p.openTable start path)

def document : Reader Entries :=
  iterate (fun (p : Progress) => do
    skipSpaces
    let start ← left
    match ← peek with
    | none =>
      match p.close with
      | some es => return .inr es
      | none => stopAt start
    | some '#' => do
      endLine
      return .inl p
    | some '\n' | some '\r' => do
      endLine
      return .inl p
    | some '[' => return .inl (← header p)
    | some _ => return .inl (← pair p)) {}

def lineAfter (n : Nat) (s : List Char) : Nat := (s.take n).count '\n' + 1

def dropMark : List Char → List Char
  | '\uFEFF' :: s => s
  | s => s

/-- The mapping that a TOML text denotes, or the number of the line on which it is refused. -/
def read (text : String) : Except Nat Value :=
  let s := dropMark text.toList
  match document s >>= fun (es, _) => entriesToValues es with
  | .ok es => .ok (.mapping es)
  | .error left => .error (lineAfter (s.length - left) s)

end Manifest.Toml
