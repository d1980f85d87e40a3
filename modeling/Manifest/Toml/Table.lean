import Manifest.Datetime
import Manifest.Value.Address

/-! The tables of a TOML document while it is read. A table is opened by a header, implied by the
header of a table inside it, or made by a dotted key; how it came about decides what may still be
added to it. Once all lines are read, the tables become values: a table whose first key is
`Toml.datetimeKey` is a date or time, and any other is a mapping. -/
namespace Manifest.Toml

inductive Style
  | header
  | implied
  | dotted
  deriving DecidableEq, Repr

/-- What stands under a key: a value that holds no other, an array, an inline table, a table, or an
array of tables, latest first. The number at each key is the place where the key is first written,
as the count of characters left there. -/
inductive Node
  | leaf (v : Value)
  | array (items : List Node)
  | inline (entries : List (String × Nat × Node))
  | table (style : Style) (entries : List (String × Nat × Node))
  | tables (elements : List (List (String × Nat × Node)))

abbrev Entries := List (String × Nat × Node)

/-- The key that makes a table a date or time, if it comes first; the text under it is the date or
time, and other keys count for nothing. -/
def datetimeKey : String := "$__toml_private_datetime"

/-- The date or time under `datetimeKey`. Only a text can be one. -/
def Node.datetime? : Node → Option Datetime
  | .leaf (.string s) => Datetime.ofText? s
  | _ => none

/-- The value of a table inside the document, given what its entries make as a mapping. A bad date
or time is reported at its key. -/
def Entries.toValue (es : Entries) (entries : Except Nat (List (String × Value))) :
    Except Nat Value :=
  match es with
  | (k, place, n) :: _ =>
    if k = datetimeKey then
      match n.datetime? with
      | some d => .ok (.datetime d)
      | none => .error place
    else entries.map .mapping
  | [] => entries.map .mapping

mutual

def Node.toValue : Node → Except Nat Value
  | .leaf v => .ok v
  | .array items => (nodesToValues items).map .sequence
  | .inline es => Entries.toValue es (entriesToValues es)
  | .table _ es => Entries.toValue es (entriesToValues es)
  | .tables elements => (tablesToValues elements).map fun vs => .sequence vs.reverse

def nodesToValues : List Node → Except Nat (List Value)
  | [] => .ok []
  | n :: ns => do
    let v ← n.toValue
    return v :: (← nodesToValues ns)

def entriesToValues : List (String × Nat × Node) → Except Nat (List (String × Value))
  | [] => .ok []
  | (k, _, n) :: es => do
    let v ← n.toValue
    return (k, v) :: (← entriesToValues es)

/-- The latest table comes first in the list and last in the document. -/
def tablesToValues : List (List (String × Nat × Node)) → Except Nat (List Value)
  | [] => .ok []
  | t :: ts => do
    let vs ← tablesToValues ts
    return (← Entries.toValue t (entriesToValues t)) :: vs

end

/-- Goes down a path of keys and changes the table at its end, making the tables that are missing on
the way. Of an array of tables the latest is meant. A value is no table, and a dotted key may not
reach into a table that a header opened. -/
def descend {α : Type} (place : Nat) (dotted : Bool)
    (change : Style → Entries → Option (Entries × α)) :
    Keys → Style → Entries → Option (Entries × α)
  | [], style, es => change style es
  | k :: ks, _, es =>
    match Assoc.find? k es with
    | none =>
      let style : Style := if dotted then .dotted else .implied
      (descend place dotted change ks style []).map fun (inner, a) =>
        (Assoc.put k (place, .table style inner) es, a)
    | some (first, .tables (t :: ts)) =>
      (descend place dotted change ks .header t).map fun (inner, a) =>
        (Assoc.put k (first, .tables (inner :: ts)) es, a)
    | some (first, .table style inner) =>
      if dotted ∧ style = .header then none
      else
        (descend place dotted change ks style inner).map fun (inner, a) =>
          (Assoc.put k (first, .table style inner) es, a)
    | some _ => none

/-- Adds a value under a dotted key. The tables on the way must be made by dotted keys, and the key
must be new. -/
def Entries.add (es : Entries) (place : Nat) (path : Keys) (key : String) (n : Node) :
    Option Entries :=
  let change (style : Style) (es : Entries) : Option (Entries × Unit) :=
    if decide (style = .dotted) = path.isEmpty then none
    else if Assoc.contains key es then none
    else some (Assoc.put key (place, n) es, ())
  (descend place true change path .header es).map Prod.fst

/-- A document in reading: the finished part, and the table under the latest header, which joins it
when the next header comes. -/
structure Progress where
  root : Entries := []
  place : Nat := 0
  path : Keys := []
  isElement : Bool := false
  current : Entries := []

namespace Progress

def close (p : Progress) : Option Entries :=
  match p.path.getLast? with
  | none => some p.current
  | some key =>
    let change (_ : Style) (es : Entries) : Option (Entries × Unit) :=
      if p.isElement then
        match Assoc.find? key es with
        | some (first, .tables ts) => some (Assoc.put key (first, .tables (p.current :: ts)) es, ())
        | _ => none
      else some (Assoc.put key (p.place, .table .header p.current) es, ())
    (descend p.place false change p.path.dropLast .header p.root).map Prod.fst

/-- A header in single brackets. The table must be new or have been implied so far; in the second
case it moves to the end of its parent, with what it holds. -/
def openTable (p : Progress) (place : Nat) (path : Keys) : Option Progress := do
  let root ← p.close
  let key ← path.getLast?
  let change (_ : Style) (es : Entries) : Option (Entries × Entries) :=
    match Assoc.find? key es with
    | none => some (es, [])
    | some (_, .table .implied inner) => some (Assoc.erase key es, inner)
    | some _ => none
  let (root, current) ← descend place false change path.dropLast .header root
  return { root, place, path, isElement := false, current }

/-- A header in double brackets: one more element of an array of tables. -/
def openElement (p : Progress) (place : Nat) (path : Keys) : Option Progress := do
  let root ← p.close
  let key ← path.getLast?
  let change (_ : Style) (es : Entries) : Option (Entries × Unit) :=
    match Assoc.find? key es with
    | none => some (Assoc.put key (place, .tables []) es, ())
    | some (_, .tables _) => some (es, ())
    | some _ => none
  let (root, _) ← descend place false change path.dropLast .header root
  return { root, place, path, isElement := true, current := [] }

def add (p : Progress) (place : Nat) (path : Keys) (key : String) (n : Node) : Option Progress :=
  (p.current.add place path key n).map fun current => { p with current }

end Progress
end Manifest.Toml
