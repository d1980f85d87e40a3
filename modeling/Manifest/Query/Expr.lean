import Manifest.Json

/-! Queries: expressions that take a value and give a value. -/
namespace Manifest.Query

inductive Relation
  | eq
  | ne
  | lt
  | le
  | gt
  | ge
  deriving DecidableEq, Repr

/-- An expression. A projection `project l r` takes each item of what `l` gives through `r`;
`select` keeps a value only under a condition. Calls and references carry the octet offset at which
they stand in the text of the query. -/
inductive Expr
  | current
  | field (name : String)
  | literal (value : Json Empty)
  | index (position : Int)
  | slice (start stop : Option Int) (step : Int)
  | pipe (left right : Expr)
  | or (left right : Expr)
  | and (left right : Expr)
  | not (operand : Expr)
  | compare (relation : Relation) (left right : Expr)
  | select (condition body : Expr)
  | values (operand : Expr)
  | flatten (operand : Expr)
  | project (left right : Expr)
  | list (items : List Expr)
  | hash (pairs : List (String × Expr))
  | call (offset : Nat) (name : String) (args : List Expr)
  | reference (offset : Nat) (body : Expr)
  deriving Inhabited

/-- An expression handed to a function, known by where it stands in the query. -/
structure Reference where
  offset : Nat
  body : Expr
  deriving Inhabited

/-- A value during evaluation: JSON whose objects are in key order, or a reference. -/
abbrev Datum := Json Reference

end Manifest.Query
