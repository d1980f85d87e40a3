import Manifest.Function.Registry
import Manifest.Query.Eval
import Manifest.Query.Expr.Reader
import Manifest.Query.Standard
import Manifest.Text.Blank

/-! Evaluating queries on values with the functions of a registry and those that every query has. A
registered function takes the place of another of its name. -/
namespace Manifest.Query

variable {σ : Type}

/-- How deep expressions passed to functions may be applied inside one another. One that is applied
to itself may go on without end; the limit stands in for the stack that it exhausts. -/
def depthLimit : Nat := 1000

/-- Calls a function. A registered one gets its arguments as values of a document. -/
def call (registry : Registry σ) (apply : Reference → Datum → Search σ Datum) (offset : Nat)
    (name : String) (args : List Datum) : Search σ Datum :=
  if registry.contains name then do
    let v ← Search.ofRun (registry.call name (args.map Value.ofJson))
    return v.toSortedJson
  else
    match Assoc.find? name (Standard.functions apply) with
    | none => throw (.unknownFunction name)
    | some f => f.call offset args

def apply (registry : Registry σ) : Nat → Reference → Datum → Search σ Datum
  | 0, _, _ => throw .tooDeep
  | depth + 1, r, x => r.body.eval (call registry (apply registry depth)) x

def search (registry : Registry σ) (e : Expr) (v : Value) : Search σ Value := do
  let result ← e.eval (call registry (apply registry depthLimit)) v.toSortedJson
  return Value.ofJson result

/-- The value of a query on a value. What is malformed in a text that is no query is left out of the
error. -/
def evaluate (registry : Registry σ) (v : Value) (query : String) : Run σ Value :=
  if Text.trim query = "" then throw (.queryParse query "query is empty")
  else
    match Expr.ofText? query with
    | none => throw { Error.queryParse query "" with cause := none }
    | some e => Search.toRun query (search registry e v)

end Manifest.Query
