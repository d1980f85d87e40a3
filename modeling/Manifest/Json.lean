import Manifest.Assoc

/-! JSON values. Numbers are integers or doubles; objects are lists of members in some order, and
`Json.sorted` puts them into the order of their keys. Inside a query a value may also be a reference
to an expression, of a type `ρ` that everything here leaves open. -/
namespace Manifest

inductive Json (ρ : Type)
  | null
  | bool (b : Bool)
  | int (n : Int)
  | float (x : Float)
  | string (s : String)
  | array (items : List (Json ρ))
  | object (members : List (String × Json ρ))
  | reference (r : ρ)
  deriving Inhabited

namespace Json

variable {ρ σ : Type}

mutual

/-- Every object's members in ascending order of their keys; of members with one key the last. -/
def sorted : Json ρ → Json ρ
  | .null => .null
  | .bool b => .bool b
  | .int n => .int n
  | .float x => .float x
  | .string s => .string s
  | .array items => .array (sortedItems items)
  | .object members => .object (Assoc.sorted (sortedMembers members))
  | .reference r => .reference r

def sortedItems : List (Json ρ) → List (Json ρ)
  | [] => []
  | x :: xs => sorted x :: sortedItems xs

def sortedMembers : List (String × Json ρ) → List (String × Json ρ)
  | [] => []
  | (k, x) :: ms => (k, sorted x) :: sortedMembers ms

end

theorem sortedItems_eq_map (items : List (Json ρ)) : sortedItems items = items.map sorted := by
  induction items with
  | nil => rfl
  | cons x xs ih => simp [sortedItems, ih]

theorem sortedMembers_eq_map (members : List (String × Json ρ)) :
    sortedMembers members = members.map fun m => (m.1, sorted m.2) := by
  induction members with
  | nil => rfl
  | cons m ms ih => simp [sortedMembers, ih]

mutual

def embed : Json Empty → Json σ
  | .null => .null
  | .bool b => .bool b
  | .int n => .int n
  | .float x => .float x
  | .string s => .string s
  | .array items => .array (embedItems items)
  | .object members => .object (embedMembers members)

def embedItems : List (Json Empty) → List (Json σ)
  | [] => []
  | x :: xs => embed x :: embedItems xs

def embedMembers : List (String × Json Empty) → List (String × Json σ)
  | [] => []
  | (k, x) :: ms => (k, embed x) :: embedMembers ms

end

end Json
end Manifest
