import Manifest.Datetime
import Manifest.Json.Text
import Manifest.Json.Reader

/-! Values of a document: scalars, sequences, and mappings from text keys in a fixed order; their
JSON form, and the way back. -/
namespace Manifest

inductive Value
  | null
  | bool (b : Bool)
  | int (n : Int64)
  | float (x : Float)
  | string (s : String)
  | datetime (d : Datetime)
  | sequence (items : List Value)
  | mapping (entries : List (String × Value))
  deriving Inhabited

namespace Value

variable {ρ : Type}

def typeName : Value → String
  | .null => "null"
  | .bool _ => "boolean"
  | .int _ => "integer"
  | .float _ => "float"
  | .string _ => "string"
  | .datetime _ => "datetime"
  | .sequence _ => "sequence"
  | .mapping _ => "mapping"

def isNull : Value → Bool
  | .null => true
  | _ => false

def isString : Value → Bool
  | .string _ => true
  | _ => false

def isContainer : Value → Bool
  | .sequence _ => true
  | .mapping _ => true
  | _ => false

def bool? : Value → Option Bool
  | .bool b => some b
  | _ => none

def int? : Value → Option Int64
  | .int n => some n
  | _ => none

def nearestFloat (n : Int) : Float :=
  if n < 0 then -(Decimal.nearest n.natAbs 0) else Decimal.nearest n.natAbs 0

/-- A number as a double; an integer as the nearest one. -/
def float? : Value → Option Float
  | .float x => some x
  | .int n => some (nearestFloat n.toInt)
  | _ => none

def string? : Value → Option String
  | .string s => some s
  | _ => none

def sequence? : Value → Option (List Value)
  | .sequence items => some items
  | _ => none

def mapping? : Value → Option (List (String × Value))
  | .mapping entries => some entries
  | _ => none

mutual

/-- No mapping inside repeats a key. -/
def Distinct : Value → Prop
  | .sequence items => DistinctItems items
  | .mapping entries => (entries.map Prod.fst).Nodup ∧ DistinctEntries entries
  | _ => True

def DistinctItems : List Value → Prop
  | [] => True
  | v :: vs => Distinct v ∧ DistinctItems vs

def DistinctEntries : List (String × Value) → Prop
  | [] => True
  | (_, v) :: es => Distinct v ∧ DistinctEntries es

end

mutual

/-- The value with each key of a mapping kept once: at its first place, with its last value. -/
def distinct : Value → Value
  | .sequence items => .sequence (distinctItems items)
  | .mapping entries => .mapping (Assoc.ofEntries (distinctEntries entries))
  | .null => .null
  | .bool b => .bool b
  | .int n => .int n
  | .float x => .float x
  | .string s => .string s
  | .datetime d => .datetime d

def distinctItems : List Value → List Value
  | [] => []
  | v :: vs => distinct v :: distinctItems vs

def distinctEntries : List (String × Value) → List (String × Value)
  | [] => []
  | (k, v) :: es => (k, distinct v) :: distinctEntries es

end

theorem distinctEntries_iff (es : List (String × Value)) :
    DistinctEntries es ↔ ∀ e ∈ es, Distinct e.2 := by
  induction es with
  | nil => simp [DistinctEntries]
  | cons e es ih => simp [DistinctEntries, ih]

mutual

theorem distinct_distinct (v : Value) : Distinct (distinct v) := by
  match v with
  | .sequence items => exact distinct_distinctItems items
  | .mapping entries =>
    refine ⟨Assoc.nodup_ofEntries _, (distinctEntries_iff _).mpr fun e he => ?_⟩
    exact distinct_distinctEntries entries e (Assoc.mem_of_mem_ofEntries he)
  | .null | .bool _ | .int _ | .float _ | .string _ | .datetime _ => trivial

theorem distinct_distinctItems (vs : List Value) : DistinctItems (distinctItems vs) := by
  match vs with
  | [] => trivial
  | v :: vs => exact ⟨distinct_distinct v, distinct_distinctItems vs⟩

theorem distinct_distinctEntries (es : List (String × Value)) :
    ∀ e ∈ distinctEntries es, Distinct e.2 := by
  match es with
  | [] => simp [distinctEntries]
  | (k, v) :: es =>
    intro e he
    simp only [distinctEntries, List.mem_cons] at he
    rcases he with rfl | he
    · exact distinct_distinct v
    · exact distinct_distinctEntries es e he

end

mutual

/-- Equality of values: mappings regardless of order, doubles as numbers, so that a value with a NaN
inside differs from itself. -/
def same : Value → Value → Bool
  | .null, .null => true
  | .bool a, .bool b => a == b
  | .int a, .int b => a == b
  | .float a, .float b => a == b
  | .string a, .string b => a == b
  | .datetime a, .datetime b => a == b
  | .sequence a, .sequence b => sameItems a b
  | .mapping a, .mapping b => a.length == b.length && sameEntries a b
  | _, _ => false

def sameItems : List Value → List Value → Bool
  | [], [] => true
  | v :: vs, w :: ws => same v w && sameItems vs ws
  | _, _ => false

def sameEntries : List (String × Value) → List (String × Value) → Bool
  | [], _ => true
  | (k, v) :: es, other =>
    (match Assoc.find? k other with
      | some w => same v w
      | none => false) && sameEntries es other

end

mutual

/-- The JSON form, mappings in their own order: a datetime as its text, a double that is no number
as null. -/
def toJson : Value → Json ρ
  | .null => .null
  | .bool b => .bool b
  | .int n => .int n.toInt
  | .float x => if Decimal.isFinite x then .float x else .null
  | .string s => .string s
  | .datetime d => .string d.text
  | .sequence items => .array (toJsonItems items)
  | .mapping entries => .object (toJsonEntries entries)

def toJsonItems : List Value → List (Json ρ)
  | [] => []
  | v :: vs => toJson v :: toJsonItems vs

def toJsonEntries : List (String × Value) → List (String × Json ρ)
  | [] => []
  | (k, v) :: es => (k, toJson v) :: toJsonEntries es

end

/-- The JSON form as queries see it: members in key order. -/
def toSortedJson (v : Value) : Json ρ := (toJson v).sorted

/-- An integer that fits 64 bits as itself, a larger one as the nearest double, and null if that is
infinite. -/
def ofInteger (n : Int) : Value :=
  if -0x8000000000000000 ≤ n ∧ n < 0x8000000000000000 then .int (Int64.ofInt n)
  else if Decimal.isFinite (nearestFloat n) then .float (nearestFloat n)
  else .null

mutual

/-- The value of a JSON form. A double that is no number becomes null, and members are put in key
order, so that the result is its own normal form. -/
def ofJson : Json ρ → Value
  | .null => .null
  | .bool b => .bool b
  | .int n => ofInteger n
  | .float x => if Decimal.isFinite x then .float x else .null
  | .string s => .string s
  | .array items => .sequence (ofJsonItems items)
  | .object members => .mapping (Assoc.sorted (ofJsonMembers members))
  | .reference _ => .null

def ofJsonItems : List (Json ρ) → List Value
  | [] => []
  | x :: xs => ofJson x :: ofJsonItems xs

def ofJsonMembers : List (String × Json ρ) → List (String × Value)
  | [] => []
  | (k, x) :: ms => (k, ofJson x) :: ofJsonMembers ms

end

mutual

/-- The normal form: datetimes as text, doubles that are no numbers as null, mappings in key
order. -/
def norm : Value → Value
  | .null => .null
  | .bool b => .bool b
  | .int n => .int n
  | .float x => if Decimal.isFinite x then .float x else .null
  | .string s => .string s
  | .datetime d => .string d.text
  | .sequence items => .sequence (normItems items)
  | .mapping entries => .mapping (Assoc.sorted (normEntries entries))

def normItems : List Value → List Value
  | [] => []
  | v :: vs => norm v :: normItems vs

def normEntries : List (String × Value) → List (String × Value)
  | [] => []
  | (k, v) :: es => (k, norm v) :: normEntries es

end

def json (v : Value) : String := (toJson v : Json Empty).compact

def jsonLines (v : Value) : String := (toJson v : Json Empty).pretty

/-- The text that stands for the value inside a string: strings and datetimes bare, all else as
JSON. -/
def render : Value → String
  | .string s => s
  | .datetime d => d.text
  | v => v.json

@[simp] theorem render_string (s : String) : render (.string s) = s := rfl
@[simp] theorem render_datetime (d : Datetime) : render (.datetime d) = d.text := rfl

end Value
end Manifest
