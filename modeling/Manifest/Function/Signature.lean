import Manifest.Error
import Manifest.Value

/-! The types that parameters of functions accept, and checking arguments against them. -/
namespace Manifest

inductive ArgType
  | any
  | string
  | number
  | list
  | mapping
  | oneOf (types : List ArgType)
  deriving Repr, Inhabited

namespace ArgType

mutual

def accepts : ArgType → Value → Bool
  | .any, _ => true
  | .string, .string _ => true
  | .number, .int _ => true
  | .number, .float _ => true
  | .list, .sequence _ => true
  | .mapping, .mapping _ => true
  | .oneOf types, v => acceptsOne types v
  | _, _ => false

def acceptsOne : List ArgType → Value → Bool
  | [], _ => false
  | t :: ts, v => accepts t v || acceptsOne ts v

end

mutual

/-- The name of a type; alternatives stand in a row. -/
def name : ArgType → String
  | .any => "any"
  | .string => "string"
  | .number => "number"
  | .list => "list"
  | .mapping => "mapping"
  | .oneOf types => String.intercalate " | " (names types)

def names : List ArgType → List String
  | [] => []
  | t :: ts => name t :: names ts

end

end ArgType

structure Signature where
  params : List ArgType
  deriving Repr

namespace Signature

/-- The first argument that its parameter does not accept, with its position from 1. -/
def mismatch? (position : Nat) : List ArgType → List Value → Option (Nat × ArgType × Value)
  | t :: ts, v :: vs => if t.accepts v then mismatch? (position + 1) ts vs
    else some (position, t, v)
  | _, _ => none

def check (s : Signature) (name : String) (args : List Value) : Except Error Unit :=
  if args.length ≠ s.params.length then
    .error (.arityOrType name s!"expected {s.params.length} argument(s), got {args.length}")
  else
    match mismatch? 1 s.params args with
    | some (position, t, v) =>
      .error (.arityOrType name s!"argument {position} must be {t.name}, got {v.typeName}")
    | none => .ok ()

end Signature
end Manifest
