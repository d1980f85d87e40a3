import Manifest.Function.Signature
import Manifest.Run

/-! Named functions, and calling them. The latest function registered under a name is the one that
counts. -/
namespace Manifest

structure Function (σ : Type) where
  signature : Signature
  body : List Value → Run σ Value

/-- Functions in ascending order of their names. -/
structure Registry (σ : Type) where
  entries : List (String × Function σ)

namespace Registry

variable {σ : Type}

def empty : Registry σ := ⟨[]⟩

instance : Inhabited (Registry σ) := ⟨empty⟩

def register (r : Registry σ) (name : String) (f : Function σ) : Registry σ :=
  ⟨Assoc.insert name f r.entries⟩

def get? (r : Registry σ) (name : String) : Option (Function σ) := Assoc.find? name r.entries

def contains (r : Registry σ) (name : String) : Bool := (r.get? name).isSome

def names (r : Registry σ) : List String := r.entries.map Prod.fst

def size (r : Registry σ) : Nat := r.entries.length

/-- Registers a function, which takes the place of another of its name only when forced to. -/
def registerUnlessTaken (r : Registry σ) (name : String) (f : Function σ) (force : Bool) :
    Except Error (Registry σ) :=
  if !force && r.contains name then .error (.alreadyRegistered name) else .ok (r.register name f)

def call (r : Registry σ) (name : String) (args : List Value) : Run σ Value :=
  match r.get? name with
  | none => throw (.unknownFunction name)
  | some f =>
    match f.signature.check name args with
    | .error e => throw e
    | .ok () => f.body args

@[simp] theorem get?_empty (name : String) : (empty : Registry σ).get? name = none := rfl
@[simp] theorem names_empty : (empty : Registry σ).names = [] := rfl

end Registry
end Manifest
