import Manifest.Function.Registry
import Manifest.Text.Blank
import Manifest.Version

/-! Functions on semantic versions: the greatest and least of several, and their numbers. -/
namespace Manifest.Builtin

def versionOf (name : String) (v : Value) : Except Error Version :=
  match v with
  | .string s =>
    match Version.read (Text.trim s) with
    | .ok version => .ok version
    | .error fault =>
      .error (.functionFailed name s!"'{s}' is not a semantic version: {fault.message}")
  | v => .error (.arityOrType name s!"expected a version string, got {v.typeName}")

def versionsOf (name : String) (v : Value) : Except Error (List Version) :=
  (v.sequence?.getD []).mapM (versionOf name)

def pickVersion (name : String) (pick : List Version → Option Version) (v : Value) :
    Except Error Value := do
  let versions ← if v.isString then (versionOf name v).map ([·]) else versionsOf name v
  match pick versions with
  | some version => .ok (.string version.text)
  | none => .error (.functionFailed name "cannot pick from an empty list")

inductive Component
  | major
  | minor
  | patch
  deriving DecidableEq, Repr

def Component.of : Component → Version → Nat
  | .major, v => v.major
  | .minor, v => v.minor
  | .patch, v => v.patch

def Component.value (c : Component) (v : Version) : Value :=
  .string (String.ofList (Nat.toDigits 10 (c.of v)))

def component (name : String) (c : Component) (v : Value) : Except Error Value :=
  (versionOf name v).map c.value

def components (name : String) (c : Component) (v : Value) : Except Error Value :=
  (versionsOf name v).map fun versions => .sequence (versions.map c.value)

def unary {σ : Type} (type : ArgType) (f : Value → Except Error Value) : Function σ :=
  ⟨⟨[type]⟩, fun args => Run.ofExcept (f (args.head?.getD .null))⟩

def versionFunctions {σ : Type} : List (String × Function σ) :=
  let listOrText : ArgType := .oneOf [.list, .string]
  [("semver_max", unary listOrText (pickVersion "semver_max" Version.greatest?)),
    ("semver_min", unary listOrText (pickVersion "semver_min" Version.least?)),
    ("semver_major", unary .string (component "semver_major" .major)),
    ("semver_major_list", unary .list (components "semver_major_list" .major)),
    ("semver_minor", unary .string (component "semver_minor" .minor)),
    ("semver_minor_list", unary .list (components "semver_minor_list" .minor)),
    ("semver_patch", unary .string (component "semver_patch" .patch)),
    ("semver_patch_list", unary .list (components "semver_patch_list" .patch))]

end Manifest.Builtin
