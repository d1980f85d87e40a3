import Manifest.Function.Context
import Manifest.Function.Registry

/-! Looking up packages by name, and perhaps version, in a registry of packages. -/
namespace Manifest.Builtin

/-- A text under a key of a mapping. Null and the empty text count as missing. -/
def textField (v : Value) (key : String) : Except Error (Option String) :=
  match (v.mapping?.bind fun es => Assoc.find? key es) with
  | none => .ok none
  | some .null => .ok none
  | some (.string s) => .ok (if s = "" then none else some s)
  | some other =>
    .error (.arityOrType "pypi_data" s!"'{key}' must be string, got {other.typeName}")

def packageKey (name : String) : Option String → String
  | some version => s!"pypi:{name}=={version}"
  | none => s!"pypi:{name}"

def packageSegments (name : String) (version : Option String) : List String :=
  ["pypi", name] ++ version.toList ++ ["json"]

def fetchPackage (name : String) (version : Option String) : Run Context Value := do
  let context ← get
  let url ← Run.ofExcept (context.address context.packageBase (packageSegments name version))
  let body ← Context.fetch url
  match (Json.ofText? body : Option (Json Empty)) with
  | some payload => return Value.ofJson payload
  | none => throw (.fetch url.text none "Malformed registry response")

def package (v : Value) : Run Context Value := do
  match ← Run.ofExcept (textField v "name") with
  | none => throw (.functionFailed "pypi_data" "argument must have a 'name' key")
  | some name =>
    let version ← Run.ofExcept (textField v "version")
    Context.lookup (packageKey name version) (fetchPackage name version)

def packageFunctions : List (String × Function Context) :=
  [("pypi_data", ⟨⟨[.mapping]⟩, fun args => package (args.head?.getD .null)⟩)]

end Manifest.Builtin
