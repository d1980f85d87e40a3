/-! What can go wrong, and how it is told. -/
namespace Manifest

inductive ErrorKind
  | parse
  | queryParse (query : String)
  | pathNotFound
  | circularReference (chain : List String)
  | unknownFunction (name : String)
  | arityOrType (name : String)
  | fetch (url : String) (status : Option Nat)
  | queryEval
  | alreadyRegistered (name : String)
  | io
  deriving DecidableEq, Repr

def ErrorKind.message : ErrorKind → String
  | .parse => "Parse error"
  | .queryParse query => s!"Query parse error: {query}"
  | .pathNotFound => "Path not found"
  | .circularReference _ => "Circular reference detected"
  | .unknownFunction name => s!"Unknown function: {name}"
  | .arityOrType name => s!"Invalid arguments for function '{name}'"
  | .fetch url status =>
    s!"Upstream request failed: {url}" ++
      (match status with
        | some n => s!" (status {n})"
        | none => "")
  | .queryEval => "Query evaluation failed"
  | .alreadyRegistered name => s!"Function '{name}' is already registered"
  | .io => "I/O error"

structure Location where
  file : String
  line : Option Nat
  deriving DecidableEq, Repr

structure Error where
  kind : ErrorKind
  path : Option String := none
  location : Option Location := none
  cause : Option String := none
  help : Option String := none
  deriving DecidableEq, Repr

namespace Error

/-- The kind, then a line each for path, place, cause and help, as far as they are known. -/
def message (e : Error) : String :=
  let place (l : Location) : String :=
    match l.line with
    | some n => s!"\n  File: {l.file}:{n}"
    | none => s!"\n  File: {l.file}"
  e.kind.message ++
    (e.path.map (s!"\n  Path: {·}")).getD "" ++
    (e.location.map place).getD "" ++
    (e.cause.map (s!"\n  {·}")).getD "" ++
    (e.help.map (s!"\n  Help: {·}")).getD ""

def parse (cause : String) : Error := { kind := .parse, cause := some cause }

def queryParse (query cause : String) : Error :=
  { kind := .queryParse query, cause := some cause,
    help := some "Check the query against the JMESPath grammar" }

def pathNotFound (path : String) : Error :=
  { kind := .pathNotFound, path := some path,
    help := some s!"Check that '{path}' exists in the document" }

/-- `chain` lists the paths in progress, outermost first, and the one that closes the circle. -/
def circularReference (path : String) (chain : List String) : Error :=
  { kind := .circularReference chain, path := some path,
    cause := some ("Chain: " ++ String.intercalate " → " chain),
    help := some "Break the circular dependency by removing one of the references" }

def unknownFunction (name : String) : Error :=
  { kind := .unknownFunction name,
    help := some s!"Register the '{name}' function or check for typos" }

def arityOrType (name cause : String) : Error := { kind := .arityOrType name, cause := some cause }

def alreadyRegistered (name : String) : Error :=
  { kind := .alreadyRegistered name,
    help := some s!"Use register_with_force(..., true) to override the '{name}' function" }

def fetch (url : String) (status : Option Nat) (cause : String) : Error :=
  { kind := .fetch url status, cause := some cause,
    help := some s!"Check that '{url}' is reachable and returns the expected payload" }

def queryEval (cause : String) : Error := { kind := .queryEval, cause := some cause }

/-- A function refused an argument of the right type. -/
def functionFailed (name cause : String) : Error :=
  { kind := .queryEval, cause := some s!"{name}: {cause}",
    help := some s!"Check the input passed to '{name}'" }

def io (file cause : String) : Error :=
  { kind := .io, cause := some s!"Failed to read '{file}': {cause}" }

def orAt (e : Error) (path : String) : Error := { e with path := some (e.path.getD path) }

@[simp] theorem orAt_kind (e : Error) (path : String) : (e.orAt path).kind = e.kind := rfl
@[simp] theorem orAt_cause (e : Error) (path : String) : (e.orAt path).cause = e.cause := rfl
@[simp] theorem orAt_help (e : Error) (path : String) : (e.orAt path).help = e.help := rfl

def chain? (e : Error) : Option (List String) :=
  match e.kind with
  | .circularReference chain => some chain
  | _ => none

end Error
end Manifest
