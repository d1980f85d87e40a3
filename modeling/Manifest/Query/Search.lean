import Manifest.Query.Datum
import Manifest.Query.Token
import Manifest.Run
import Manifest.Text.Offset

/-! What can stop a search for the value of a query, and searches themselves, which change a state
that outlives a failure. -/
namespace Manifest.Query

/-- Why a search stops. Calls that are refused are known by the offset of their parenthesis. -/
inductive Failure
  | unknownFunction (name : String)
  | tooFew (offset expected found : Nat)
  | tooMany (offset expected found : Nat)
  | wrongType (offset position : Nat) (expected found : String)
  | invalidSlice
  | wrongKey (expected : String) (invocation : Nat) (found : String)
  | parse (message : String)
  | tooDeep
  deriving Repr

/-- The name in front of an offset in a text: what follows the last character that is no letter,
digit, underscore or opening parenthesis, without parentheses at its end. -/
def nameBefore (text : String) (offset : Nat) : String :=
  let head := (Text.takeOctets text.toList offset).getD []
  let tail := head.reverse.takeWhile fun c => Token.isNameChar c || c == '('
  String.ofList (tail.dropWhile (· == '(')).reverse

def Failure.error (query : String) : Failure → Error
  | .unknownFunction name => .unknownFunction name
  | .tooFew offset expected found =>
    .arityOrType (nameBefore query offset)
      s!"Not enough arguments: expected {expected}, found {found}"
  | .tooMany offset expected found =>
    .arityOrType (nameBefore query offset)
      s!"Too many arguments: expected {expected}, found {found}"
  | .wrongType offset position expected found =>
    .arityOrType (nameBefore query offset)
      s!"Argument {position} expects type {expected}, given {found}"
  | .invalidSlice => .queryEval "Invalid slice"
  | .wrongKey expected invocation found =>
    .queryEval s!"Argument 1 must return {expected} but invocation {invocation} returned {found}"
  | .parse message => .queryParse query message
  | .tooDeep => .queryEval "Expressions are nested too deep"

/-- What a search changes: the state that functions share, and a slot for the error that a
registered function raised. A search itself fails only in ways of its own. -/
structure Slotted (σ : Type) where
  world : σ
  slot : Option Error := none

abbrev Search (σ : Type) := RunWith Failure (Slotted σ)

namespace Search

variable {σ α : Type}

/-- A run as part of a search. Its error goes to the slot; the search stops for a reason that only
tells the error's message. -/
def ofRun (x : Run σ α) : Search σ α :=
  Run.ofStep fun s =>
    match Run.exec x s.world with
    | (.ok a, world) => (.ok a, { s with world })
    | (.error e, world) => (.error (.parse e.message), ⟨world, some e⟩)

/-- A search as a run on its own. An error in the slot is what it fails with, whatever it stopped
for. -/
def toRun (query : String) (x : Search σ α) : Run σ α :=
  Run.ofStep fun world =>
    match Run.exec x { world } with
    | (.ok a, s) => (.ok a, s.world)
    | (.error failure, s) => (.error (s.slot.getD (failure.error query)), s.world)

theorem exec_ofRun (x : Run σ α) (s : Slotted σ) :
    Run.exec (ofRun x) s =
      match Run.exec x s.world with
      | (.ok a, world) => (.ok a, { s with world })
      | (.error e, world) => (.error (.parse e.message), ⟨world, some e⟩) := rfl

theorem exec_toRun (query : String) (x : Search σ α) (world : σ) :
    Run.exec (toRun query x) world =
      match Run.exec x { world } with
      | (.ok a, s) => (.ok a, s.world)
      | (.error failure, s) => (.error (s.slot.getD (failure.error query)), s.world) := rfl

end Search
end Manifest.Query
