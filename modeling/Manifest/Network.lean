import Manifest.Assoc
import Manifest.Run
import Manifest.Url

/-! Where requests go: servers known by a table of answers or by a script of what requests meet, or
a network that cannot be reached. -/
namespace Manifest

/-- A final response: redirects have been followed, and a body that is too long is no answer. -/
structure Response where
  status : Nat
  body : String
  deriving DecidableEq, Repr

/-- A table gives for each target the responses to come, the last of which repeats; a target it does
not list is answered with status 404. A script gives what one request after another meets, a
response or no answer at all; behind its end the status is 404. -/
inductive Network
  | table (routes : List (String × List Response))
  | script (outcomes : List (Except String Response))
  | unreachable (cause : String)
  deriving Repr

namespace Network

def respond (n : Network) (target : String) : Except String Response × Network :=
  match n with
  | .unreachable cause => (.error cause, n)
  | .script [] => (.ok ⟨404, ""⟩, n)
  | .script (outcome :: outcomes) => (outcome, .script outcomes)
  | .table routes =>
    match Assoc.find? target routes with
    | none => (.ok ⟨404, ""⟩, n)
    | some [] => (.ok ⟨404, ""⟩, n)
    | some [r] => (.ok r, n)
    | some (r :: rs) => (.ok r, .table (Assoc.put target rs routes))

@[simp] theorem respond_unreachable (cause target : String) :
    respond (.unreachable cause) target = (.error cause, .unreachable cause) := rfl

def isFailure (status : Nat) : Bool := 400 ≤ status && status ≤ 599

/-- The body that an address gives; anything but success is an error about the address. -/
def bodyOf (url : String) : Except String Response → Except Error String
  | .error cause => .error (.fetch url none cause)
  | .ok r =>
    if isFailure r.status then .error (.fetch url (some r.status) s!"HTTP {r.status}")
    else .ok r.body

end Network
end Manifest
