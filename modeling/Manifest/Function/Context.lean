import Manifest.Environment
import Manifest.Network
import Manifest.Value

/-! What functions share during a run: the environment, the network, what has been looked up so far,
and the state that functions keep for themselves between calls. -/
namespace Manifest

structure Context where
  environment : Environment
  licenseBase : String :=
    "https://raw.githubusercontent.com/spdx/license-list-data/main/json/details"
  packageBase : String := "https://pypi.org"
  naming : Url.Host.Naming := fun _ => none
  network : Network
  /-- Targets asked for, latest first. -/
  requests : List String := []
  /-- Values looked up, by key. -/
  remembered : List (String × Value) := []
  /-- The counts that registered functions keep between their calls, as closures with a counter do,
  each under its own name. -/
  counters : List (String × Nat) := []

namespace Context

variable {σ : Type}

/-- Looks a value up under a key, once: a value found is remembered, a failure is not. -/
def lookup (key : String) (fetch : Run Context Value) : Run Context Value :=
  Run.ofStep fun c =>
    match Assoc.find? key c.remembered with
    | some v => (.ok v, c)
    | none =>
      match Run.exec fetch c with
      | (.ok v, d) => (.ok v, { d with remembered := Assoc.put key v d.remembered })
      | (.error e, d) => (.error e, d)

theorem exec_lookup_remembered {key : String} {v : Value} {c : Context}
    (h : Assoc.find? key c.remembered = some v) (fetch : Run Context Value) :
    Run.exec (lookup key fetch) c = (.ok v, c) := by
  simp [lookup, h]

theorem exec_lookup_new {key : String} {c : Context} (h : Assoc.find? key c.remembered = none)
    (fetch : Run Context Value) :
    Run.exec (lookup key fetch) c =
      match Run.exec fetch c with
      | (.ok v, d) => (.ok v, { d with remembered := Assoc.put key v d.remembered })
      | (.error e, d) => (.error e, d) := by
  simp [lookup, h]

def fetch (url : Url) : Run Context String :=
  Run.ofStep fun c =>
    let (response, network) := c.network.respond url.target
    let requests := match c.network with
      | .table _ | .script _ => url.target :: c.requests
      | .unreachable _ => c.requests
    (Network.bodyOf url.text response, { c with network, requests })

/-- One more call of a function that counts its calls. Nothing that is looked up depends on it. -/
def count (name : String) : Run Context Nat :=
  Run.ofStep fun c =>
    let n := (Assoc.find? name c.counters).getD 0 + 1
    (.ok n, { c with counters := Assoc.put name n c.counters })

def address (c : Context) (base : String) (segments : List String) : Except Error Url :=
  match Url.read c.naming base with
  | .ok u => .ok (u.join segments)
  | .error fault => .error (.fetch base none fault.message)

end Context
end Manifest
