import Manifest.Query
import Manifest.Resolver

/-! Projects: a document with the functions that its queries can call, read path by path. What has
been read is kept until it is cleared. -/
namespace Manifest

structure Project (σ : Type) where
  document : Document
  registry : Registry σ
  home : Option String := none
  /-- The file that the document was read from. -/
  source : Option String := none

/-- What a project has read so far, by absolute path, and the state that its functions share. -/
structure Session (σ : Type) where
  cache : List (String × Value) := []
  world : σ

namespace Project

variable {σ : Type}

def resolver (p : Project σ) : Resolver σ where
  document := p.document
  home := p.home.filter (· ≠ "")
  evaluate := Query.evaluate p.registry

def expand (p : Project σ) (path : String) : String := Path.expand p.home path

def getRaw (p : Project σ) (path : String) : Except Error Value := p.document.get (p.expand path)

/-- The node at a path as a resolver of its own resolves it, apart from all that is kept. -/
def resolveFresh (p : Project σ) (path : String) : Run (Session σ) Value :=
  Run.onPart Session.world (fun world s => { s with world }) (p.resolver.resolveOnce path)

/-- The resolved node at a path. Successes are kept. -/
def get (p : Project σ) (path : String) : Run (Session σ) Value :=
  Run.ofStep fun s =>
    let key := p.expand path
    match Assoc.find? key s.cache with
    | some v => (.ok v, s)
    | none =>
      match Run.exec (p.resolveFresh key) s with
      | (.ok v, t) => (.ok v, { t with cache := Assoc.put key v t.cache })
      | (.error e, t) => (.error e, t)

theorem exec_get_cached {p : Project σ} {path : String} {v : Value} {s : Session σ}
    (h : Assoc.find? (p.expand path) s.cache = some v) : Run.exec (p.get path) s = (.ok v, s) := by
  simp [get, h]

def getString (p : Project σ) (path : String) : Run (Session σ) String := do
  let v ← p.get path
  return v.render

def resolveAll (p : Project σ) : Run (Session σ) Unit := do
  let _ ← p.get ""

def toValue (p : Project σ) (resolve : Bool) : Run (Session σ) Value :=
  if resolve then p.get "" else pure p.document.root

def toJson (p : Project σ) (resolve : Bool) : Run (Session σ) String := do
  let v ← p.toValue resolve
  return v.jsonLines

end Project

namespace Session

variable {σ : Type}

def clear (s : Session σ) : Session σ := { s with cache := [] }

/-- The session of a copy of the project, which shares the functions' state but has read nothing. -/
def clone (s : Session σ) : Session σ := ⟨[], s.world⟩

end Session
end Manifest
