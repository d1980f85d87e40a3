import Manifest.Document
import Manifest.Placeholder

/-! A document in which placeholders are resolved: what each of its nodes needs before it can be
resolved itself, and how it is put together from that. -/
namespace Manifest

/-- What a node needs, in the order of `position`: the node at some keys, perhaps taken through a
query. -/
structure Need where
  position : Nat
  keys : Keys
  query : Option String := none
  deriving DecidableEq, Repr

structure Scope where
  document : Document
  home : Option String := none

namespace Scope

def keys (s : Scope) (path : String) : Keys := Path.segments (Path.expand s.home path)

/-- What a node at some keys needs: a container its children, a text the targets of its
placeholders. -/
def needs (s : Scope) (keys : Keys) : Value → List Need
  | .string text =>
    (Template.placeholders (Template.pieces text.toList)).mapIdx fun i p =>
      ⟨i, s.keys p.path, p.query⟩
  | v => v.childKeys.mapIdx fun i key => ⟨i, keys ++ [key], none⟩

def assemble (parts : List Value) : Value → Value
  | .mapping entries => .mapping ((entries.map Prod.fst).zip parts)
  | .sequence _ => .sequence parts
  | .string text =>
    .string (String.ofList (Template.fill (Template.pieces text.toList) (parts.map Value.render)))
  | v => v

end Scope
end Manifest
