import Manifest.Text.Utf8
import Manifest.Toml.Reader

/-! Documents: a tree of values in which no mapping repeats a key, read from TOML or given. -/
namespace Manifest

structure Document where
  root : Value
  distinct : root.Distinct

namespace Document

/-- A document with a given root. Of entries of a mapping with one key the last counts. -/
def ofValue (v : Value) : Document := ⟨v.distinct, v.distinct_distinct⟩

/-- The document that a TOML text holds. A text that is refused is located by line in `file`. -/
def ofToml (text : String) (file : String := "<string>") : Except Error Document :=
  match Toml.read text with
  | .ok v => .ok (ofValue v)
  | .error line =>
    .error { kind := .parse, location := some { file, line := some line } }

def load (octets : List UInt8) : Except Error Document :=
  match Text.Utf8.decode octets with
  | .ok text => ofToml text
  | .error fault => .error (.parse s!"Document is not valid UTF-8: {fault.message}")

/-- The node at an absolute path, as it is written. -/
def get (d : Document) (path : String) : Except Error Value := d.root.getPath path

end Document
end Manifest
