import Manifest.Assoc
import Manifest.Path
import Manifest.Text.Utf8

/-! Trees of files, walked by paths whose parts stand between slashes. -/
namespace Manifest

inductive Entry
  | file (octets : List UInt8)
  | folder (entries : List (String × Entry))
  deriving Inhabited

/-- Where a walk through a tree has come to: named entries from the innermost to the outermost. -/
abbrev Place := List (String × Entry)

namespace Folder

inductive Fault
  | absent
  | notFolder
  | isFolder
  | notText
  deriving DecidableEq, Repr

def Fault.message : Fault → String
  | .absent => "No such file or directory (os error 2)"
  | .notFolder => "Not a directory (os error 20)"
  | .isFolder => "Is a directory (os error 21)"
  | .notText => "stream did not contain valid UTF-8"

def join (path part : String) : String :=
  match path.toList.getLast? with
  | none => part
  | some '/' => path ++ part
  | some _ => path ++ "/" ++ part

/-- The parts of a path; empty ones and single dots lead nowhere. -/
def parts (path : String) : List String :=
  (Path.segmentsBetween '/' path).filter (· ≠ ".")

/-- One step into a folder, or out of it by two dots. -/
def step (place : Place) (part : String) : Except Fault Place :=
  match place with
  | [] => .error .absent
  | (_, .file _) :: _ => .error .notFolder
  | (_, .folder entries) :: outer =>
    if part = ".." then
      if outer.isEmpty then .error .absent else .ok outer
    else
      match Assoc.find? part entries with
      | some e => .ok ((part, e) :: place)
      | none => .error .absent

def locate (place : Place) (path : String) : Except Fault Place := (parts path).foldlM step place

def isFile (place : Place) (path : String) : Bool :=
  match locate place path with
  | .ok ((_, .file _) :: _) => true
  | _ => false

def readText (place : Place) (path : String) : Except Fault String :=
  match locate place path with
  | .ok ((_, .file octets) :: _) =>
    match Text.Utf8.decode octets with
    | .ok text => .ok text
    | .error _ => .error .notText
  | .ok _ => .error .isFolder
  | .error fault => .error fault

/-- The name of what a path leads to; the last part of the path if it leads nowhere. -/
def nameAt (place : Place) (path : String) : String :=
  match locate place path with
  | .ok ((name, _) :: _) => name
  | _ =>
    match (parts path).getLast? with
    | some part => if part = ".." then "" else part
    | none => ""

end Folder
end Manifest
