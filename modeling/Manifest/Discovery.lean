import Manifest.Folder
import Manifest.Project

/-! Finding the project of a directory. -/
namespace Manifest.Project

/-- The names of files that hold a project, by precedence. -/
def fileNames : List String := [".tyranno.toml", "pyproject.toml"]

def defaultHome : String := "tool.tyranno.data"

variable {σ : Type}

def ofFile (registry : Registry σ) (place : Place) (path : String) (home : Option String) :
    Except Error (Project σ) := do
  match Folder.readText place path with
  | .error fault => .error (.io path fault.message)
  | .ok text =>
    let document ← Document.ofToml text path
    return { document, registry, home, source := some path }

/-- The document of a directory without a project file: its name is all there is to tell. -/
def nameDocument (name : String) : Document :=
  .ofValue (.mapping [("project", .mapping [("name", .string name)])])

/-- The project of the directory at a path: the one in the first file that is there, else one that
has a name only. -/
def discover (registry : Registry σ) (place : Place) (path : String) (home : Option String) :
    Except Error (Project σ) :=
  let home := some (home.getD defaultHome)
  match (fileNames.map (Folder.join path)).find? (Folder.isFile place) with
  | some file => ofFile registry place file home
  | none => .ok { document := nameDocument (Folder.nameAt place path), registry, home }

end Manifest.Project
