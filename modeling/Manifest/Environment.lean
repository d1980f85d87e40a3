import Manifest.Assoc
import Manifest.Folder
import Manifest.Moment.Format

/-! What a run takes from its surroundings, once: the present moment, and where files are kept. -/
namespace Manifest

structure Environment where
  now : Moment
  cacheDir : String
  configDir : String
  deriving DecidableEq, Repr

namespace Environment

/-- A directory: the one named by its own variable if that is not empty; else a directory of the
program's name inside the one named by a shared variable if that is absolute; else inside a hidden
directory of the home directory. -/
def directory (vars : List (String × String)) (own shared hidden : String) : String :=
  let value (name : String) : String := (Assoc.find? name vars).getD ""
  if value own ≠ "" then value own
  else
    let base :=
      if (value shared).toList.head? = some '/' then value shared
      else Folder.join (value "HOME") hidden
    Folder.join base "tyranno"

def capture (now : Moment) (vars : List (String × String)) : Environment :=
  { now := now.toUniversal
    cacheDir := directory vars "TYRANNO_CACHE_DIR" "XDG_CACHE_HOME" ".cache"
    configDir := directory vars "TYRANNO_CONFIG_DIR" "XDG_CONFIG_HOME" ".config" }

def universalTime (e : Environment) : String := e.now.universalStamp

def localTime (e : Environment) : String := e.now.localStamp

end Environment
end Manifest
