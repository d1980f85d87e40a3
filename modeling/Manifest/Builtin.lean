import Manifest.Builtin.License
import Manifest.Builtin.Package
import Manifest.Builtin.Time
import Manifest.Builtin.Versions

/-! The functions that are there from the start. -/
namespace Manifest

def Registry.builtin : Registry Context :=
  (Builtin.versionFunctions ++ Builtin.timeFunctions ++ Builtin.licenseFunctions ++
    Builtin.packageFunctions).foldl (fun r (name, f) => r.register name f) .empty

end Manifest
