import Formulary.ContentUnit
import Formulary.Fixer.Document

/-!
# Fixing content units

The files of a unit are fixed in their order and share the macros they define. The units in it
follow, each with no macros at the start. The first failure ends it all. Nothing is written here.
-/

namespace Formulary.Fixer

/-- Reads and fixes a file. -/
def fixFile (f : Fixer) (fs : FileSystem) (path : Path) : Fixing Failure FixedFile :=
  match fs.read path with
  | .error e => throw (.files e)
  | .ok before => do
    let fixed ← f.fixDocument path before
    return ⟨path, before, fixed.text, fixed.skipped⟩

/-- Fixes files that share their macros, from none at the start. -/
def fixFiles (f : Fixer) (fs : FileSystem) (paths : List Path) :
    ExceptT Failure Option (List FixedFile) :=
  ExceptT.mk (((paths.mapM (f.fixFile fs)).run.run Definitions.empty).map (·.1))

mutual

/-- Fixes the files of a unit and of the units in it. -/
def fixUnit (f : Fixer) (fs : FileSystem) : ContentUnit → ExceptT Failure Option (List FixedFile)
  | ⟨_, files, children⟩ => do
    let own ← f.fixFiles fs files
    let others ← fixUnits f fs children
    return own ++ others

/-- Fixes the files of some units. -/
def fixUnits (f : Fixer) (fs : FileSystem) :
    List ContentUnit → ExceptT Failure Option (List FixedFile)
  | [] => return []
  | u :: units => do
    let first ← f.fixUnit fs u
    let others ← f.fixUnits fs units
    return first ++ others

end

end Formulary.Fixer
