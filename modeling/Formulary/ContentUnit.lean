import Formulary.Diagnostic
import Formulary.FileSystem

/-!
# Content units

A content unit is a directory with its content files, which share their macros, and the units of the
directories in it. What has a hidden name is no content, and neither is a file whose extension is
not asked for. Files and units are ordered by name.
-/

namespace Formulary

/-- A directory, its content files and the units in it. -/
structure ContentUnit where
  path : Path
  files : List Path
  children : List ContentUnit
  deriving Repr

namespace ContentUnit

/-- Puts named things in the order of their names, and forgets the names. -/
def inNameOrder {α : Type} (named : List (Name × α)) : List α :=
  (named.mergeSort fun a b => a.1 ≤ b.1).map (·.2)

/-- Whether a name is that of a content file. -/
def isContentName (extensions : List String) (name : Name) : Bool :=
  !Path.isHidden name && ((Path.extension? name).bind Name.text?).any extensions.contains

/-- The content files among the entries of a directory, by name. -/
def namedFiles (extensions : List String) (path : Path) :
    List (Name × FileTree) → List (Name × Path)
  | [] => []
  | (name, .file _) :: entries =>
    if isContentName extensions name then
      (name, path.join ⟨name⟩) :: namedFiles extensions path entries
    else namedFiles extensions path entries
  | (_, .directory _) :: entries => namedFiles extensions path entries

mutual

/-- The unit of a directory with the given entries. -/
def ofEntries (extensions : List String) (path : Path) (entries : List (Name × FileTree)) :
    ContentUnit :=
  { path
    files := inNameOrder (namedFiles extensions path entries)
    children := inNameOrder (namedUnits extensions path entries) }
termination_by (sizeOf entries, 1)

/-- The units among the entries of a directory, by name. -/
def namedUnits (extensions : List String) (path : Path) (entries : List (Name × FileTree)) :
    List (Name × ContentUnit) :=
  match entries with
  | [] => []
  | (_, .file _) :: entries => namedUnits extensions path entries
  | (name, .directory inner) :: entries =>
    if Path.isHidden name then namedUnits extensions path entries
    else
      (name, ofEntries extensions (path.join ⟨name⟩) inner) :: namedUnits extensions path entries
termination_by (sizeOf entries, 0)

end

/-- The unit of the directory at a path. -/
def load (fs : FileSystem) (path : Path) (extensions : List String) :
    Except FileError ContentUnit :=
  (fs.entries path).map (ofEntries extensions path)

/-- The unit of a single file. -/
def ofFile (path : Path) : ContentUnit := ⟨path.parent?.getD ⟨[]⟩, [path], []⟩

mutual

/-- All files of a unit: its own, and then those of the units in it. -/
def allFiles : ContentUnit → List Path
  | ⟨_, files, children⟩ => files ++ allFilesOf children

/-- All files of some units. -/
def allFilesOf : List ContentUnit → List Path
  | [] => []
  | u :: units => u.allFiles ++ allFilesOf units

end

/-- Number of files in a unit and the units in it. -/
def fileCount (u : ContentUnit) : Nat := u.allFiles.length

end ContentUnit

/-- A file and what fixing made of it. The warnings are about formulas that stayed as they were, and
point into the text before. -/
structure FixedFile where
  path : Path
  before : String
  after : String
  skipped : List Diagnostic
  deriving DecidableEq, Repr

/-- Whether fixing changed the text. -/
def FixedFile.isChanged (f : FixedFile) : Bool := f.before != f.after

end Formulary
