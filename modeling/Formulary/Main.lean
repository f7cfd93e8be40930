import Formulary.Run
import Formulary.Toml.Config

/-!
# The command line

Reads what a run can see of the disk, lets the run work on that, and writes its results. Everything
that decides anything is in `Formulary.Run`.
-/

namespace Formulary

/-- The limit on the steps of a macro expansion. -/
def expansionSteps : Nat := 1000000000000000

/-- What is on the disk at a path. Hidden entries of directories are left out: they are no content.
-/
partial def snapshot (path : String) : IO (Option FileTree) := do
  let here := (← IO.currentDir) / path
  if ← here.isDir then
    let mut entries := []
    for entry in ← here.readDir do
      unless Path.isHidden (.ofText entry.fileName) do
        if let some t ← snapshot (path ++ "/" ++ entry.fileName) then
          entries := (.ofText entry.fileName, t) :: entries
    return some (.directory entries)
  else if ← here.pathExists then
    let bytes ← IO.FS.readBinFile here
    match String.fromUTF8? bytes with
    | some text => return some (.file (.text text))
    | none => return some (.file (.binary bytes.toList))
  else return none

/-- Adds a directory that exists on the disk. -/
def addDirectory (fs : FileSystem) (path : Path) : IO FileSystem := do
  if path.bytes.isEmpty then return fs
  unless ← ((← IO.currentDir) / path.display).isDir do return fs
  let place := fs.placeOf path
  return if (fs.root.get? place).isSome then fs else { fs with root := fs.root.plant place .empty }

/-- Adds what is on the disk at a path, and the directories on the way to it. -/
def addPath (fs : FileSystem) (path : Path) : IO FileSystem := do
  if path.bytes.isEmpty then return fs
  let fs ← path.ancestors.foldrM (fun directory fs => addDirectory fs directory) fs
  match ← snapshot path.display with
  | some t => return { fs with root := fs.root.plant (fs.placeOf path) t }
  | none => return fs

/-- The configuration file of the user. -/
def systemFile : IO (Option Path) := do
  match ← IO.getEnv "XDG_CONFIG_HOME", ← IO.getEnv "HOME" with
  | some directory, _ => return some (Path.join (.ofText directory) ConfigSource.projectFile)
  | none, some home => return some (Path.join (.ofText (home ++ "/.config")) ConfigSource.projectFile)
  | none, none => return none

/-- Everything that a job can read. -/
def visibleFiles (job : Job) : IO FileSystem := do
  let current : Path := .ofText (← IO.currentDir).toString
  let place := current.segments.filter (!Path.isTrivial ·)
  let start : FileSystem := ⟨FileTree.empty.plant place .empty, place⟩
  let configs := job.config.toList ++ [ConfigSource.projectFile] ++ job.systemFile.toList
  configs.foldlM addPath (← addPath start job.input)

/-- Prints reports. -/
def printReports (reports : List Report) : IO Unit :=
  for r in reports do
    for line in r.lines do
      IO.eprintln line

/-- Writes texts to the disk. -/
def writeAll (targets : List (Path × String)) : IO Unit :=
  for (target, text) in targets do
    if let some directory := target.parent? then
      unless directory.bytes.isEmpty do IO.FS.createDirAll directory.display
    IO.FS.writeFile target.display text

/-- Does a job on the disk. -/
def runOnDisk (job : Job) (level : LogLevel) : IO UInt32 := do
  let fs ← visibleFiles job
  match (job.prepare expansionSteps fs).run with
  | none =>
    IO.eprintln "error: macro expansion does not end"
    return 1
  | some (.error e) =>
    if level.shows .error then printReports e.reports
    return 1
  | some (.ok (source, files)) =>
    let targets := job.targets fs files
    writeAll targets
    let report : RunReport := ⟨source, files, targets.map (·.1)⟩
    if level.shows .warning then printReports report.warnings
    return 0

end Formulary

/-- The program. -/
def main (arguments : List String) : IO UInt32 := do
  match Formulary.Arguments.parse arguments with
  | .error (.inquired inquiry) =>
    IO.println (Formulary.ArgumentError.inquired inquiry).message
    return 0
  | .error e =>
    IO.eprintln e.message
    return 2
  | .ok given =>
    let level ← match Formulary.LogLevel.ofText? given.logLevel with
      | some level => pure level
      | none =>
        IO.eprintln ("Invalid log level: " ++ given.logLevel ++ ". Using 'warn' instead.")
        pure Formulary.LogLevel.warn
    let systemFile ← Formulary.systemFile
    try
      Formulary.runOnDisk (.ofArguments given systemFile Formulary.Config.parse?) level
    catch e =>
      IO.eprintln ("I/O error: " ++ toString e)
      return 1
