import Formulary.Arguments
import Formulary.Fixer.Unit
import Formulary.Report

/-!
# Runs

A run finds its configuration, fixes an input file or all content below an input directory, and then
writes the results. Nothing is written before everything has been fixed.

Without an output, files whose text has changed are written back. With one, the result of an input
file goes there, and the results of an input directory go below it, at the paths that the files have
below the input.
-/

namespace Formulary

/-- Where the configuration of a run comes from. -/
inductive ConfigSource where
  /-- The command line names the file. -/
  | explicit (path : Path)
  /-- The project has one. -/
  | project (path : Path)
  /-- The user has one. -/
  | system (path : Path)
  /-- There is none. -/
  | builtIn
  deriving DecidableEq, Repr

namespace ConfigSource

/-- The configuration file of a project. -/
def projectFile : Path := .ofText "mathfix/config.toml"

/-- The file that the configuration is in. -/
def path? : ConfigSource → Option Path
  | .explicit path => some path
  | .project path => some path
  | .system path => some path
  | .builtIn => none

/-- The source in words. -/
def display : ConfigSource → String
  | .explicit path => path.display ++ " (--config)"
  | .project path => path.display ++ " (project)"
  | .system path => path.display ++ " (system)"
  | .builtIn => "built-in defaults"

/-- The source for a run: the file that was asked for, or the first file that exists. -/
def choose (fs : FileSystem) (asked systemFile : Option Path) : ConfigSource :=
  match asked with
  | some path => .explicit path
  | none =>
    if fs.contains projectFile then .project projectFile
    else
      match systemFile.filter fs.contains with
      | some path => .system path
      | none => .builtIn

/-- Reads the configuration file at a path. -/
def loadFile (readConfig : String → Option Config) (fs : FileSystem) (path : Path) :
    Except Failure Config := do
  unless fs.contains path do throw (.config (.missing path))
  match fs.read path with
  | .error e => throw (.files e)
  | .ok text =>
    match readConfig text with
    | none => throw (.config .unreadable)
    | some config =>
      match config.flaw? with
      | some flaw => throw (.config (.flawed flaw))
      | none => return config

/-- Reads the configuration. -/
def load (readConfig : String → Option Config) (fs : FileSystem) (source : ConfigSource) :
    Except Failure Config :=
  match source.path? with
  | some path => loadFile readConfig fs path
  | none => .ok .standard

end ConfigSource

/-- What a run is asked to do, the configuration file of the user, and how the text of such a file is
read. -/
structure Job where
  input : Path
  output : Option Path
  config : Option Path
  systemFile : Option Path
  readConfig : String → Option Config

/-- What a run did: the files it read, and the files it wrote, in the order in which it wrote them.
-/
structure RunReport where
  source : ConfigSource
  files : List FixedFile
  written : List Path
  deriving DecidableEq, Repr

namespace RunReport

/-- Number of warnings about formulas that stayed as they were. -/
def skippedCount (r : RunReport) : Nat := r.files.foldl (fun count f => count + f.skipped.length) 0

/-- The reports about formulas that stayed as they were. -/
def warnings (r : RunReport) : List Report := r.files.flatMap FixedFile.reports

end RunReport

/-- Programs that change the file system, fail, or do not end. What was changed before a failure
stays. -/
abbrev Running := ExceptT Failure (StateT FileSystem Option)

namespace Job

/-- The job that a command line asks for. -/
def ofArguments (a : Arguments) (systemFile : Option Path) (readConfig : String → Option Config) :
    Job :=
  ⟨.ofText a.input, a.output.map .ofText, a.config.map .ofText, systemFile, readConfig⟩

/-- Where the configuration of the job comes from. -/
def source (job : Job) (fs : FileSystem) : ConfigSource := .choose fs job.config job.systemFile

/-- The content that is to be fixed. -/
def content (job : Job) (fs : FileSystem) (extensions : List String) :
    Except FileError ContentUnit :=
  if fs.isDirectory job.input then ContentUnit.load fs job.input extensions
  else .ok (ContentUnit.ofFile job.input)

/-- Where the text of a file goes, if it goes anywhere. -/
def target? (job : Job) (inDirectory : Bool) (file : FixedFile) : Option Path :=
  match job.output with
  | none => if file.isChanged then some file.path else none
  | some output =>
    some (if inDirectory then output.join (file.path.relativeTo job.input) else output)

/-- Writes a text to a file, in a directory that is made if it is missing. -/
def store (target : Path) (text : String) : FileSystem.Change Unit := do
  if let some directory := target.parent? then FileSystem.makeDirectories directory
  FileSystem.write target text

/-- Writes files one after the other. -/
def storeAll (targets : List (Path × String)) : FileSystem.Change Unit :=
  targets.forM fun (target, text) => store target text

/-- Finds the configuration and fixes everything, without any change to the file system. -/
def prepare (job : Job) (steps : Nat) (fs : FileSystem) :
    ExceptT Failure Option (ConfigSource × List FixedFile) := do
  let source := job.source fs
  match source.load job.readConfig fs with
  | .error e => throw e
  | .ok config =>
    match job.content fs config.content.extensions with
    | .error e => throw (.files e)
    | .ok unit =>
      let files ← (Fixer.ofConfig steps config).fixUnit fs unit
      return (source, files)

/-- The paths that are written, with their new texts. -/
def targets (job : Job) (fs : FileSystem) (files : List FixedFile) : List (Path × String) :=
  files.filterMap fun file =>
    (job.target? (fs.isDirectory job.input) file).map fun target => (target, file.after)

/-- Does what is asked. -/
def run (job : Job) (steps : Nat) : Running RunReport :=
  ExceptT.mk fun fs => do
    match ← (job.prepare steps fs).run with
    | .error e => return (.error e, fs)
    | .ok (source, files) =>
      let targets := job.targets fs files
      let (result, fs) := (storeAll targets).run.run fs
      match result with
      | .error e => return (.error (.files e), fs)
      | .ok () => return (.ok ⟨source, files, targets.map (·.1)⟩, fs)

end Job

end Formulary
