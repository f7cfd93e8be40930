import Formulary.Environment

/-!
# Configuration

Which fixes are made, which files are content, and what happens to a formula that cannot be fixed.
Every setting has a default. A configuration that can be read is not yet one that can work:
`Config.flaw?` finds what is wrong with it.
-/

namespace Formulary

/-- What happens when a formula cannot be fixed. -/
inductive ErrorPolicy where
  /-- The run ends. -/
  | abort
  /-- The formula stays as it is. -/
  | skip
  deriving DecidableEq, Repr

namespace ErrorPolicy

/-- The word for the policy. -/
def word : ErrorPolicy → String
  | .abort => "abort"
  | .skip => "skip"

/-- The policy that a word stands for. -/
def ofWord? (s : String) : Option ErrorPolicy :=
  [abort, skip].find? fun p => p.word == s

end ErrorPolicy

/-- Which fixes are made, and how. -/
structure FixSettings where
  expandMacros : Bool
  renameEnvironments : Bool
  trimSpaces : Bool
  padBlocks : Bool
  renames : Renames
  deriving DecidableEq, Repr

/-- All fixes are made. -/
def FixSettings.standard : FixSettings := ⟨true, true, true, true, .standard⟩

/-- Which files are content, and what happens when one of their formulas cannot be fixed. -/
structure ContentSettings where
  extensions : List String
  onError : ErrorPolicy
  deriving DecidableEq, Repr

/-- Markdown and plain text, without tolerance. -/
def ContentSettings.standard : ContentSettings := ⟨["md", "txt"], .abort⟩

/-- The settings of a run. -/
structure Config where
  fixes : FixSettings
  content : ContentSettings
  deriving DecidableEq, Repr

/-- The settings when nobody has made any. -/
def Config.standard : Config := ⟨.standard, .standard⟩

namespace Config

/-- What can be wrong with a configuration that can be read. -/
inductive Flaw where
  /-- There is no extension. -/
  | noExtensions
  /-- An extension is empty or starts with a dot. -/
  | badExtension (extension : String)
  /-- The name of an environment is empty or has other characters than letters and stars. -/
  | badEnvironment (name : String)
  deriving DecidableEq, Repr

/-- The flaw in words. -/
def Flaw.message : Flaw → String
  | .noExtensions => "content.extensions must name at least one extension"
  | .badExtension extension =>
    "invalid extension `" ++ extension ++ "`, write extensions without the leading dot"
  | .badEnvironment name => "invalid environment name `" ++ name ++ "` in fixes.rename"

/-- Whether a text can be an extension. -/
def isExtension (s : String) : Bool :=
  match s.toList with
  | [] => false
  | c :: _ => c != '.'

/-- Whether a text can be the name of an environment. -/
def isEnvironmentName (s : String) : Bool :=
  !s.isEmpty && s.toList.all fun c => c.isAlpha || c == '*'

/-- The first thing that is wrong with a configuration. -/
def flaw? (c : Config) : Option Flaw :=
  if c.content.extensions.isEmpty then some .noExtensions
  else
    match c.content.extensions.find? (!isExtension ·) with
    | some extension => some (.badExtension extension)
    | none =>
      let names := c.fixes.renames.toList.flatMap fun (old, new) => [old, new]
      (names.find? (!isEnvironmentName ·)).map .badEnvironment

end Config

end Formulary
