import Formulary.Config
import Formulary.Diagnostic
import Formulary.FileSystem

/-!
# Failures

What can end a run: trouble with files, a formula that cannot be fixed, or a configuration that
cannot be used.
-/

namespace Formulary

/-- What can be wrong with the configuration of a run. -/
inductive ConfigError where
  /-- The file that was asked for does not exist. -/
  | missing (path : Path)
  /-- The file is no configuration. -/
  | unreadable
  /-- The configuration cannot work. -/
  | flawed (flaw : Config.Flaw)
  | other (message : String)
  deriving DecidableEq, Repr

/-- The error in words. -/
def ConfigError.message : ConfigError → String
  | .missing path => "Missing configuration file: " ++ path.display
  | .unreadable => "Failed to parse TOML configuration"
  | .flawed flaw => "Validation error: " ++ flaw.message
  | .other message => message

/-- What can end a run. -/
inductive Failure where
  | files (e : FileError)
  /-- A file with these texts cannot be fixed. -/
  | fixing (path : Path) (diagnosis : Diagnosis) (source : String)
  | config (e : ConfigError)
  deriving DecidableEq, Repr

/-- The failure in a line. -/
def Failure.display : Failure → String
  | .files e => "I/O error: " ++ e.message
  | .fixing path diagnosis _ => path.display ++ ": " ++ diagnosis.display
  | .config e => "Configuration error: " ++ e.message

end Formulary
