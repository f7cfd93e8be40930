import Formulary.Arguments
import Formulary.ContentUnit
import Formulary.Failure

/-!
# Reports

What a run tells about a diagnostic or a failure. A report about a diagnostic names the file that
its labels point into; other reports name none.
-/

namespace Formulary

/-- Something that a run has to tell. -/
structure Report where
  file : Option Path
  message : String
  code : Option String
  severity : Option Severity
  help : Option String
  labels : List Label
  cause : Option String
  deriving DecidableEq, Repr

namespace Report

/-- The report about a diagnostic for a file. -/
def ofDiagnostic (path : Path) (d : Diagnostic) : Report where
  file := some path
  message := d.message
  code := d.code.map Code.text
  severity := some d.severity
  help := d.help
  labels := d.labels
  cause := none

/-- The report about something that has no place in a file. -/
def plain (code message : String) (cause : Option String) : Report where
  file := none
  message := message
  code := some code
  severity := none
  help := none
  labels := []
  cause := cause

/-- The report in lines: what it is about, then its labels and its advice. -/
def lines (r : Report) : List String :=
  let severity := (r.severity.getD .error).word
  let code := (r.code.map fun code => "[" ++ code ++ "]").getD ""
  let file := (r.file.map Path.display).getD ""
  let label (l : Label) : String :=
    "  " ++ file ++ ":" ++ toString l.span.start ++ "-" ++ toString l.span.stop ++ ": " ++ l.message
  (severity ++ code ++ ": " ++ r.message) :: r.labels.map label ++
    (r.help.map fun help => "  help: " ++ help).toList

end Report

/-- The reports about a failure. -/
def Failure.reports (f : Failure) : List Report :=
  match f with
  | .files e => [.plain "mathfix::io" f.display (some e.message)]
  | .config _ => [.plain "mathfix::config" f.display none]
  | .fixing path diagnosis _ => diagnosis.diagnostics.map (.ofDiagnostic path)

/-- The reports about the formulas of a file that stayed as they were. -/
def FixedFile.reports (f : FixedFile) : List Report := f.skipped.map (.ofDiagnostic f.path)

/-- Whether reports of a severity are told. -/
def LogLevel.shows : LogLevel → Severity → Bool
  | .off, _ => false
  | .error, .warning => false
  | _, _ => true

end Formulary
