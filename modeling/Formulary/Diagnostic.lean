import Formulary.Span

/-!
# Diagnostics

What a reader of a document is told about a formula that cannot be read or changed: a message,
the code of its kind, labels that point into the text, and sometimes advice. A `Diagnosis` is the
list of diagnostics one failure brings.

The codes are grouped by hundreds: 1 for the grammar of formulas, 2 for blocks, 3 for macros, 4 for
misuse of tree surgery, 5 for the delimiters around formulas.
-/

namespace Formulary

/-- How bad a diagnostic is. -/
inductive Severity where
  | error
  | warning
  deriving DecidableEq, Repr, Inhabited

/-- The word written in front of a message. -/
def Severity.word : Severity → String
  | .error => "error"
  | .warning => "warning"

/-- The kinds of trouble that have a code. -/
inductive Code where
  | unexpectedToken
  | unterminatedGroup
  | emptyCommandName
  | missingOperand
  | invalidBlockName
  | blockNameMismatch
  | blockContextMismatch
  | unclosedBlock
  | unopenedBlock
  | malformedDefinition
  | invalidMacroName
  | invalidArgumentCount
  | wrongArgumentCount
  | placeholderOutOfRange
  | duplicateDefinition
  | misplacedDefinition
  | invalidSurgery
  | mismatchedDelimiters
  deriving DecidableEq, Repr

namespace Code

/-- Every code, in increasing order. -/
def all : List Code :=
  [.unexpectedToken, .unterminatedGroup, .emptyCommandName, .missingOperand, .invalidBlockName,
    .blockNameMismatch, .blockContextMismatch, .unclosedBlock, .unopenedBlock,
    .malformedDefinition, .invalidMacroName, .invalidArgumentCount, .wrongArgumentCount,
    .placeholderOutOfRange, .duplicateDefinition, .misplacedDefinition, .invalidSurgery,
    .mismatchedDelimiters]

/-- The code as it is written. -/
def text : Code → String
  | .unexpectedToken => "E100"
  | .unterminatedGroup => "E101"
  | .emptyCommandName => "E102"
  | .missingOperand => "E103"
  | .invalidBlockName => "E200"
  | .blockNameMismatch => "E201"
  | .blockContextMismatch => "E202"
  | .unclosedBlock => "E203"
  | .unopenedBlock => "E204"
  | .malformedDefinition => "E300"
  | .invalidMacroName => "E301"
  | .invalidArgumentCount => "E302"
  | .wrongArgumentCount => "E303"
  | .placeholderOutOfRange => "E304"
  | .duplicateDefinition => "E305"
  | .misplacedDefinition => "E306"
  | .invalidSurgery => "E400"
  | .mismatchedDelimiters => "E500"

/-- What the code stands for, in a few words. -/
def description : Code → String
  | .unexpectedToken => "unexpected token"
  | .unterminatedGroup => "unterminated group"
  | .emptyCommandName => "empty command name"
  | .missingOperand => "missing script operand"
  | .invalidBlockName => "invalid block name"
  | .blockNameMismatch => "block name mismatch"
  | .blockContextMismatch => "block context mismatch"
  | .unclosedBlock => "unclosed block"
  | .unopenedBlock => "unopened block"
  | .malformedDefinition => "malformed macro definition"
  | .invalidMacroName => "invalid macro name"
  | .invalidArgumentCount => "invalid argument count"
  | .wrongArgumentCount => "wrong number of arguments"
  | .placeholderOutOfRange => "placeholder out of range"
  | .duplicateDefinition => "duplicate macro definition"
  | .misplacedDefinition => "misplaced macro definition"
  | .invalidSurgery => "invalid tree surgery"
  | .mismatchedDelimiters => "mismatched math delimiters"

/-- The code written so, if there is one. -/
def ofText? (s : String) : Option Code := all.find? fun code => code.text == s

end Code

/-- A remark on a stretch of text. The primary labels show where the trouble is, the others what
it has to do with. -/
structure Label where
  span : Span
  message : String
  isPrimary : Bool
  deriving DecidableEq, Repr

namespace Label

/-- A label on the trouble itself. -/
def primary (span : Span) (message : String) : Label := ⟨span, message, true⟩

/-- A label on something the trouble refers to. -/
def secondary (span : Span) (message : String) : Label := ⟨span, message, false⟩

/-- The label in a text in which its stretch starts `offset` bytes later. -/
def shift (label : Label) (offset : Nat) : Label :=
  { label with span := label.span.shift offset }

end Label

/-- One thing to tell about a text. -/
structure Diagnostic where
  severity : Severity
  code : Option Code
  message : String
  labels : List Label
  help : Option String
  deriving DecidableEq, Repr

namespace Diagnostic

/-- An error with a code. -/
def error (code : Code) (message : String) (labels : List Label) : Diagnostic :=
  ⟨.error, some code, message, labels, none⟩

/-- The same diagnostic with advice. -/
def withHelp (d : Diagnostic) (help : String) : Diagnostic := { d with help := some help }

/-- Severity, code and message on one line. -/
def display (d : Diagnostic) : String :=
  match d.code with
  | some code => d.severity.word ++ "[" ++ code.text ++ "]: " ++ d.message
  | none => d.severity.word ++ ": " ++ d.message

/-- The diagnostic in a text in which its stretch starts `offset` bytes later. -/
def shift (d : Diagnostic) (offset : Nat) : Diagnostic :=
  { d with labels := d.labels.map (·.shift offset) }

/-- The same remark as a warning. -/
def toWarning (d : Diagnostic) : Diagnostic := { d with severity := .warning }

/-- The labels that are not primary. -/
def secondaryLabels (d : Diagnostic) : List Label := d.labels.filter fun label => !label.isPrimary

end Diagnostic

/-- The diagnostics of one failure. -/
structure Diagnosis where
  diagnostics : List Diagnostic
  deriving DecidableEq, Repr

namespace Diagnosis

/-- A failure with one diagnostic. -/
def single (d : Diagnostic) : Diagnosis := ⟨[d]⟩

/-- The first diagnostic on one line, with the number of those that are not shown. -/
def display (d : Diagnosis) : String :=
  match d.diagnostics with
  | [] => ""
  | [only] => only.display
  | first :: more => first.display ++ " (+" ++ toString more.length ++ " more)"

/-- The diagnosis in a text in which its stretch starts `offset` bytes later. -/
def shift (d : Diagnosis) (offset : Nat) : Diagnosis := ⟨d.diagnostics.map (·.shift offset)⟩

end Diagnosis

end Formulary
