import Formulary.Element.Reader
import Formulary.Tree.Surgery

/-!
# Faults

Everything that can be wrong with a formula, as causes with the data their messages need. The
wording of each message, its labels and its advice are given here and nowhere else.

* `SyntaxError`: the text is no formula.
* `BlockError`: the commands that delimit blocks do not match up.
* `MacroError`: a macro is not defined or not used as it should be.
* `SurgeryError`: the tree was changed in a way that makes no sense.
-/

namespace Formulary

/-- The two commands that delimit a block. -/
inductive Delimiting where
  | opens
  | closes
  deriving DecidableEq, Repr

/-- The name of the command. -/
def Delimiting.command : Delimiting → String
  | .opens => "begin"
  | .closes => "end"

/-- What can be wrong with the blocks of a formula. -/
inductive BlockError where
  /-- A delimiting command without parameters. -/
  | missingName (command : Delimiting) (place : Span)
  /-- A delimiting command whose first parameter is no name. -/
  | badName (command : Delimiting) (written : String) (place : Span)
  /-- A block that is closed under another name. -/
  | nameMismatch (opened closed : String) (opening closing : Span)
  /-- A block that is closed in another chain. -/
  | contextMismatch (name : String) (opening closing : Span)
  /-- A block whose delimiting commands are not elements of a chain. -/
  | outOfChain (opening : Span)
  /-- Blocks that are never closed. -/
  | unclosed (blocks : List (String × Span))
  /-- The end of a block that was never opened. -/
  | unopened (name : String) (closing : Span)
  deriving DecidableEq, Repr

namespace BlockError

/-- The code of the error. -/
def code : BlockError → Code
  | .missingName .. => .invalidBlockName
  | .badName .. => .invalidBlockName
  | .nameMismatch .. => .blockNameMismatch
  | .contextMismatch .. => .blockContextMismatch
  | .outOfChain .. => .blockContextMismatch
  | .unclosed .. => .unclosedBlock
  | .unopened .. => .unopenedBlock

/-- The end of a block as it is written. -/
def ending (name : String) : String := r"\end{" ++ name ++ r"}"

/-- What the delimiting commands should look like. -/
def nameAdvice (command : Delimiting) : String :=
  r"write `\" ++ command.command ++ "{name}` with a name made of letters and `*`"

/-- The error as it is told. -/
def diagnostic (e : BlockError) : Diagnostic :=
  match e with
  | .missingName command place =>
    (Diagnostic.error e.code (r"`\" ++ command.command ++ "` without a block name")
      [.primary place "invalid block marker"]).withHelp (nameAdvice command)
  | .badName command written place =>
    (Diagnostic.error e.code ("`" ++ written ++ "` is not a valid block name")
      [.primary place "invalid block marker"]).withHelp (nameAdvice command)
  | .nameMismatch opened closed opening closing =>
    Diagnostic.error e.code ("block `" ++ opened ++ "` closed by `" ++ ending closed ++ "`")
      [.primary closing ("expected `" ++ ending opened ++ "`"),
        .secondary opening "block opened here"]
  | .contextMismatch name opening closing =>
    (Diagnostic.error e.code
      ("block `" ++ name ++ "` is not closed in the context it was opened in")
      [.primary closing "closed here", .secondary opening "opened here"]).withHelp
      r"`\begin` and `\end` must be in the same group"
  | .outOfChain opening =>
    Diagnostic.error e.code "block markers must be elements of a sequence"
      [.primary opening "block opened here"]
  | .unclosed blocks =>
    (Diagnostic.error e.code
      ("unclosed block " ++ ", ".intercalate (blocks.map fun (name, _) => "`" ++ name ++ "`"))
      (blocks.map fun (_, opening) => .primary opening "opened here")).withHelp
      r"add the matching `\end{...}`"
  | .unopened name closing =>
    Diagnostic.error e.code ("`" ++ ending name ++ r"` without a matching `\begin`")
      [.primary closing "nothing to close"]

end BlockError

/-- What can be wrong with the macros of a formula. -/
inductive MacroError where
  /-- A definition with too few or too many groups after the name. -/
  | groupCount (name : String) (count : Nat) (place : Span)
  /-- A definition whose body is no group in braces. -/
  | noBody (name : String) (place : Span)
  /-- A definition whose first parameter does not hold just one command. -/
  | noSingleCommand (place : Span)
  /-- A definition of the defining command itself. -/
  | reserved (place : Span)
  /-- A definition of something that is no command. -/
  | noCommand (place : Span)
  /-- A definition that is not followed by a command. -/
  | nothingFollows (place : Span)
  /-- A definition whose argument count is no number from 0 to 9. -/
  | badArity (name : String) (place : Span)
  /-- A use with the wrong number of arguments. -/
  | argumentCount (name : String) (arity given : Nat) (place : Span)
  /-- A placeholder beyond the arguments of its macro. -/
  | placeholderRange (index : Nat) (name : String) (arity : Nat) (place : Span)
  /-- A second definition of a name. -/
  | duplicate (name : String) (place : Span)
  /-- A definition that is no element of a chain. -/
  | misplaced (place : Span)
  deriving DecidableEq, Repr

namespace MacroError

/-- The code of the error. -/
def code : MacroError → Code
  | .groupCount .. => .malformedDefinition
  | .noBody .. => .malformedDefinition
  | .noSingleCommand .. => .invalidMacroName
  | .reserved .. => .invalidMacroName
  | .noCommand .. => .invalidMacroName
  | .nothingFollows .. => .invalidMacroName
  | .badArity .. => .invalidArgumentCount
  | .argumentCount .. => .wrongArgumentCount
  | .placeholderRange .. => .placeholderOutOfRange
  | .duplicate .. => .duplicateDefinition
  | .misplaced .. => .misplacedDefinition

/-- The error as it is told. -/
def diagnostic (e : MacroError) : Diagnostic :=
  match e with
  | .groupCount name count place =>
    (Diagnostic.error e.code (r"malformed definition of `\" ++ name ++ "`")
      [.primary place ("found " ++ toString count ++ " groups after the name")]).withHelp
      r"write `\newcommand{\name}[n]{body}`"
  | .noBody name place =>
    Diagnostic.error e.code (r"malformed definition of `\" ++ name ++ "`")
      [.primary place "expected a `{...}` body"]
  | .noSingleCommand place =>
    Diagnostic.error e.code r"the first parameter of `\newcommand` must be a single command"
      [.primary place r"expected `{\name}`"]
  | .reserved place =>
    Diagnostic.error e.code r"`\newcommand` cannot be redefined" [.primary place "reserved name"]
  | .noCommand place =>
    Diagnostic.error e.code "expected a macro name" [.primary place "not a command"]
  | .nothingFollows place =>
    Diagnostic.error e.code r"expected a macro name after `\newcommand`"
      [.primary place "no command follows"]
  | .badArity name place =>
    Diagnostic.error e.code (r"invalid argument count for `\" ++ name ++ "`")
      [.primary place "expected `[n]` with n from 0 to 9"]
  | .argumentCount name arity given place =>
    Diagnostic.error e.code
      (r"macro `\" ++ name ++ "` takes " ++ toString arity ++ " argument(s) but " ++
        toString given ++ " were given")
      [.primary place "wrong number of arguments"]
  | .placeholderRange index name arity place =>
    Diagnostic.error e.code
      ("placeholder `#" ++ toString index ++ r"` in `\" ++ name ++ "` is out of range")
      [.primary place ("the macro takes " ++ toString arity ++ " argument(s)")]
  | .duplicate name place =>
    (Diagnostic.error e.code (r"macro `\" ++ name ++ "` is defined twice")
      [.primary place "second definition"]).withHelp
      "a macro can be defined only once per content unit"
  | .misplaced place =>
    (Diagnostic.error e.code r"`\newcommand` cannot be used here"
      [.primary place "definition is not part of a sequence"]).withHelp
      "move the definition out of the superscript or subscript"

end MacroError

/-- The misuse of surgery as it is told, at the place that was being changed. -/
def SurgeryError.diagnostic (e : SurgeryError) (place : Span) : Diagnostic :=
  Diagnostic.error .invalidSurgery e.message [.primary place "while rewriting this"]

/-- Anything that can be wrong with a formula. -/
inductive Fault where
  | text (e : SyntaxError)
  | block (e : BlockError)
  | expansion (e : MacroError)
  | surgery (e : SurgeryError) (place : Span)
  deriving DecidableEq, Repr

namespace Fault

/-- The fault as it is told. -/
def diagnostic : Fault → Diagnostic
  | .text e => e.diagnostic
  | .block e => e.diagnostic
  | .expansion e => e.diagnostic
  | .surgery e place => e.diagnostic place

/-- The fault as a failure. -/
def diagnosis (f : Fault) : Diagnosis := .single f.diagnostic

end Fault

/-- An edit whose misuse of surgery is reported at a place. -/
def Edit.reportedAt {α : Type} (place : Span) (e : Edit SurgeryError α) : Edit Fault α :=
  ExceptT.adapt (Fault.surgery · place) e

end Formulary
