/-!
# Command line arguments

The command line names an input and may give options, each at most once and each with a value. A
value follows its option as an argument of its own or is attached to it: `--output x`,
`--output=x`, `-o x`, `-ox` and `-o=x` say the same. An argument that starts with a dash is never
the value of the option before it, except for a lone dash. After two dashes everything is input.

An option waits for its value until something else is dealt with; only then it turns out that the
value is missing or that the option was given before. An argument that nobody knows comes first.
-/

namespace Formulary

/-- The options that take a value. -/
inductive Setting where
  | output
  | config
  | logLevel
  deriving DecidableEq, Repr

/-- The options that only ask for something to be shown. -/
inductive Inquiry where
  | help
  | version
  deriving DecidableEq, Repr

/-- What the command line says. -/
structure Arguments where
  input : String
  output : Option String
  config : Option String
  logLevel : String
  deriving DecidableEq, Repr

/-- Why there are no arguments to work with. -/
inductive ArgumentError where
  /-- No input is named. -/
  | missingInput
  /-- An option that does not exist, or a second input. -/
  | unknown (argument : String)
  /-- An option without its value. -/
  | missingValue (setting : Setting)
  /-- An option that is given twice. -/
  | repeated (setting : Setting)
  /-- A value for an option that takes none. -/
  | needlessValue (inquiry : Inquiry)
  /-- Something is to be shown instead. -/
  | inquired (inquiry : Inquiry)
  deriving DecidableEq, Repr

/-- The option as it is written. -/
def Setting.text : Setting → String
  | .output => "--output"
  | .config => "--config"
  | .logLevel => "--log-level"

/-- The option as it is written. -/
def Inquiry.text : Inquiry → String
  | .help => "--help"
  | .version => "--version"

/-- How much a run tells about itself. -/
inductive LogLevel where
  | off
  | error
  | warn
  | info
  | debug
  | trace
  deriving DecidableEq, Repr

/-- The log level that a text stands for, in whichever case. -/
def LogLevel.ofText? (text : String) : Option LogLevel :=
  match text.toLower with
  | "off" => some .off
  | "error" => some .error
  | "warn" => some .warn
  | "info" => some .info
  | "debug" => some .debug
  | "trace" => some .trace
  | _ => none

/-- How the program is called. -/
def usage : String :=
  "Usage: mathfix [OPTIONS] <INPUT>\n\n" ++
  "  <INPUT>                path to the input file or directory\n" ++
  "  -o, --output <PATH>    where to write the fixed content\n" ++
  "  -c, --config <PATH>    path to the configuration file\n" ++
  "      --log-level <L>    off, error, warn, info, debug or trace\n" ++
  "  -h, --help             print this help\n" ++
  "  -V, --version          print the version"

/-- The error in words. -/
def ArgumentError.message : ArgumentError → String
  | .missingInput => "error: the input is missing\n\n" ++ usage
  | .unknown argument => "error: unexpected argument '" ++ argument ++ "'\n\n" ++ usage
  | .missingValue setting => "error: a value is required for '" ++ setting.text ++ "'\n\n" ++ usage
  | .repeated setting => "error: '" ++ setting.text ++ "' is given more than once\n\n" ++ usage
  | .needlessValue inquiry => "error: '" ++ inquiry.text ++ "' takes no value\n\n" ++ usage
  | .inquired .help => usage
  | .inquired .version => "mathfix 0.1.0"

namespace Arguments

/-- The log level when none is given. -/
def defaultLogLevel : String := "info"

/-- The option with a long name. -/
def ofLong? : String → Option (Setting ⊕ Inquiry)
  | "output" => some (.inl .output)
  | "config" => some (.inl .config)
  | "log-level" => some (.inl .logLevel)
  | "help" => some (.inr .help)
  | "version" => some (.inr .version)
  | _ => none

/-- The option with a short name. -/
def ofShort? : Char → Option (Setting ⊕ Inquiry)
  | 'o' => some (.inl .output)
  | 'c' => some (.inl .config)
  | 'h' => some (.inr .help)
  | 'V' => some (.inr .version)
  | _ => none

/-- The arguments as far as they have been read. -/
structure Partial where
  input : Option String
  settings : List (Setting × String)
  /-- The option that was read last, with its value if that has been read too. -/
  waiting : Option (Setting × Option String)
  /-- Whether everything that follows is input. -/
  inputOnly : Bool
  deriving DecidableEq, Repr

namespace Partial

/-- Nothing has been read. -/
def start : Partial := ⟨none, [], none, false⟩

/-- Gives an option its value. -/
def put (p : Partial) (setting : Setting) (value : String) : Except ArgumentError Partial :=
  if (p.settings.lookup setting).isSome then .error (.repeated setting)
  else .ok { p with settings := p.settings ++ [(setting, value)] }

/-- Deals with the option that waits. -/
def settle (p : Partial) : Except ArgumentError Partial :=
  match p.waiting with
  | none => .ok p
  | some (setting, none) => .error (.missingValue setting)
  | some (setting, some value) => { p with waiting := none }.put setting value

/-- Reads an option that takes a value. -/
def readSetting (p : Partial) (setting : Setting) (attached : Option String) :
    Except ArgumentError Partial := do
  let p ← p.settle
  match attached with
  | some value => p.put setting value
  | none => return { p with waiting := some (setting, none) }

/-- Reads an option that asks for something to be shown. -/
def readInquiry (p : Partial) (inquiry : Inquiry) : Except ArgumentError Partial := do
  let _ ← p.settle
  throw (.inquired inquiry)

/-- Reads an option with two dashes, which are not part of `text`. -/
def readLong (p : Partial) (text : List Char) : Except ArgumentError Partial :=
  let name := String.ofList (text.takeWhile (· != '='))
  let attached : Option String :=
    match text.dropWhile (· != '=') with
    | _ :: value => some (String.ofList value)
    | [] => none
  match ofLong? name, attached with
  | none, _ => .error (.unknown ("--" ++ String.ofList text))
  | some (.inl setting), attached => p.readSetting setting attached
  | some (.inr inquiry), some _ => .error (.needlessValue inquiry)
  | some (.inr inquiry), none => p.readInquiry inquiry

/-- Reads options with one dash, which is not part of the text. The first of them that takes a value
takes all that follows. -/
def readShort (p : Partial) (text : List Char) : Except ArgumentError Partial :=
  match text with
  | [] => .ok p
  | c :: rest =>
    match ofShort? c with
    | none => .error (.unknown ("-" ++ String.ofList text))
    | some (.inr inquiry) => p.readInquiry inquiry
    | some (.inl setting) =>
      match rest with
      | [] => p.readSetting setting none
      | '=' :: value => p.readSetting setting (some (String.ofList value))
      | value => p.readSetting setting (some (String.ofList value))

/-- Reads the input. -/
def readInput (p : Partial) (text : String) : Except ArgumentError Partial := do
  if p.input.isSome then throw (.unknown text)
  return { ← p.settle with input := some text }

/-- Reads an argument that is no option. -/
def readPlain (p : Partial) (text : String) : Except ArgumentError Partial :=
  match p.waiting with
  | some (setting, none) => .ok { p with waiting := some (setting, some text) }
  | _ => p.readInput text

/-- Reads an argument. -/
def read (p : Partial) (argument : String) : Except ArgumentError Partial :=
  if p.inputOnly then p.readInput argument
  else
    match argument.toList with
    | ['-', '-'] => .ok { p with inputOnly := true }
    | '-' :: '-' :: text => p.readLong text
    | '-' :: c :: text => p.readShort (c :: text)
    | _ => p.readPlain argument

/-- The arguments when all have been read. -/
def finish (p : Partial) : Except ArgumentError Arguments := do
  let p ← p.settle
  match p.input with
  | none => throw .missingInput
  | some input =>
    return {
      input
      output := p.settings.lookup .output
      config := p.settings.lookup .config
      logLevel := (p.settings.lookup .logLevel).getD defaultLogLevel }

end Partial

/-- Reads a command line. -/
def parse (arguments : List String) : Except ArgumentError Arguments := do
  (← arguments.foldlM Partial.read .start).finish

end Arguments

end Formulary
