import Formulary.Toml.Value

/-!
# Reading TOML

The text of a configuration file is read in two layers:

* a `Reader` takes a piece off the start of a text, or fails and leaves everything as it was. The
  only loop is `Reader.many`, which goes on while its item takes something; values inside values
  are bounded by `maxDepth`;
* a line is a `Statement`: a table header or a key with its value. The statements of a file build up
  its root table one after the other, as `Entries` says.

Nothing is said about what is wrong with a file that cannot be read.
-/

namespace Formulary.Toml

/-- Takes a piece off the start of a text, or fails. -/
abbrev Reader := StateT (List Char) Option

namespace Reader

/-- As many items as can be read, as long as each takes something. -/
def manyFrom {α : Type} (item : Reader α) (text : List Char) : List α × List Char :=
  match item text with
  | none => ([], text)
  | some (a, rest) =>
    if _h : rest.length < text.length then
      let (items, rest) := manyFrom item rest
      (a :: items, rest)
    else ([], text)
termination_by text.length

/-- As many items as can be read. -/
def many {α : Type} (item : Reader α) : Reader (List α) := modifyGet (manyFrom item)

/-- One item and more of them after separators. -/
def separated {α β : Type} (separator : Reader β) (item : Reader α) : Reader (List α) := do
  let first ← item
  let others ← many (separator *> item)
  return first :: others

/-- A character with a property. -/
def sat (p : Char → Bool) : Reader Char := do
  match ← get with
  | c :: rest => if p c then set rest; return c else failure
  | [] => failure

/-- The given character. -/
def char (c : Char) : Reader Unit := do
  let _ ← sat (· == c)

/-- The given characters. -/
def word (text : String) : Reader Unit := text.toList.forM char

/-- The longest run of characters with a property. -/
def run (p : Char → Bool) : Reader (List Char) :=
  modifyGet fun text => (text.takeWhile p, text.dropWhile p)

/-- A run that is not empty. -/
def run1 (p : Char → Bool) : Reader (List Char) := do
  let cs ← run p
  if cs.isEmpty then failure else return cs

/-- The end of the text. -/
def atEnd : Reader Unit := do
  if (← get).isEmpty then return else failure

/-- Reads a whole text. -/
def whole {α : Type} (reader : Reader α) (text : List Char) : Option α :=
  ((reader <* atEnd) text).map (·.1)

end Reader

open Reader

/-! ## Blanks and comments -/

/-- Whether a character must not stand in comments and strings. -/
def isControl (c : Char) : Bool := (c.toNat < 0x20 && c != '\t') || c.toNat == 0x7F

/-- Whether a character is a blank within a line. -/
def isLineBlank (c : Char) : Bool := c == ' ' || c == '\t'

/-- Blanks within a line. -/
def blanks : Reader Unit := do
  let _ ← run isLineBlank

/-- The end of a line. -/
def newline : Reader Unit := char '\n' <|> word "\r\n"

/-- A comment up to the end of the line. -/
def comment : Reader Unit := do
  char '#'
  let _ ← run (!isControl ·)

/-- What may stand at the end of a line. -/
def lineEnd : Reader Unit := do
  blanks
  let _ ← optional comment

/-- Blanks, comments and line breaks between the items of a value. -/
def padding : Reader Unit := do
  let _ ← many (lineEnd *> newline)
  blanks

/-! ## Strings -/

/-- The value of a hexadecimal digit. -/
def hexDigit? (c : Char) : Option Nat :=
  if c.isDigit then some (c.toNat - '0'.toNat)
  else if 'a' ≤ c ∧ c ≤ 'f' then some (c.toNat - 'a'.toNat + 10)
  else if 'A' ≤ c ∧ c ≤ 'F' then some (c.toNat - 'A'.toNat + 10)
  else none

/-- A number of the given count of hexadecimal digits. -/
def hexNumber : Nat → Nat → Reader Nat
  | 0, value => return value
  | count + 1, value => do
    let c ← sat fun c => (hexDigit? c).isSome
    hexNumber count (16 * value + (hexDigit? c).getD 0)

/-- The character with a code of the given count of hexadecimal digits. -/
def codedChar (count : Nat) : Reader (List Char) := do
  let code ← hexNumber count 0
  if code.isValidChar then return [Char.ofNat code] else failure

/-- An escape in a string. -/
def escape : Reader (List Char) := do
  char '\\'
  match ← sat fun _ => true with
  | 'b' => return ['\x08']
  | 't' => return ['\t']
  | 'n' => return ['\n']
  | 'f' => return ['\x0c']
  | 'r' => return ['\r']
  | 'e' => return ['\x1b']
  | '"' => return ['"']
  | '\\' => return ['\\']
  | 'x' => codedChar 2
  | 'u' => codedChar 4
  | 'U' => codedChar 8
  | _ => failure

/-- A backslash at the end of a line: it takes away the line break and all blanks after it. -/
def continuation : Reader (List Char) := do
  char '\\'
  blanks
  newline
  let _ ← many (blanks *> newline)
  blanks
  return []

/-- A line break in a string of several lines. -/
def innerNewline : Reader (List Char) :=
  (char '\n' *> pure ['\n']) <|> (word "\r\n" *> pure ['\r', '\n'])

/-- A quote in a string of several lines. Three of them end the string, after up to two more that
belong to it. -/
def innerQuote (quote : Char) : Reader (List Char) := do
  let length := ((← get).takeWhile (· == quote)).length
  if length < 3 ∨ length = 4 ∨ length = 5 then
    char quote
    return [quote]
  else failure

/-- A character that stands for itself between quotes. -/
def plainChar (quote : Char) : Reader (List Char) :=
  (fun c => [c]) <$> sat fun c => c != quote && !isControl c

/-- A character between double quotes that is not escaped. -/
def unescapedChar : Reader (List Char) :=
  (fun c => [c]) <$> sat fun c => c != '"' && c != '\\' && !isControl c

/-- What stands between quotes, piece by piece. -/
def quoted (quotes : String) (piece : Reader (List Char)) : Reader String := do
  word quotes
  let pieces ← many piece
  word quotes
  return String.ofList pieces.flatten

/-- What stands between triple quotes. A line break right after the opening ones does not count. -/
def tripleQuoted (quotes : String) (piece : Reader (List Char)) : Reader String := do
  word quotes
  let _ ← optional newline
  let pieces ← many piece
  word quotes
  return String.ofList pieces.flatten

/-- A string in one line. -/
def lineString : Reader String :=
  quoted "\"" (escape <|> unescapedChar) <|> quoted "'" (plainChar '\'')

/-- A string in one or several lines. -/
def string : Reader String :=
  tripleQuoted "\"\"\""
    (continuation <|> escape <|> innerNewline <|> unescapedChar <|> innerQuote '"')
  <|> tripleQuoted "'''" (innerNewline <|> plainChar '\'' <|> innerQuote '\'')
  <|> lineString

/-! ## Numbers -/

/-- Digits, with single underscores between them. -/
def digits (p : Char → Bool) : Reader (List Char) :=
  List.flatten <$> separated (char '_') (run1 p)

/-- A sign that may be missing, true for the negative one. -/
def sign : Reader Bool :=
  (char '-' *> pure true) <|> (char '+' *> pure false) <|> pure false

/-- A sign and decimal digits, without a useless zero in front. -/
def signedDigits : Reader (Bool × List Char) := do
  let negative ← sign
  match ← digits Char.isDigit with
  | '0' :: _ :: _ => failure
  | ds => return (negative, ds)

/-- The number that digits make in a base. -/
def numeral (base : Nat) (ds : List Char) : Nat :=
  ds.foldl (fun n c => base * n + (hexDigit? c).getD 0) 0

/-- A whole number in another base than ten. -/
def basedInteger : Reader Int :=
  (word "0x" *> based 16) <|> (word "0o" *> based 8) <|> (word "0b" *> based 2)
where
  based (base : Nat) : Reader Int := do
    let ds ← digits fun c => ((hexDigit? c).map (decide <| · < base)).getD false
    return numeral base ds

/-- A whole number in base ten. -/
def decimalInteger : Reader Int := do
  let (negative, ds) ← signedDigits
  let n := numeral 10 ds
  return if negative then -n else n

/-- A group of characters behind an underscore that passes for digits: it starts with a digit of
some base, and ends with one if another group follows. A dot or an exponent would make it part of
a float. -/
def looseGroup : Reader Unit := do
  char '_'
  let group ← run1 fun c => c ∉ ['.', 'e', 'E', '_', ' ']
  let isDigit (c : Char) : Bool := (hexDigit? c).isSome
  let isLast := (← get).isEmpty
  if group.head?.any isDigit && (isLast || group.getLast?.any isDigit) then return else failure

/-- What has the shape of a whole number without being one: the mark of a base and no digits, or
digits with loose groups behind them. -/
def looseInteger : Reader Unit :=
  word "0x" <|> word "0o" <|> word "0b" <|> do
    let _ ← sign
    match ← run1 Char.isDigit with
    | '0' :: _ => failure
    | _ =>
      looseGroup
      let _ ← many looseGroup

/-- A whole number, or what passes for one as long as nobody asks for its value. -/
def integer? (text : List Char) : Option Value :=
  (whole (basedInteger <|> decimalInteger) text).map (fun n => .integer (some n))
  <|> (whole looseInteger text).map (fun _ => .integer none)

/-- The exponent of a float. -/
def exponent : Reader Int := do
  let _ ← sat fun c => c == 'e' || c == 'E'
  let negative ← sign
  let n := numeral 10 (← digits Char.isDigit)
  return if negative then -n else n

/-- A float with a fraction or an exponent. -/
def decimal : Reader Value := do
  let (_, ds) ← signedDigits
  let fraction ← optional (char '.' *> digits Char.isDigit)
  let power ← if fraction.isSome then optional exponent else some <$> exponent
  let fraction := fraction.getD []
  return .decimal (numeral 10 (ds ++ fraction)) (power.getD 0 - fraction.length)

/-- Infinity, and what is no number. -/
def special : Reader Unit := sign *> (word "inf" <|> word "nan")

/-! ## Dates and times -/

/-- A number of the given count of decimal digits, from `lo` to `hi`. -/
def fixedNumber (count lo hi : Nat) : Reader Nat := do
  let ds ← (List.replicate count ()).mapM fun _ => sat Char.isDigit
  let n := numeral 10 ds
  if lo ≤ n ∧ n ≤ hi then return n else failure

/-- Number of days of a month. -/
def daysOf (year month : Nat) : Nat :=
  if month = 2 then
    if year % 4 = 0 ∧ (year % 100 ≠ 0 ∨ year % 400 = 0) then 29 else 28
  else if month ∈ [4, 6, 9, 11] then 30 else 31

/-- A day of the calendar. -/
def day : Reader Unit := do
  let year ← fixedNumber 4 0 9999
  char '-'
  let month ← fixedNumber 2 1 12
  char '-'
  let _ ← fixedNumber 2 1 (daysOf year month)

/-- A time of day; the seconds may be missing. -/
def time : Reader Unit := do
  let _ ← fixedNumber 2 0 23
  char ':'
  let _ ← fixedNumber 2 0 59
  let _ ← optional do
    char ':'
    let _ ← fixedNumber 2 0 60
    let _ ← optional (char '.' *> run1 Char.isDigit)

/-- The distance to universal time. -/
def zone : Reader Unit :=
  (do let _ ← sat fun c => c == 'Z' || c == 'z') <|> do
    let _ ← sat fun c => c == '+' || c == '-'
    let _ ← fixedNumber 2 0 23
    char ':'
    let _ ← fixedNumber 2 0 59

/-- A day, a time of day, or both. -/
def moment : Reader Unit :=
  time <|> do
    day
    let _ ← optional do
      let _ ← sat fun c => c == 'T' || c == 't' || c == ' '
      time
      let _ ← optional zone

/-! ## Values -/

/-- Whether a character can be part of what passes for a number, a word or a date. -/
def isAtomChar (c : Char) : Bool :=
  !isLineBlank c && c ∉ ['=', ',', '[', ']', '{', '}', '#', '\r', '\n']

/-- Blanks and a piece of unquoted text behind them. -/
def nextPiece : Reader (List Char) := do
  let gap ← run1 isLineBlank
  match ← run1 isAtomChar with
  | '"' :: _ | '\'' :: _ => failure
  | piece => return gap ++ piece

/-- Unquoted text: a number, a word or a date. It may have blanks inside, as between a day and a
time of day. -/
def atom : Reader (List Char) := do
  let first ← run1 isAtomChar
  return first ++ (← many nextPiece).flatten

/-- The value that unquoted text stands for. -/
def atomValue? (text : List Char) : Option Value :=
  (whole (word "true") text).map (fun _ => .boolean true)
  <|> (whole (word "false") text).map (fun _ => .boolean false)
  <|> integer? text
  <|> whole decimal text
  <|> (whole special text).map (fun _ => .special (String.ofList text))
  <|> (whole moment text).map (fun _ => .date (String.ofList text))

/-- A value that holds no others. -/
def scalar : Reader Value :=
  (.string <$> string) <|> do
    match atomValue? (← atom) with
    | some v => return v
    | none => failure

/-- A key, bare or in quotes. -/
def key : Reader String :=
  (String.ofList <$> run1 fun c => c.isAlphanum || c == '_' || c == '-') <|> lineString

/-- How deep values may stand in each other, and how many keys a dotted one may have. -/
def maxDepth : Nat := 80

/-- A key behind dots: the path to it and the key itself. -/
def dottedKey : Reader (List String × String) := do
  let keys ← separated (blanks *> char '.' *> blanks) key
  match keys.getLast? with
  | some last => if keys.length ≤ maxDepth then return (keys.dropLast, last) else failure
  | none => failure

/-- A key with its value, and with a gap on both sides of the sign between them. -/
def pair (gap : Reader Unit) (value : Reader Value) : Reader (List String × String × Value) := do
  let (path, key) ← dottedKey
  gap
  char '='
  gap
  return (path, key, ← value)

/-- What stands between brackets or braces: items with commas between them, and a comma after the
last or not. -/
def enclosed {α : Type} (opening closing : Char) (item : Reader α) : Reader (List α) := do
  char opening
  padding
  let items ← optional do
    let items ← separated (padding *> char ',' *> padding) item
    let _ ← optional (padding *> char ',')
    padding
    return items
  char closing
  return items.getD []

/-- An array. -/
def array (value : Reader Value) : Reader Value := .array false <$> enclosed '[' ']' value

/-- A table between braces. Line breaks are blanks in it. -/
def inlineTable (value : Reader Value) : Reader Value := do
  let pairs ← enclosed '{' '}' (pair padding value)
  match pairs.foldlM (fun (entries : Entries) (path, key, v) => entries.put key v path) [] with
  | some entries => return .table .inline entries
  | none => failure

/-- A value, with values in it down to a depth. -/
def value : Nat → Reader Value
  | 0 => scalar
  | depth + 1 => array (value depth) <|> inlineTable (value depth) <|> scalar

/-! ## Files -/

/-- A line that says something. -/
inductive Statement where
  /-- The header of a table. -/
  | table (path : List String) (key : String)
  /-- The header of a table in an array of tables. -/
  | item (path : List String) (key : String)
  /-- A key with its value. -/
  | pair (path : List String) (key : String) (value : Value)
  deriving Repr

/-- A statement. -/
def statement : Reader Statement :=
  (do
    word "[["
    blanks
    let (path, key) ← dottedKey
    blanks
    word "]]"
    return .item path key)
  <|> (do
    char '['
    blanks
    let (path, key) ← dottedKey
    blanks
    char ']'
    return .table path key)
  <|> do
    let (path, key, v) ← pair blanks (value maxDepth)
    return .pair path key v

/-- A line with a statement or without. -/
def line : Reader (Option Statement) := do
  blanks
  let s ← optional statement
  lineEnd
  return s

/-- The statements of a file. -/
def statements : Reader (List Statement) := do
  let _ ← optional (char '\uFEFF')
  let lines ← many (line <* newline)
  let last ← line
  return (lines ++ [last]).filterMap id

/-- A file as far as it has been read: the root table, and the header that pairs belong to. -/
structure Document where
  entries : Entries
  header : List String
  deriving Repr

/-- What a statement adds to a document. -/
def Document.add (d : Document) : Statement → Option Document
  | .table path key => return ⟨← d.entries.openTable path key, path ++ [key]⟩
  | .item path key => return ⟨← d.entries.openItem path key, path ++ [key]⟩
  | .pair path key v => do
    let entries ← d.entries.within (Entries.put key v path) d.header
    return { d with entries }

/-- The root table of a file. -/
def parse? (text : String) : Option Entries := do
  let found ← whole statements text.toList
  let d ← found.foldlM Document.add ⟨[], []⟩
  return d.entries

end Formulary.Toml
