/-!
# Data of settings

Settings come as a tree of plain data, whatever format they are written in. A reader of settings
asks for what it needs (a truth value, texts, a choice, a group of settings) and gets nothing when
the data is something else. Formats do not agree on everything a reader may be lenient about; a
`Dialect` holds where they differ.
-/

namespace Formulary

/-- A piece of plain data. -/
inductive Datum where
  | null
  | boolean (b : Bool)
  /-- A number. No setting is one, so all that is known is whether it is in the range of numbers. -/
  | number (inRange : Bool)
  | text (s : String)
  | list (items : List Datum)
  | record (fields : List (String × Datum))
  deriving Inhabited, Repr

/-- The fields of a record, in their order. -/
abbrev Fields := List (String × Datum)

/-- Where the formats of settings differ. -/
structure Dialect where
  /-- Whether a group that is written as a list may have more items than settings. -/
  allowsSurplus : Bool
  /-- Whether a datum stands for nothing at all. -/
  isNothing : Datum → Bool

namespace Dialect

/-- In TOML, which cannot write nothing, an empty list or record stands for it. Surplus items are
passed over. -/
def toml : Dialect where
  allowsSurplus := true
  isNothing
    | .list [] | .record [] => true
    | _ => false

/-- JSON can write nothing. Surplus items are refused. -/
def json : Dialect where
  allowsSurplus := false
  isNothing
    | .null => true
    | _ => false

end Dialect

namespace Datum

mutual

/-- Whether all numbers in a datum are in their range. -/
def inRange : Datum → Bool
  | .null | .boolean _ | .text _ => true
  | .number inRange => inRange
  | .list items => itemsInRange items
  | .record fields => fieldsInRange fields

/-- Whether all numbers in the items of a list are in their range. -/
def itemsInRange : List Datum → Bool
  | [] => true
  | d :: rest => d.inRange && itemsInRange rest

/-- Whether all numbers in the fields of a record are in their range. -/
def fieldsInRange : List (String × Datum) → Bool
  | [] => true
  | (_, d) :: rest => d.inRange && fieldsInRange rest

end

/-- The truth value that a datum is. -/
def boolean? : Datum → Option Bool
  | .boolean b => some b
  | _ => none

/-- The text that a datum is. -/
def text? : Datum → Option String
  | .text s => some s
  | _ => none

/-- The texts of a list. -/
def texts? : Datum → Option (List String)
  | .list items => items.mapM text?
  | _ => none

/-- The texts of a record with their names, in the order of the names. -/
def namedTexts? : Datum → Option (List (String × String))
  | .record fields => do
    let pairs ← fields.mapM fun (name, d) => do return (name, ← d.text?)
    return pairs.mergeSort fun a b => a.1 ≤ b.1
  | _ => none

/-- The word for one of several choices: the word itself, or a record where it names nothing. -/
def choice? (dialect : Dialect) : Datum → Option String
  | .text s => some s
  | .record [(word, d)] => if dialect.isNothing d then some word else none
  | _ => none

/-- The settings of a group by their names. A group may be written as a list, with the settings in
their order and the last of them left out. Settings that nobody knows are passed over, but only when
their numbers are in range. -/
def settings? (dialect : Dialect) (names : List String) : Datum → Option Fields
  | .record fields =>
    if fields.all fun (name, d) => names.contains name || d.inRange then some fields else none
  | .list items =>
    if dialect.allowsSurplus || items.length ≤ names.length then some (names.zip items) else none
  | _ => none

end Datum

/-- Reads a setting that may be missing. -/
def Fields.setting {α : Type} (fields : Fields) (name : String) (default : α)
    (read : Datum → Option α) : Option α :=
  match fields.lookup name with
  | some d => read d
  | none => some default

end Formulary
