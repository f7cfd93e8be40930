import Formulary.Datum
import Formulary.Toml.Value

/-!
# The data of TOML values

What a value says, without how it came about. A number says whether it is in range: whole numbers
have digits that make one of at most 128 bits, and other numbers round to a finite float.
-/

namespace Formulary.Toml

/-- Whether a whole number is in range. -/
def integerInRange (n : Int) : Bool := -Int.pow 2 127 ≤ n && n < Int.pow 2 128

/-- The first number that rounds to infinity in double precision. -/
def floatLimit : Nat := Nat.pow 2 1024 - Nat.pow 2 970

/-- Whether `m · 10 ^ scale` is below the limit of floats. The number of digits decides where the
numbers are far apart. -/
def decimalInRange (m : Nat) (scale : Int) : Bool :=
  let size : Int := (Nat.toDigits 10 m).length + scale
  if m = 0 ∨ size < 300 then true
  else if size > 320 then false
  else m * Nat.pow 10 scale.toNat < floatLimit * Nat.pow 10 (-scale).toNat

/-- The only field of a date. -/
def dateField : String := "$__toml_private_datetime"

mutual

/-- The data of a value. A date is a record with its text under a reserved name. -/
def Value.datum : Value → Datum
  | .boolean b => .boolean b
  | .integer n => .number (n.any integerInRange)
  | .decimal m scale => .number (decimalInRange m scale)
  | .special _ => .number true
  | .date text => .record [(dateField, .text text)]
  | .string s => .text s
  | .array _ items => .list (itemData items)
  | .table _ entries => .record (entryData entries)

/-- The data of the items of an array. -/
def itemData : List Value → List Datum
  | [] => []
  | v :: rest => v.datum :: itemData rest

/-- The data of the entries of a table. -/
def entryData : List (String × Value) → Fields
  | [] => []
  | (key, v) :: rest => (key, v.datum) :: entryData rest

end

end Formulary.Toml
