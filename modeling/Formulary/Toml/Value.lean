/-!
# TOML values

The data of a configuration file. A table remembers how it came about, and an array whether it grows
by table headers, because these decide what a later line of the file may still add to it.
-/

namespace Formulary.Toml

/-- How a table came about. -/
inductive Origin where
  /-- By a header of its own. -/
  | header
  /-- On the way to a table with a longer header. -/
  | implicit
  /-- On the way to a key with dots, or passed on the way to one. -/
  | dotted
  /-- As a value between braces. -/
  | inline
  deriving DecidableEq, Repr

/-- A value. -/
inductive Value where
  | boolean (b : Bool)
  /-- What has the shape of a whole number, and the number if its digits make one. -/
  | integer (n : Option Int)
  /-- The number `m · 10 ^ scale`, without its sign. -/
  | decimal (m : Nat) (scale : Int)
  /-- A float that is no number, as it is written. -/
  | special (text : String)
  /-- A date or a time of day, as it is written. -/
  | date (text : String)
  | string (s : String)
  | array (growing : Bool) (items : List Value)
  | table (origin : Origin) (entries : List (String × Value))
  deriving Inhabited, Repr

/-- The entries of a table, in the order of the file. -/
abbrev Entries := List (String × Value)

namespace Entries

/-- Changes the entry with a key, or adds one. The change may refuse. -/
def alter (key : String) (f : Option Value → Option Value) : Entries → Option Entries
  | [] => (f none).map fun v => [(key, v)]
  | (k, v) :: rest =>
    if k = key then (f (some v)).map fun v => (k, v) :: rest
    else (alter key f rest).map ((k, v) :: ·)

/-- Gives a value to a key behind a path of dotted keys. A key gets one value only. The tables on
the way must have come about without a header of their own, and will not get one any more. Of an
array of tables the last one may be passed through, but not added to. -/
def put (key : String) (value : Value) : List String → Entries → Option Entries
  | [], entries =>
    alter key (fun found => if found.isNone then some value else none) entries
  | k :: path, entries =>
    let enter : Option Value → Option Value
      | none => (put key value path []).map (.table .dotted)
      | some (.table origin inner) =>
        if origin = .dotted ∨ origin = .implicit then
          (put key value path inner).map (.table .dotted)
        else none
      | some (.array true items) =>
        match items.getLast? with
        | some (.table origin inner) =>
          if path ≠ [] then
            (put key value path inner).map fun inner =>
              .array true (items.dropLast ++ [.table origin inner])
          else none
        | _ => none
      | some _ => none
    alter k enter entries

/-- Changes the table behind the path of a header, and makes the tables on the way that are missing.
Of an array of tables the last one is meant. -/
def within (f : Entries → Option Entries) : List String → Entries → Option Entries
  | [], entries => f entries
  | k :: path, entries =>
    let enter : Option Value → Option Value
      | none => (within f path []).map (.table .implicit)
      | some (.table origin inner) =>
        if origin = .inline then none else (within f path inner).map (.table origin)
      | some (.array true items) =>
        match items.getLast? with
        | some (.table origin inner) =>
          (within f path inner).map fun inner =>
            .array true (items.dropLast ++ [.table origin inner])
        | _ => none
      | some _ => none
    alter k enter entries

/-- Opens the table of a header. A table is opened once. -/
def openTable (path : List String) (key : String) : Entries → Option Entries :=
  within (alter key fun
    | none => some (.table .header [])
    | some (.table .implicit entries) => some (.table .header entries)
    | some _ => none) path

/-- Adds a table to an array of tables. -/
def openItem (path : List String) (key : String) : Entries → Option Entries :=
  within (alter key fun
    | none => some (.array true [.table .header []])
    | some (.array true items) => some (.array true (items ++ [.table .header []]))
    | some _ => none) path

end Entries

end Formulary.Toml
