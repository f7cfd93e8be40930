import Formulary.Fault
import Formulary.Text.Blank
import Formulary.Tree.Copy

/-!
# Macro definitions

A macro is defined in one of two forms:

* `\newcommand{\name}[n]{body}`, with everything in the parameters of the defining command;
* `\newcommand\name[n]{body}`, where the groups belong to the command that follows.

The count `[n]` of arguments may be missing and is then 0. The body is kept as a tree of its own,
with its placeholders and with the uses of other macros in it as they are.

Definitions are kept in the order in which they were made, at most one for each name.
-/

namespace Formulary

/-- Name of the command that defines macros. -/
def definingCommand : String := "newcommand"

/-- The largest number of arguments of a macro. -/
def maxArity : Nat := 9

/-- A macro: its name, its number of arguments, and its body, rooted at a chain. -/
structure Definition where
  name : String
  arity : Nat
  body : Tree
  deriving DecidableEq, Repr

/-- The macros that are known, in the order in which they were defined. -/
structure Definitions where
  toList : List Definition
  deriving DecidableEq, Repr

namespace Definitions

/-- No macros. -/
def empty : Definitions := ⟨[]⟩

instance : Inhabited Definitions := ⟨empty⟩

/-- Number of macros. -/
def size (ds : Definitions) : Nat := ds.toList.length

/-- The macro with a name. -/
def find? (ds : Definitions) (name : String) : Option Definition :=
  ds.toList.find? fun d => d.name == name

/-- Whether a macro has a name. -/
def contains (ds : Definitions) (name : String) : Bool := (ds.find? name).isSome

/-- Adds a macro, unless its name is taken. -/
def insert (ds : Definitions) (d : Definition) (place : Span) : Except MacroError Definitions :=
  if ds.contains d.name then .error (.duplicate d.name place) else .ok ⟨ds.toList ++ [d]⟩

end Definitions

/-- The value of a text of decimal digits; none for the empty text and for other characters. -/
def decimal? (digits : List Char) : Option Nat :=
  if !digits.isEmpty && digits.all Char.isDigit then
    some (digits.foldl (fun n c => 10 * n + (c.toNat - '0'.toNat)) 0)
  else none

/-- The number of arguments that a text asks for: decimal digits, after a plus sign or not and with
blanks around them or not, of a value that is not too large. -/
def arityOf? (text : String) : Option Nat :=
  let digits :=
    match (Text.trim text).toList with
    | '+' :: digits => digits
    | digits => digits
  (decimal? digits).filter (· ≤ maxArity)

namespace Definition

/-- The name of a node that is to be a macro. -/
def nameOf (t : Tree) (command : NodeId) : Except MacroError String :=
  match (t.node command).name? with
  | none => .error (.noCommand (t.span command))
  | some name =>
    if name = definingCommand then .error (.reserved (t.span command)) else .ok name

/-- The name that stands alone in a group. -/
def nameIn (t : Tree) (group : NodeId) : Except MacroError String :=
  match (t.soleElement .braces group).filter fun command => (t.node command).parameters.isEmpty with
  | some command => nameOf t command
  | none => .error (.noSingleCommand (t.span group))

/-- The number of arguments that a group asks for. -/
def arityIn (t : Tree) (name : String) (group : NodeId) : Except MacroError Nat :=
  match (t.soleText .brackets group).bind arityOf? with
  | some arity => .ok arity
  | none => .error (.badArity name (t.span group))

/-- The macro with the given body. -/
def withBody (t : Tree) (name : String) (arity : Nat) (group : NodeId) :
    Except MacroError Definition :=
  match t.node group with
  | .group .braces inner => .ok ⟨name, arity, t.extract inner⟩
  | _ => .error (.noBody name (t.span group))

/-- Reads the groups after the name. -/
def ofGroups (t : Tree) (name : String) (groups : List NodeId) (place : Span) :
    Except MacroError Definition :=
  match groups with
  | [body] => withBody t name 0 body
  | [count, body] => do withBody t name (← arityIn t name count) body
  | _ => .error (.groupCount name groups.length place)

/-- Reads the definition that a defining command makes which stands in a cell. Answers how many
elements of the chain it takes up. -/
def read (t : Tree) (command cell : NodeId) : Except MacroError (Definition × Nat) :=
  let place := t.span command
  match (t.node command).parameters with
  | group :: groups => do
    let name ← nameIn t group
    return (← ofGroups t name groups place, 1)
  | [] =>
    match ((t.tail cell).bind t.head).filter fun head => (t.node head).isCommand with
    | none => .error (.nothingFollows place)
    | some target => do
      let name ← nameOf t target
      let groups := (t.node target).parameters
      return (← ofGroups t name groups (place.union (t.span target)), 2)

end Definition

end Formulary
