import Formulary.Macro.Definition
import Formulary.Macro.Placeholder
import Formulary.Tree.Visit
import Formulary.Tree.Walk

/-!
# Macro expansion

A walk through a formula takes every definition out of it and puts, in the place of every use of a
known macro, a copy of the body with the arguments in the place of its placeholders. The walk then
looks at what has come there, so uses that a body or an argument brings are expanded as well. A
macro that brings itself back keeps the walk going.

Copies stand for the text of the use they replace.

A placeholder right after a marker is read as an operand that is a lone hash sign with the digit in
the next literal; it is filled in as an operand, and the digit goes.
-/

namespace Formulary

namespace Tree

/-- Whether a node can be the operand of a marker as it is: a group, a command, one character or an
escape. -/
def isAtomic : Node → Bool
  | .group .. | .command .. => true
  | .literal text =>
    match text.toList with
    | [_] => true
    | [c, _] => c == '\\'
    | _ => false
  | _ => false

/-- Copies the elements of an argument. -/
def copyArgument (argument : NodeId) : StateM Tree (List NodeId) := do
  let inner :=
    match (← get).node argument with
    | .group _ inner => inner
    | _ => argument
  let copy ← deepCopy inner
  let t ← get
  return (t.elements copy).filter fun head => t.node head ≠ .empty

/-- An operand out of elements: the only one if it can stand there as it is, or else a group around
them. -/
def operandOf (place : Span) (heads : List NodeId) : StateM Tree NodeId := do
  match heads with
  | [head] =>
    if isAtomic ((← get).node head) then deepCopy head
    else alloc (.group .braces (← chain place heads)) place
  | _ => alloc (.group .braces (← chain place heads)) place

end Tree

namespace Definition

open Formulary.Tree

/-- The argument that a placeholder refers to. -/
def argumentAt (d : Definition) (arguments : List NodeId) (index : Nat) (place : Span) :
    Except Fault NodeId :=
  match if 1 ≤ index && index ≤ d.arity then arguments[index - 1]? else none with
  | some argument => .ok argument
  | none => .error (.expansion (.placeholderRange index d.name d.arity place))

/-- The placeholder that a script stands for together with the literal after it: the cell of that
literal, the literal, its text after the digit, and the number of the argument. -/
def scriptPlaceholder? (t : Tree) (script : NodeId) :
    Option (NodeId × NodeId × List Char × Nat) := do
  let next ← (t.owningCell script).bind t.tail
  let literal ← t.head next
  match ((t.node literal).literal?).map String.toList with
  | some (c :: rest) =>
    let index ← argumentDigit? c
    return (next, literal, rest, index)
  | _ => none

/-- Fills in a placeholder that is the operand of a script. A hash sign that no digit follows stays
as it is. -/
def fillScript (d : Definition) (arguments : List NodeId) (script : NodeId) : Edit Fault Unit := do
  let t ← get
  let place := t.span script
  match t.operand script, scriptPlaceholder? t script with
  | some operand, some (next, literal, rest, index) =>
    let argument ← d.argumentAt arguments index (place.union (t.span literal))
    let replacement ← operandOf place (← copyArgument argument)
    (replace operand replacement).reportedAt place
    modify (·.setText literal (String.ofList rest))
    if rest.isEmpty then
      discard <| (delete next).reportedAt place
  | _, _ => return

/-- The elements that a literal becomes. -/
def fillPieces (d : Definition) (arguments : List NodeId) (place : Span) :
    List Piece → Edit Fault (List NodeId)
  | [] => return []
  | .text run :: pieces => do
    let head ← alloc (.literal (String.ofList run)) place
    return head :: (← fillPieces d arguments place pieces)
  | .argument index :: pieces => do
    let heads ← copyArgument (← d.argumentAt arguments index place)
    return heads ++ (← fillPieces d arguments place pieces)

/-- Fills in the placeholders of a literal. -/
def fillLiteral (d : Definition) (arguments : List NodeId) (literal : NodeId) :
    Edit Fault Unit := do
  let t ← get
  let place := t.span literal
  let text := ((t.node literal).literal?).getD ""
  let heads ← d.fillPieces arguments place (Piece.split text.toList)
  let filled ← chain place heads
  match (← get).owningCell literal with
  | none => throw (.surgery (.notInSequence literal .literal) place)
  | some cell => (replace cell filled).reportedAt place

/-- The scripts of a subtree whose operand is a lone hash sign. -/
def hashScripts (t : Tree) (id : NodeId) : List NodeId :=
  (t.visited id).filter fun node =>
    (t.operand node).any fun operand => (t.node operand).literal? == some "#"

/-- The literals of a subtree that hold placeholders. -/
def placeholderLiterals (t : Tree) (id : NodeId) : List NodeId :=
  (t.visited id).filter fun node =>
    ((t.node node).literal?).any fun text => hasPlaceholder text.toList

/-- Fills in all placeholders of a copy of the body. -/
def fill (d : Definition) (arguments : List NodeId) (body : NodeId) : Edit Fault Unit := do
  let t ← get
  (hashScripts t body).forM (d.fillScript arguments)
  (placeholderLiterals t body).forM (d.fillLiteral arguments)

/-- A copy of the body with its placeholders filled in, before it is put anywhere. -/
def instantiated (d : Definition) (arguments : List NodeId) (place : Span) :
    Edit Fault NodeId := do
  let body ← graft d.body (some place)
  d.fill arguments body
  return body

/-- Whether a chain has no element. -/
def isEmptyChain (t : Tree) (chain : NodeId) : Bool :=
  (t.singleHead chain).any fun head => t.node head == .empty

/-- Puts the body in the place of a use that is no element of a chain: its only element if that can
stand there, or a group around all of it. -/
def placeOperand (use body : NodeId) (place : Span) : Edit SurgeryError Unit := do
  let t ← get
  let replacement ←
    match (t.singleHead body).filter fun head => isAtomic (t.node head) with
    | some head => deepCopy head
    | none => alloc (.group .braces body) place
  replace use replacement

/-- Puts the body in the place of a use. -/
def place (use body : NodeId) (place : Span) : Edit SurgeryError Unit := do
  let t ← get
  match t.owningCell use with
  | some cell => if isEmptyChain t body then discard (delete cell) else replace cell body
  | none => placeOperand use body place

/-- Expands a use of the macro. -/
def expand (d : Definition) (use : NodeId) : Edit Fault Unit := do
  let t ← get
  let span := t.span use
  let arguments := (t.node use).parameters
  if arguments.length ≠ d.arity then
    throw (.expansion (.argumentCount d.name d.arity arguments.length span))
  else
    let body ← d.instantiated arguments span
    (place use body span).reportedAt span

end Definition

namespace Definitions

/-- Deletes the element of a cell, and as many after it as asked for. -/
def deleteElements (cell : NodeId) : Nat → Edit SurgeryError Unit
  | 0 => return
  | count + 1 => do
    discard (Tree.delete cell)
    deleteElements cell count

/-- Takes the definition that a defining command makes out of the formula. -/
def define (command : NodeId) : Walk Definitions Fault Unit := do
  let t ← Walk.tree
  let place := t.span command
  match t.owningCell command with
  | none => throw (.expansion (.misplaced place))
  | some cell =>
    match Definition.read t command cell with
    | .error e => throw (.expansion e)
    | .ok (d, count) =>
      match (← Walk.notes).insert d place with
      | .error e => throw (.expansion e)
      | .ok ds =>
        Walk.note fun _ => ds
        Walk.edit ((deleteElements cell count).reportedAt place)

/-- What expansion does with each node. -/
def visitor : Visitor Definitions Fault := fun id => do
  match (← Walk.tree).node id with
  | .command name _ =>
    if name = definingCommand then
      define id
      return .past
    else
      match (← Walk.notes).find? name with
      | some d =>
        Walk.edit (d.expand id)
        return .past
      | none => return .into
  | _ => return .into

/-- Takes the definitions out of a formula and expands the macros in it, in the given number of
steps. -/
def expandAll (steps : Nat) : Walk Definitions Fault Unit := do
  Walk.through visitor steps (← Walk.tree).root

end Definitions

end Formulary
