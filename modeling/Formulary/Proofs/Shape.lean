import Formulary.Fault

/-!
# Shapes

The shape of a formula is what a tree says once positions and spans are forgotten: a chain is the
list of its elements, and an element holds what hangs under it. The empty node is an ordinary
element, so that every chain has at least one.

Shapes are the second side of most statements about trees. What a change of the store does is said
as what it does to a shape, and what a formula means is said of shapes alone. `Shape.chars` writes a
shape out.
-/

namespace Formulary

/-- An element of a formula with everything that hangs under it. -/
inductive Shape where
  /-- Text, escapes included. -/
  | literal (text : String)
  /-- Stands where a chain has no element. -/
  | empty
  /-- A chain between braces or brackets. -/
  | group (fence : Fence) (inner : List Shape)
  /-- A marker and its operand. -/
  | script (marker : Marker) (operand : Shape)
  /-- A command and its parameters. -/
  | command (name : String) (parameters : List Shape)
  /-- An environment: its name, its parameters and the chain of its body. -/
  | block (name : String) (parameters : List Shape) (body : List Shape)
  deriving Repr, Inhabited

namespace Shape

/-- Whether an element is text. -/
def isLiteral : Shape → Bool
  | .literal _ => true
  | _ => false

/-- Whether an element is a group. -/
def isGroup : Shape → Bool
  | .group .. => true
  | _ => false

/-- Whether an element can be the operand of a marker as it is: a group, a command, one character or
an escape. -/
def isAtomic : Shape → Bool
  | .group .. | .command .. => true
  | .literal text =>
    match text.toList with
    | [_] => true
    | [c, _] => c == '\\'
    | _ => false
  | _ => false

/-- The only element of a group with the given fence. -/
def soleElement (fence : Fence) : Shape → Option Shape
  | .group found [f] => if found = fence then some f else none
  | _ => none

/-- The text of a group with the given fence that holds one literal and nothing else. -/
def soleText (fence : Fence) (f : Shape) : Option String :=
  match f.soleElement fence with
  | some (.literal text) => some text
  | _ => none

/-- The chain of some elements: without any, it is one empty element. -/
def chain : List Shape → List Shape
  | [] => [.empty]
  | f :: fs => f :: fs

@[simp] theorem chain_cons (f : Shape) (fs : List Shape) : chain (f :: fs) = f :: fs := rfl

@[simp] theorem chain_nil : chain [] = [.empty] := rfl

/-- No chain is without elements. -/
theorem chain_ne_nil (fs : List Shape) : chain fs ≠ [] := by
  cases fs <;> simp

theorem chain_of_ne_nil {fs : List Shape} (h : fs ≠ []) : chain fs = fs := by
  cases fs with
  | nil => exact absurd rfl h
  | cons => rfl

/-! ## Writing -/

/-- The text of a command that delimits a block, with the name of the block between braces. -/
def delimiterChars (side : Delimiting) (name : String) : List Char :=
  Symbol.backslash.char :: (side.command.toList ++
    Fence.braces.opening.char :: (name.toList ++ [Fence.braces.closing.char]))

mutual

/-- The text of an element. -/
def chars : Shape → List Char
  | .literal text => text.toList
  | .empty => []
  | .group fence inner => fence.opening.char :: (charsOf inner ++ [fence.closing.char])
  | .script marker operand => marker.char :: operand.chars
  | .command name parameters => Symbol.backslash.char :: (name.toList ++ charsOf parameters)
  | .block name parameters body =>
    delimiterChars .opens name ++ (charsOf parameters ++
      (charsOf body ++ delimiterChars .closes name))

/-- The text of some elements, one after the other. -/
def charsOf : List Shape → List Char
  | [] => []
  | f :: fs => f.chars ++ charsOf fs

end

@[simp] theorem charsOf_nil : charsOf [] = [] := by
  rw [charsOf]

@[simp] theorem charsOf_cons (f : Shape) (fs : List Shape) :
    charsOf (f :: fs) = f.chars ++ charsOf fs := by
  rw [charsOf]

@[simp] theorem charsOf_append (fs gs : List Shape) :
    charsOf (fs ++ gs) = charsOf fs ++ charsOf gs := by
  induction fs with
  | nil => rfl
  | cons f fs ih => rw [List.cons_append, charsOf_cons, ih, charsOf_cons, List.append_assoc]

/-- The empty element of an empty chain has no text. -/
@[simp] theorem charsOf_chain (fs : List Shape) : charsOf (chain fs) = charsOf fs := by
  cases fs with
  | nil => simp [chars]
  | cons f fs => rfl

end Shape

end Formulary
