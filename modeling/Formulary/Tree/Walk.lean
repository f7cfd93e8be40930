import Formulary.Tree.Surgery

/-!
# Walking a tree that changes

A walk goes through a subtree as a visit does, but lets the visitor change the tree at every step.
After each step it looks again at the place where it stands:

* when the element of a cell is not the one it has just shown, it shows the new one before it goes
  on to the next cell;
* when the operand of a script has been swapped, it shows the new operand;
* the parameters of a command are looked up by their index each time.

So nothing that a change puts in the place of a shown node is missed. A visitor that keeps putting
new nodes in its way keeps the walk going forever; a walk is therefore given a number of steps, and
answers `none` when they do not suffice.
-/

namespace Formulary

/-- Programs that change a tree and notes of type `σ`, fail with an `ε`, or do not end. The tree and
the notes as they were left stay at hand after a failure. -/
abbrev Walk (σ ε : Type) := ExceptT ε (StateT (Tree × σ) Option)

/-- What the walk does below a node that was shown. -/
inductive Descent where
  | into
  | past
  deriving DecidableEq, Repr

/-- What is done with each node. -/
abbrev Visitor (σ ε : Type) := NodeId → Walk σ ε Descent

variable {σ ε : Type}

namespace Walk

/-- The walk that does not end. -/
def endless {α : Type} : Walk σ ε α := ExceptT.mk fun _ => none

/-- The tree as it is now. -/
def tree : Walk σ ε Tree := return (← get).1

/-- The notes as they are now. -/
def notes : Walk σ ε σ := return (← get).2

/-- Changes the notes. -/
def note (f : σ → σ) : Walk σ ε Unit := modify fun (t, s) => (t, f s)

/-- Changes the tree by an edit. -/
def edit {α : Type} (e : Edit ε α) : Walk σ ε α :=
  ExceptT.mk fun (t, s) =>
    let (result, t) := e.run.run t
    some (result, t, s)

/-- Shows nothing more and goes below the node. -/
def descend : Walk σ ε Descent := pure .into

mutual

/-- Shows a node and walks below it. -/
def through (visitor : Visitor σ ε) : Nat → NodeId → Walk σ ε Unit
  | 0, _ => endless
  | steps + 1, id => do
    match ← visitor id with
    | .past => return
    | .into =>
      match (← tree).node id with
      | .literal _ | .empty => return
      | .sequence .. => alongChain visitor steps id
      | .group _ inner => through visitor steps inner
      | .script .. => toOperand visitor steps id
      | .command .. => toParameters visitor steps id 0
      | .block .. =>
        toParameters visitor steps id 0
        if let .block _ _ body := (← tree).node id then
          through visitor steps body

/-- Walks along a chain from a cell. -/
def alongChain (visitor : Visitor σ ε) : Nat → NodeId → Walk σ ε Unit
  | 0, _ => endless
  | steps + 1, cell => do
    match (← tree).head cell with
    | none => return
    | some head =>
      through visitor steps head
      let t ← tree
      if t.head cell ≠ some head then
        alongChain visitor steps cell
      else if let some next := t.tail cell then
        alongChain visitor steps next

/-- Walks to the operand of a script. -/
def toOperand (visitor : Visitor σ ε) : Nat → NodeId → Walk σ ε Unit
  | 0, _ => endless
  | steps + 1, script => do
    match (← tree).operand script with
    | none => return
    | some operand =>
      through visitor steps operand
      if (← tree).operand script ≠ some operand then
        toOperand visitor steps script

/-- Walks to the parameters of a command or a block from an index on. -/
def toParameters (visitor : Visitor σ ε) : Nat → NodeId → Nat → Walk σ ε Unit
  | 0, _, _ => endless
  | steps + 1, id, index => do
    match (← tree).parameter id index with
    | none => return
    | some parameter =>
      through visitor steps parameter
      toParameters visitor steps id (index + 1)

end

end Walk

end Formulary
