import Formulary.Tree.Basic

/-!
# Copies

A subtree is copied node by node into fresh positions, of another store or of its own. What hangs
under a node is copied before it, and a chain from its last element to its first. The copy hangs
under nothing.
-/

namespace Formulary.Tree

/-- Copies a node of `source` down to a depth. The copies stand for `place` if it is given, and
otherwise for what they are copies of. -/
def copyUpTo (source : Tree) (place : Option Span) : Nat → NodeId → StateM Tree NodeId
  | 0, id => alloc .empty (place.getD (source.span id))
  | depth + 1, id =>
    let span := place.getD (source.span id)
    match source.node id with
    | .literal text => alloc (.literal text) span
    | .empty => alloc .empty span
    | .sequence head none => do
      let head ← copyUpTo source place depth head
      alloc (.sequence head none) span
    | .sequence head (some next) => do
      let next ← copyUpTo source place depth next
      let head ← copyUpTo source place depth head
      alloc (.sequence head (some next)) span
    | .group fence inner => do
      let inner ← copyUpTo source place depth inner
      alloc (.group fence inner) span
    | .script marker operand => do
      let operand ← copyUpTo source place depth operand
      alloc (.script marker operand) span
    | .command name parameters => do
      let parameters ← parameters.mapM (copyUpTo source place depth)
      alloc (.command name parameters) span
    | .block name parameters body => do
      let parameters ← parameters.mapM (copyUpTo source place depth)
      let body ← copyUpTo source place depth body
      alloc (.block name parameters body) span

/-- Copies a node of `source`. -/
def copy (source : Tree) (place : Option Span) (id : NodeId) : StateM Tree NodeId :=
  copyUpTo source place source.size id

/-- A tree of its own with a copy of a node. -/
def extract (t : Tree) (id : NodeId) : Tree := build (t.copy none id)

/-- Copies a whole tree into the store. -/
def graft (source : Tree) (place : Option Span) : StateM Tree NodeId :=
  source.copy place source.root

/-- Copies a node within the store. -/
def deepCopy (id : NodeId) : StateM Tree NodeId := do
  graft ((← get).extract id) none

end Formulary.Tree
