import Formulary.Tree.Basic

/-!
# Surgery

Changes to a chain while something walks along it. A cell never loses its position: deleting an
element pulls the next one into its cell, and at the end of a chain an empty node takes its place;
replacing a cell by a chain puts the first new element into that cell. So whoever holds the cell
finds there what the change put in its place.

Surgery can be misused, and then answers a `SurgeryError`. It is written as an `Edit`: the tree as
the program left it stays at hand also when the program fails.
-/

namespace Formulary

/-- Misuse of surgery. -/
inductive SurgeryError where
  /-- A chain in the place of an element, or an element in the place of a chain. -/
  | kindMismatch (found replacement : Kind)
  /-- A node that is no element of a chain. -/
  | notInSequence (node : NodeId) (kind : Kind)
  /-- A node to replace that hangs under nothing. -/
  | detached (node : NodeId)
  /-- A node to put in that still hangs under another. -/
  | attached (node : NodeId)
  deriving DecidableEq, Repr

/-- What a message calls a node. -/
def nodeName (id : NodeId) : String := "#" ++ toString id

/-- The misuse as it is told. -/
def SurgeryError.message : SurgeryError → String
  | .kindMismatch found replacement =>
    "cannot replace a " ++ found.word ++ " node with a " ++ replacement.word ++ " node"
  | .notInSequence node kind =>
    kind.word ++ " node " ++ nodeName node ++ " is not an element of a sequence"
  | .detached node => "node " ++ nodeName node ++ " has no parent to attach a replacement to"
  | .attached node => "node " ++ nodeName node ++ " is still attached to the tree"

/-- Changes to a tree that can fail. -/
abbrev Edit (ε : Type) := ExceptT ε (StateM Tree)

namespace Tree

/-- The error for a node that is no element of a chain. -/
def notInSequence (t : Tree) (id : NodeId) : SurgeryError := .notInSequence id (t.kind id)

/-- Removes an element, given by itself or by its cell, from its chain. Answers the cell, which now
holds the element after it, or an empty node if there is none. -/
def delete (id : NodeId) : Edit SurgeryError NodeId := do
  let t ← get
  match t.owningCell id with
  | none => throw (t.notInSequence id)
  | some cell =>
    if let some old := t.head cell then
      modify (·.setParent old none)
    match t.tail cell with
    | some next =>
      match t.head next with
      | none => throw (t.notInSequence next)
      | some head =>
        modify fun t => (t.setCell cell head (t.tail next)).setParent next none
    | none =>
      let empty ← alloc .empty ((t.span cell).take 0)
      modify (·.setCell cell empty none)
    return cell

/-- Puts `new` in the place of `old` wherever it hangs directly under a node. The next cell of a
cell stays. -/
def redirect (t : Tree) (parent old new : NodeId) : Tree :=
  let swap (id : NodeId) : NodeId := if id = old then new else id
  match t.node parent with
  | .literal _ | .empty => t
  | .sequence head tail => t.setNode parent (.sequence (swap head) tail)
  | .group fence inner => t.setNode parent (.group fence (swap inner))
  | .script marker operand => t.setNode parent (.script marker (swap operand))
  | .command name parameters => t.setNode parent (.command name (parameters.map swap))
  | .block name parameters body =>
    t.setNode parent (.block name (parameters.map swap) (swap body))

/-- Puts a chain in the place of a cell: the cell gets the first new element, and what came after
the cell comes after the last. -/
def replaceCell (cell chain : NodeId) : Edit SurgeryError Unit := do
  let t ← get
  if let some old := t.head cell then
    modify (·.setParent old none)
  let last := t.lastCell chain
  match t.head chain with
  | none => throw (t.notInSequence chain)
  | some head =>
    modify (·.setCell cell head (t.tail chain))
    if let some next := t.tail cell then
      modify (·.setTail (if last = chain then cell else last) (some next))

/-- Puts an element in the place of another under the same node. -/
def replaceElement (old new : NodeId) : Edit SurgeryError Unit := do
  let t ← get
  match t.parent old with
  | none => throw (.detached old)
  | some parent =>
    modify fun t =>
      ((t.redirect parent old new).setParent new (some parent)).setParent old none

/-- Puts a chain in the place of a cell, or an element in the place of an element. The new node must
hang under nothing. -/
def replace (old new : NodeId) : Edit SurgeryError Unit := do
  let t ← get
  if (t.parent new).isSome || new == t.root then
    throw (.attached new)
  else
    match t.isSequence old, t.isSequence new with
    | true, true => replaceCell old new
    | false, false => replaceElement old new
    | _, _ => throw (.kindMismatch (t.kind old) (t.kind new))

/-- Why a node cannot be put beside the element of a cell, if it cannot. -/
def insertionError? (t : Tree) (cell node : NodeId) : Option SurgeryError :=
  if !t.isSequence cell then some (t.notInSequence cell)
  else if t.isSequence node then some (.kindMismatch (t.kind cell) (t.kind node))
  else if (t.parent node).isSome then some (.attached node)
  else none

/-- Puts an element right after the element of a cell. Answers its new cell. -/
def insertAfter (cell node : NodeId) : Edit SurgeryError NodeId := do
  let t ← get
  match t.insertionError? cell node with
  | some e => throw e
  | none =>
    let inserted ← alloc (.sequence node (t.tail cell)) (t.span node)
    modify (·.setTail cell (some inserted))
    return inserted

/-- Puts an element right before the element of a cell. The cell then holds the new element; answers
the new cell of the old one. -/
def insertBefore (cell node : NodeId) : Edit SurgeryError NodeId := do
  let t ← get
  match t.insertionError? cell node, t.head cell with
  | some e, _ => throw e
  | none, none => throw (t.notInSequence cell)
  | none, some head =>
    let moved ← alloc (.sequence head (t.tail cell)) (t.span cell)
    modify (·.setCell cell node (some moved))
    return moved

end Tree

end Formulary
