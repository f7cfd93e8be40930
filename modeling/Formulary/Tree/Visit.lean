import Formulary.Tree.Basic

/-!
# Visiting a tree

A visit shows every node of a subtree once, in the order in which the text has them, a node before
what hangs under it. Of a chain it shows the first cell and all elements; the later cells are passed
over. A visit is a program in any monad, so it may collect, stop early or fail.

With each node comes its depth: the number of groups and parameter lists around it.
-/

namespace Formulary.Tree

variable {m : Type → Type} [Monad m]

/-- Shows what hangs under a node, which is at `depth`, at most `limit` nodes down. -/
def visitBelow (t : Tree) (enter : Nat → NodeId → m Unit) : Nat → Nat → NodeId → m Unit
  | 0, _, _ => pure ()
  | limit + 1, depth, id =>
    let present (depth : Nat) (child : NodeId) : m Unit := do
      enter depth child
      visitBelow t enter limit depth child
    match t.node id with
    | .literal _ | .empty => pure ()
    | .sequence head none => present depth head
    | .sequence head (some next) => do
      present depth head
      visitBelow t enter limit depth next
    | .group _ inner => present (depth + 1) inner
    | .script _ operand => present depth operand
    | .command _ parameters => parameters.forM (present (depth + 1))
    | .block _ parameters body => do
      parameters.forM (present depth)
      present depth body

/-- Shows a node and what hangs under it, with depths counted from the node. -/
def visit (t : Tree) (enter : Nat → NodeId → m Unit) (id : NodeId) : m Unit := do
  enter 0 id
  t.visitBelow enter t.size 0 id

/-- The nodes that a visit shows, in its order. -/
def visited (t : Tree) (id : NodeId) : List NodeId :=
  ((t.visit (fun _ node => modify (node :: ·)) id : StateM (List NodeId) Unit).run []).2.reverse

/-- Whether a block stands anywhere in a subtree. -/
def containsBlock (t : Tree) (id : NodeId) : Bool :=
  (t.visited id).any fun node => (t.node node).isBlock

/-- The names of the commands of a subtree. -/
def commandNames (t : Tree) (id : NodeId) : List String :=
  (t.visited id).filterMap fun node =>
    if (t.node node).isCommand then (t.node node).name? else none

/-- All nodes of a subtree, later cells of chains included, each after what it hangs under and with
its level of indentation. The cells of one chain share a level; anything else is one level below
what it hangs under. -/
def outlineUpTo (t : Tree) : Nat → Nat → NodeId → List (Nat × NodeId)
  | 0, _, _ => []
  | limit + 1, level, id =>
    let below : List (Nat × NodeId) :=
      match t.node id with
      | .sequence head none => t.outlineUpTo limit (level + 1) head
      | .sequence head (some next) =>
        t.outlineUpTo limit (level + 1) head ++ t.outlineUpTo limit level next
      | node => node.children.flatMap (t.outlineUpTo limit (level + 1))
    (level, id) :: below

/-- The outline of a whole tree. -/
def outline (t : Tree) : List (Nat × NodeId) := t.outlineUpTo t.size 0 t.root

end Formulary.Tree
