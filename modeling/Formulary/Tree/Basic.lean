import Formulary.Element

/-!
# Trees

A formula that is being changed lives in a store of nodes. A node is named by its position there;
positions are never given out twice and a node that is cut out of the formula simply stays behind,
so whoever changes a formula may hold on to the names of nodes while their surroundings change.

* `Node`: what stands at a position. The elements of a formula, of a group or of a block form a
  chain of `sequence` cells, each with one element and the next cell; a chain without elements is
  one cell that holds the `empty` node.
* `Slot`: a node, the node it hangs under, and the stretch of text it stands for.
* `Tree`: the store and the root of the formula in it.

Reading the store is total: a position that was never given out reads as an empty node that hangs
under nothing. Changes that cannot fail are `StateM Tree` programs.
-/

namespace Formulary

/-- A node is named by its position in the store. -/
abbrev NodeId := Nat

/-- What a node is, without what hangs under it. -/
inductive Kind where
  | literal
  | empty
  | sequence
  | group
  | superscript
  | subscript
  | command
  | block
  deriving DecidableEq, Repr

/-- What a message calls a node of this kind. -/
def Kind.word : Kind → String
  | .literal => "literal"
  | .empty => "empty"
  | .sequence => "sequence"
  | .group => "group"
  | .superscript => "superscript"
  | .subscript => "subscript"
  | .command => "command"
  | .block => "block"

/-- A node of a formula. -/
inductive Node where
  /-- Text. -/
  | literal (text : String)
  /-- Stands where a chain has no element and is written as nothing. -/
  | empty
  /-- A cell of a chain: one element and the next cell. -/
  | sequence (head : NodeId) (tail : Option NodeId)
  /-- A chain between braces or brackets. -/
  | group (fence : Fence) (inner : NodeId)
  /-- A marker and its operand. -/
  | script (marker : Marker) (operand : NodeId)
  /-- A command and its parameters. -/
  | command (name : String) (parameters : List NodeId)
  /-- Everything from the start of an environment to its end. -/
  | block (name : String) (parameters : List NodeId) (body : NodeId)
  deriving DecidableEq, Repr

namespace Node

/-- The kind of a node. -/
def kind : Node → Kind
  | .literal _ => .literal
  | .empty => .empty
  | .sequence .. => .sequence
  | .group .. => .group
  | .script .superscript _ => .superscript
  | .script .subscript _ => .subscript
  | .command .. => .command
  | .block .. => .block

/-- Whether a node is a cell of a chain. -/
def isSequence : Node → Bool
  | .sequence .. => true
  | _ => false

/-- Whether a node is a command. -/
def isCommand : Node → Bool
  | .command .. => true
  | _ => false

/-- Whether a node is a block. -/
def isBlock : Node → Bool
  | .block .. => true
  | _ => false

/-- The text of a literal. -/
def literal? : Node → Option String
  | .literal text => some text
  | _ => none

/-- The name of a command or a block. -/
def name? : Node → Option String
  | .command name _ | .block name _ _ => some name
  | _ => none

/-- The parameters of a command or a block. -/
def parameters : Node → List NodeId
  | .command _ parameters | .block _ parameters _ => parameters
  | _ => []

/-- What hangs directly under a node, in the order in which it is written. -/
def children : Node → List NodeId
  | .literal _ | .empty => []
  | .sequence head tail => head :: tail.toList
  | .group _ inner => [inner]
  | .script _ operand => [operand]
  | .command _ parameters => parameters
  | .block _ parameters body => parameters ++ [body]

end Node

/-- A position of the store: the node there, what it hangs under, and where it was written. -/
structure Slot where
  node : Node
  parent : Option NodeId
  span : Span
  deriving DecidableEq, Repr

/-- A formula: a store of nodes and the first cell of the chain of its elements. -/
structure Tree where
  slots : Array Slot
  root : NodeId
  deriving DecidableEq, Repr

namespace Tree

/-! ## Reading -/

/-- Number of positions given out so far. -/
def size (t : Tree) : Nat := t.slots.size

/-- The slot at a position. -/
def slot (t : Tree) (id : NodeId) : Slot := t.slots.getD id ⟨.empty, none, Span.point 0⟩

/-- The node at a position. -/
def node (t : Tree) (id : NodeId) : Node := (t.slot id).node

/-- What a node hangs under. -/
def parent (t : Tree) (id : NodeId) : Option NodeId := (t.slot id).parent

/-- The stretch of text a node stands for. -/
def span (t : Tree) (id : NodeId) : Span := (t.slot id).span

/-- The kind of the node at a position. -/
def kind (t : Tree) (id : NodeId) : Kind := (t.node id).kind

/-- Whether a cell of a chain is at a position. -/
def isSequence (t : Tree) (id : NodeId) : Bool := (t.node id).isSequence

/-- The element of a cell. -/
def head (t : Tree) (id : NodeId) : Option NodeId :=
  match t.node id with
  | .sequence head _ => some head
  | _ => none

/-- The cell after a cell. -/
def tail (t : Tree) (id : NodeId) : Option NodeId :=
  match t.node id with
  | .sequence _ tail => tail
  | _ => none

/-- The operand of a script. -/
def operand (t : Tree) (id : NodeId) : Option NodeId :=
  match t.node id with
  | .script _ operand => some operand
  | _ => none

/-- One of the parameters of a command or a block. -/
def parameter (t : Tree) (id : NodeId) (index : Nat) : Option NodeId :=
  (t.node id).parameters[index]?

/-- The cells of a chain with their elements, at most `limit` of them. -/
def cellsUpTo (t : Tree) : Nat → NodeId → List (NodeId × NodeId)
  | 0, _ => []
  | limit + 1, id =>
    match t.node id with
    | .sequence head none => [(id, head)]
    | .sequence head (some next) => (id, head) :: cellsUpTo t limit next
    | _ => []

/-- The cells of the chain that starts at a node, with their elements. A chain that does not run
in a circle has at most as many cells as the store has positions. -/
def cells (t : Tree) (id : NodeId) : List (NodeId × NodeId) := t.cellsUpTo t.size id

/-- The elements of the chain that starts at a node. -/
def elements (t : Tree) (id : NodeId) : List NodeId := (t.cells id).map (·.2)

/-- The last cell of the chain that starts at a node, the node itself if it is no cell. -/
def lastCell (t : Tree) (id : NodeId) : NodeId := ((t.cells id).getLast?.map (·.1)).getD id

/-- The cell that holds a node as its element; a cell is held by itself. Operands and parameters
have no such cell. -/
def owningCell (t : Tree) (id : NodeId) : Option NodeId :=
  if t.isSequence id then some id
  else (t.parent id).filter fun parent => t.head parent == some id

/-- The element of a chain that has just one. -/
def singleHead (t : Tree) (id : NodeId) : Option NodeId :=
  match t.node id with
  | .sequence head none => some head
  | _ => none

/-- The only element of a group with the given fence. -/
def soleElement (t : Tree) (fence : Fence) (group : NodeId) : Option NodeId :=
  match t.node group with
  | .group found inner => if found = fence then t.singleHead inner else none
  | _ => none

/-- The text of a group with the given fence that holds one literal and nothing else. -/
def soleText (t : Tree) (fence : Fence) (group : NodeId) : Option String :=
  (t.soleElement fence group).bind fun head => (t.node head).literal?

/-! ## Changing what is there -/

/-- Changes the slot at a position. -/
def modifySlot (t : Tree) (id : NodeId) (f : Slot → Slot) : Tree :=
  { t with slots := t.slots.modify id f }

/-- Changes the node at a position and nothing else. -/
def setNode (t : Tree) (id : NodeId) (node : Node) : Tree :=
  t.modifySlot id fun slot => { slot with node := node }

/-- Records what a node hangs under. -/
def setParent (t : Tree) (id : NodeId) (parent : Option NodeId) : Tree :=
  t.modifySlot id fun slot => { slot with parent := parent }

/-- Records that nodes hang under a node. -/
def adopt (t : Tree) (parent : NodeId) (children : List NodeId) : Tree :=
  children.foldl (fun t child => t.setParent child (some parent)) t

/-- Makes a node a cell with the given element and next cell, and adopts them. -/
def setCell (t : Tree) (cell head : NodeId) (tail : Option NodeId) : Tree :=
  (t.setNode cell (.sequence head tail)).adopt cell (head :: tail.toList)

/-- Changes the next cell of a cell and adopts it. -/
def setTail (t : Tree) (cell : NodeId) (tail : Option NodeId) : Tree :=
  let changed :=
    match t.node cell with
    | .sequence head _ => t.setNode cell (.sequence head tail)
    | _ => t
  changed.adopt cell tail.toList

/-- Changes the text of a literal; other nodes stay as they are. -/
def setText (t : Tree) (id : NodeId) (text : String) : Tree :=
  match t.node id with
  | .literal _ => t.setNode id (.literal text)
  | _ => t

/-- Renames a command or a block; other nodes stay as they are. -/
def rename (t : Tree) (id : NodeId) (name : String) : Tree :=
  match t.node id with
  | .command _ parameters => t.setNode id (.command name parameters)
  | .block _ parameters body => t.setNode id (.block name parameters body)
  | _ => t

/-! ## Growing -/

/-- Puts a node at the next free position and adopts what hangs under it. -/
def alloc (node : Node) (span : Span) : StateM Tree NodeId :=
  modifyGet fun t =>
    (t.size, { t with slots := t.slots.push ⟨node, none, span⟩ }.adopt t.size node.children)

/-- Builds the chain of some elements from its last cell to its first. Each cell stands for the
text from its element to the end of the chain; a chain without elements stands at `fallback`. -/
def chain (fallback : Span) : List NodeId → StateM Tree NodeId
  | [] => do
    let empty ← alloc .empty fallback
    alloc (.sequence empty none) fallback
  | [last] => do
    alloc (.sequence last none) ((← get).span last)
  | head :: rest => do
    let tail ← chain fallback rest
    let t ← get
    alloc (.sequence head (some tail)) ((t.span head).union (t.span tail))

/-- The tree that a program builds in an empty store, rooted at the node it answers. -/
def build (program : StateM Tree NodeId) : Tree :=
  let (root, t) := program.run ⟨#[], 0⟩
  { t with root := root }.setParent root none

/-- The formula without elements. -/
def blank : Tree := build (chain (Span.point 0) [])

end Tree

end Formulary
