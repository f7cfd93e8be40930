import Formulary.Fault
import Formulary.Tree.Layout
import Formulary.Tree.Printer
import Formulary.Tree.Visit

/-!
# Blocks

The two commands that delimit a block are read like any others. This module pairs them up and puts
one block in the place of each pair and everything between. The parameters of the opening command
after the name become parameters of the block; those of the closing command stay in the text, after
the block.

The commands are collected in the order of the text and paired with a stack. A pair must have one
name and stand in one chain.
-/

namespace Formulary

/-- A command that delimits a block. -/
structure BlockMarker where
  side : Delimiting
  name : String
  command : NodeId
  depth : Nat
  deriving DecidableEq, Repr

namespace BlockMarker

/-- Whether a text is a name for a block: ASCII letters and stars, at least one. -/
def isName (name : String) : Bool :=
  !name.isEmpty && name.toList.all fun c => c.isAlpha || c == '*'

/-- The delimiting command with a name, if it is one of the two. -/
def side? (name : String) : Option Delimiting :=
  if name = Delimiting.opens.command then some .opens
  else if name = Delimiting.closes.command then some .closes
  else none

/-- The name of the block that a delimiting command opens or closes. -/
def readName (t : Tree) (side : Delimiting) (command : NodeId) : Except BlockError String :=
  match t.parameter command 0 with
  | none => .error (.missingName side (t.span command))
  | some parameter =>
    match (t.soleText .braces parameter).filter isName with
    | some name => .ok name
    | none => .error (.badName side (t.nodeText parameter) (t.span command))

/-- Collects the delimiting commands of a tree in the order of its text. -/
def collect (t : Tree) : Except BlockError (List BlockMarker) := do
  let enter (depth : Nat) (id : NodeId) : StateT (List BlockMarker) (Except BlockError) Unit := do
    if let .command word _ := t.node id then
      if let some side := side? word then
        let name ← readName t side id
        modify (⟨side, name, id, depth⟩ :: ·)
  let ((), found) ← (t.visit enter t.root).run []
  return found.reverse

end BlockMarker

namespace Tree

/-- Whether one node follows another, or is the same, in a chain. -/
def inOneChain (t : Tree) (first second : NodeId) : Bool :=
  match t.owningCell first, t.owningCell second with
  | some start, some stop => (t.cells start).any fun (cell, _) => cell == stop
  | _, _ => false

/-- Why two commands cannot delimit one block, if they cannot. -/
def pairError? (t : Tree) (first last : BlockMarker) : Option BlockError :=
  if first.name ≠ last.name then
    some (.nameMismatch first.name last.name (t.span first.command) (t.span last.command))
  else if first.depth ≠ last.depth || !t.inOneChain first.command last.command then
    some (.contextMismatch first.name (t.span first.command) (t.span last.command))
  else none

/-- Cuts what stands between two cells of a chain out as a chain of its own. -/
def cutBetween (first last : NodeId) (place : Span) : StateM Tree NodeId := do
  let t ← get
  match (t.tail first).filter (· ≠ last) with
  | some start =>
    if let some (before, _) := (t.cells start).find? fun (cell, _) => t.tail cell == some last then
      modify (·.setTail before none)
    modify (·.setParent start none)
    return start
  | none => chain place []

/-- Puts elements after a cell, one after the other. -/
def insertAllAfter (cell : NodeId) : List NodeId → Edit SurgeryError Unit
  | [] => return
  | node :: nodes => do
    modify (·.setParent node none)
    let next ← insertAfter cell node
    insertAllAfter next nodes

/-- Puts a block in the place of everything from one command to another. -/
def spliceBlock (first last : BlockMarker) : Edit Fault Unit := do
  let t ← get
  match t.owningCell first.command, t.owningCell last.command with
  | some start, some stop =>
    let opening := t.span first.command
    let place := opening.union (t.span last.command)
    let body ← cutBetween start stop (Span.point opening.stop)
    let rest := (← get).tail stop
    let block ← alloc (.block first.name ((t.node first.command).parameters.drop 1) body) place
    modify fun t =>
      ((t.setParent first.command none).setParent last.command none).setCell start block rest
    (insertAllAfter start ((t.node last.command).parameters.drop 1)).reportedAt place
  | _, _ => throw (.block (.outOfChain (t.span first.command)))

/-- Pairs up commands, given those that are still open, the innermost first. -/
def pairBlocks (opened : List BlockMarker) : List BlockMarker → Edit Fault Unit
  | [] => do
    if !opened.isEmpty then
      let t ← get
      throw (.block (.unclosed (opened.reverse.map fun m => (m.name, t.span m.command))))
  | marker :: markers => do
    match marker.side, opened with
    | .opens, _ => pairBlocks (marker :: opened) markers
    | .closes, [] =>
      let t ← get
      throw (.block (.unopened marker.name (t.span marker.command)))
    | .closes, first :: opened =>
      match (← get).pairError? first marker with
      | some e => throw (.block e)
      | none =>
        spliceBlock first marker
        pairBlocks opened markers

/-- Puts blocks in the place of the commands that delimit them. -/
def resolveBlocks : Edit Fault Unit := do
  match BlockMarker.collect (← get) with
  | .error e => throw (.block e)
  | .ok markers => pairBlocks [] markers

/-- Reads a formula with its blocks. -/
def parseMath (text : String) : Except Fault Tree :=
  match parse text with
  | .error e => .error (.text e)
  | .ok t =>
    match resolveBlocks.run.run t with
    | (.ok (), t) => .ok t
    | (.error e, _) => .error e

end Tree

end Formulary
