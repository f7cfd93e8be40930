import Formulary.Text.Blank
import Formulary.Tree.Surgery
import Formulary.Tree.Visit

/-!
# Margins

The blanks at both ends of a formula go, as far as they stand in literals of its own chain. A
formula with a block anywhere in it is then put on lines of its own: it gets a line break at either
end.
-/

namespace Formulary.Tree

/-- Removes the blanks at the start of a chain, looking at no more than the given number of
elements. -/
def trimStart (root : NodeId) : Nat → Edit SurgeryError Unit
  | 0 => return
  | limit + 1 => do
    let t ← get
    match t.head root with
    | none => return
    | some head =>
      let isLast := (t.tail root).isNone
      match t.node head with
      | .empty =>
        if !isLast then
          discard (delete root)
          trimStart root limit
      | .literal text =>
        if Text.startsBlank text then
          let trimmed := Text.trimLeft text
          if !trimmed.isEmpty then
            modify (·.setText head trimmed)
          else
            discard (delete root)
            if !isLast then
              trimStart root limit
      | _ => return

/-- Removes the blanks at the end of a chain, given its cells and elements from the last to the
first. -/
def trimEnd : List (NodeId × NodeId) → Edit SurgeryError Unit
  | [] => return
  | (cell, head) :: before => do
    match (← get).node head with
    | .empty => trimEnd before
    | .literal text =>
      if Text.endsBlank text then
        let trimmed := Text.trimRight text
        if !trimmed.isEmpty then
          modify (·.setText head trimmed)
        else
          discard (delete cell)
          trimEnd before
    | _ => return

/-- Puts a line break at the start of a chain. -/
def padStart (root : NodeId) : Edit SurgeryError Unit := do
  let t ← get
  let edge := Span.point (t.span root).start
  match (t.head root).map fun head => (head, t.node head) with
  | some (head, .literal text) => modify (·.setText head ("\n" ++ text))
  | some (head, .empty) => replace head (← alloc (.literal "\n") edge)
  | _ => discard (insertBefore root (← alloc (.literal "\n") edge))

/-- Puts a line break at the end of a chain. -/
def padEnd (root : NodeId) : Edit SurgeryError Unit := do
  let t ← get
  let last := t.lastCell root
  let edge := Span.point (t.span root).stop
  match (t.head last).map fun head => (head, t.node head) with
  | some (head, .literal text) => modify (·.setText head (text ++ "\n"))
  | some (head, .empty) => replace head (← alloc (.literal "\n") edge)
  | _ => discard (insertAfter last (← alloc (.literal "\n") edge))

/-- Trims a formula and, if asked to, puts it on lines of its own when it holds a block. -/
def setMargins (padBlocks : Bool) : Edit SurgeryError Unit := do
  let root := (← get).root
  trimStart root ((← get).cells root).length
  trimEnd ((← get).cells root).reverse
  if padBlocks && (← get).containsBlock root then
    padStart root
    padEnd root

end Formulary.Tree
