import Formulary.Element.Reader
import Formulary.Tree.Basic

/-!
# Laying out elements in a tree

The elements of a formula are put into a store from left to right, what hangs under an element
before the element itself, and the cells of a chain after all its elements.
-/

namespace Formulary.Tree

mutual

/-- Puts an element into the store. -/
def layElement : Element → StateM Tree NodeId
  | .literal text span => alloc (.literal text) span
  | .group fence inner span => do
    let heads ← layElements inner
    let inner ← chain ((span.drop 1).take 0) heads
    alloc (.group fence inner) span
  | .script marker operand span => do
    let operand ← layElement operand
    alloc (.script marker operand) span
  | .command name parameters span => do
    let parameters ← layElements parameters
    alloc (.command name parameters) span

/-- Puts elements into the store, one after the other. -/
def layElements : List Element → StateM Tree (List NodeId)
  | [] => pure []
  | e :: es => do
    let id ← layElement e
    let ids ← layElements es
    pure (id :: ids)

end

/-- The tree of a formula given by its elements. -/
def ofElements (elements : List Element) : Tree :=
  build do chain (Span.point 0) (← layElements elements)

/-- Reads a formula. Commands that delimit blocks stay ordinary commands. -/
def parse (text : String) : Except SyntaxError Tree := (Element.readAll text).map ofElements

end Formulary.Tree
