import Formulary.Tree.Basic

/-!
# Writing trees

The text of a formula: literals as they are, groups between their fences, scripts with their
marker, commands with a backslash, and blocks between the two commands that delimit them.
-/

namespace Formulary.Tree

/-- The text of a node down to a depth. -/
def textUpTo (t : Tree) : Nat → NodeId → String
  | 0, _ => ""
  | depth + 1, id =>
    match t.node id with
    | .literal text => text
    | .empty => ""
    | .sequence head none => t.textUpTo depth head
    | .sequence head (some next) => t.textUpTo depth head ++ t.textUpTo depth next
    | .group fence inner => fence.opening.text ++ t.textUpTo depth inner ++ fence.closing.text
    | .script marker operand => marker.symbol.text ++ t.textUpTo depth operand
    | .command name parameters =>
      r"\" ++ name ++ String.join (parameters.map (t.textUpTo depth))
    | .block name parameters body =>
      r"\begin{" ++ name ++ r"}" ++ String.join (parameters.map (t.textUpTo depth)) ++
        t.textUpTo depth body ++ r"\end{" ++ name ++ r"}"

/-- The text of a node. No way down from a node is longer than the store, unless it runs in a
circle. -/
def nodeText (t : Tree) (id : NodeId) : String := t.textUpTo t.size id

/-- The text of a formula. -/
def text (t : Tree) : String := t.nodeText t.root

end Formulary.Tree
