import Formulary.Tree.Visit

/-!
# Renaming environments

Formulas are shown inside an outer environment, in which some environments have to go by another
name. All blocks of a formula are renamed at once: a new name is not looked up again.
-/

namespace Formulary

/-- Old names of environments and their new names. -/
structure Renames where
  toList : List (String × String)
  deriving DecidableEq, Repr

namespace Renames

/-- Both forms of the aligned environment get the name of the inner one. -/
def standard : Renames := ⟨[("align", "aligned"), ("align*", "aligned")]⟩

/-- The new name for an old one. -/
def find? (r : Renames) (name : String) : Option String := r.toList.lookup name

/-- Renames a node if it is a block with an old name. -/
def renameNode (r : Renames) (t : Tree) (id : NodeId) : Tree :=
  match t.node id with
  | .block name .. =>
    match r.find? name with
    | some new => t.rename id new
    | none => t
  | _ => t

/-- Renames all blocks of a formula. -/
def apply (r : Renames) (t : Tree) : Tree := (t.visited t.root).foldl r.renameNode t

end Renames

end Formulary
