import Formulary.Tree.Copy
import Formulary.Tree.Walk

/-!
# Ready-made visitors

Visitors for a walk that note what they are shown, take nodes out, or change the commands with a
given name.
-/

namespace Formulary

namespace Visitor

/-- Notes the kind of every node. -/
def noteKinds {ε : Type} : Visitor (List Kind) ε := fun id => do
  let t ← Walk.tree
  Walk.note (· ++ [t.kind id])
  Walk.descend

/-- Takes out every element of a chain that has a property. -/
def deleteWhere {σ : Type} (p : Node → Bool) : Visitor σ SurgeryError := fun id => do
  let t ← Walk.tree
  if p (t.node id) && (t.owningCell id).isSome then
    let _ ← Walk.edit (Tree.delete id)
    return .past
  else Walk.descend

/-- Takes out every literal that is an element of a chain. -/
def dropLiterals {σ : Type} : Visitor σ SurgeryError :=
  deleteWhere fun node => node.kind == .literal

/-- Takes out every script. -/
def dropScripts {σ : Type} : Visitor σ SurgeryError := fun id => do
  match (← Walk.tree).node id with
  | .script .. =>
    let _ ← Walk.edit (Tree.delete id)
    return .past
  | _ => Walk.descend

end Visitor

/-- What is done to a command. -/
inductive CommandEdit where
  /-- A command with this name and no parameters takes its place. -/
  | replace (name : String)
  /-- It is taken out. -/
  | delete
  /-- It gets this name. -/
  | rename (name : String)
  /-- A copy of this tree takes its place. -/
  | splice (source : Tree)
  deriving DecidableEq, Repr

namespace CommandEdit

/-- Puts a copy of a tree in the place of a node. Where there is no chain to take it up, it is put
between braces. -/
def spliceAt (source : Tree) (id : NodeId) : Edit SurgeryError Unit := do
  let place := (← get).span id
  let copy ← source.graft (some place)
  match (← get).owningCell id with
  | some cell => Tree.replace cell copy
  | none => Tree.replace id (← Tree.alloc (.group .braces copy) place)

/-- Does it, and says whether the walk goes on below the command. -/
def perform (e : CommandEdit) (id : NodeId) : Edit SurgeryError Descent := do
  match e with
  | .replace name =>
    Tree.replace id (← Tree.alloc (.command name []) (Span.point 0))
    return .past
  | .delete =>
    let _ ← Tree.delete id
    return .past
  | .rename name =>
    modify (·.rename id name)
    return .into
  | .splice source =>
    spliceAt source id
    return .past

end CommandEdit

/-- Notes the name of every command, and edits those with a given name. -/
def Visitor.editCommands (name : String) (e : CommandEdit) : Visitor (List String) SurgeryError :=
  fun id => do
    match (← Walk.tree).node id with
    | .command found _ =>
      Walk.note (· ++ [found])
      if found = name then Walk.edit (e.perform id) else Walk.descend
    | _ => Walk.descend

end Formulary
