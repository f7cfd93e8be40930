import Formulary.Block
import Formulary.Config
import Formulary.Macro.Expansion
import Formulary.Margin
import Formulary.Tree.Printer

/-!
# Fixing formulas

A fixer runs passes over a formula, one after the other: macros are expanded, environments are
renamed, and blanks at the margins are removed. The macros that a formula defines stay known for the
formulas after it, also when fixing the formula fails later on.

Expansion may go on forever, so it is given a number of steps, and fixing answers `none` when they
do not suffice.
-/

namespace Formulary

/-- A pass over formulas. -/
structure Pass where
  name : String
  run : Walk Definitions Fault Unit

namespace Pass

/-- Expands macros, in a number of steps. -/
def expandMacros (steps : Nat) : Pass := ⟨"expand-macros", Definitions.expandAll steps⟩

/-- Renames environments. -/
def renameEnvironments (r : Renames) : Pass :=
  ⟨"rename-environments", modify fun (t, ds) => (r.apply t, ds)⟩

/-- Removes blanks at the margins; formulas with blocks get line breaks there if `pad` is set. -/
def trimSpaces (pad : Bool) : Pass :=
  ⟨"trim-spaces", do
    let t ← Walk.tree
    Walk.edit ((Tree.setMargins pad).reportedAt (t.span t.root))⟩

/-- Adds text at the end of a formula. -/
def append (name text : String) : Pass :=
  ⟨name, do
    let t ← Walk.tree
    let place := t.span t.root
    Walk.edit (Edit.reportedAt place do
      let id ← Tree.alloc (.literal text) place
      let _ ← Tree.insertAfter (t.lastCell t.root) id)⟩

end Pass

/-- Programs that learn macros, fail with an `ε`, or do not end. The macros learned before a failure
stay at hand. -/
abbrev Fixing (ε : Type) := ExceptT ε (StateT Definitions Option)

/-- The settings and the passes that they ask for. -/
structure Fixer where
  config : Config
  passes : List Pass

namespace Fixer

/-- The passes that the settings ask for, in the order in which they run. -/
def passesOf (steps : Nat) (s : FixSettings) : List Pass :=
  (if s.expandMacros then [.expandMacros steps] else []) ++
  (if s.renameEnvironments then [.renameEnvironments s.renames] else []) ++
  (if s.trimSpaces then [.trimSpaces s.padBlocks] else [])

/-- The fixer for a configuration. -/
def ofConfig (steps : Nat) (c : Config) : Fixer := ⟨c, passesOf steps c.fixes⟩

/-- The fixer with one more pass at the end. -/
def withPass (f : Fixer) (p : Pass) : Fixer := { f with passes := f.passes ++ [p] }

/-- Names of the passes. -/
def passNames (f : Fixer) : List String := f.passes.map Pass.name

/-- Runs passes over a tree one after the other. -/
def runPasses (passes : List Pass) : Walk Definitions Fault Unit := passes.forM Pass.run

/-- Fixes a formula. -/
def fixExpression (f : Fixer) (source : String) : Fixing Fault String :=
  match Tree.parseMath source with
  | .error e => throw e
  | .ok t => ExceptT.mk fun ds => do
    let (result, t, ds) ← (runPasses f.passes).run.run (t, ds)
    return (result.map fun _ => t.text, ds)

end Fixer

end Formulary
