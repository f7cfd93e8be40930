import Formulary.Failure
import Formulary.Fixer
import Formulary.Region

/-!
# Fixing documents

The formulas of a document are fixed from left to right, and everything else stays. What happens
when a formula cannot be fixed is a matter of policy:

* the document fails, with the labels moved to where the formula stands in it;
* or the formula stays as it is, what it has defined is forgotten, and its diagnostics become
  warnings.
-/

namespace Formulary

/-- A piece of a document that was fixed, with the warnings about it. -/
structure Fixed where
  text : String
  skipped : List Diagnostic
  deriving DecidableEq, Repr

/-- Two pieces in a row. -/
def Fixed.append (a b : Fixed) : Fixed := ⟨a.text ++ b.text, a.skipped ++ b.skipped⟩

namespace Fixer

/-- Fixes what stands between the delimiters of a region. -/
def fixContent (f : Fixer) (content : String) (span : Span) : Fixing Diagnosis Fixed :=
  ExceptT.mk fun ds => do
    match ← (f.fixExpression content).run.run ds with
    | (.ok text, learned) => return (.ok ⟨text, []⟩, learned)
    | (.error fault, learned) =>
      let diagnosis := fault.diagnosis.shift span.start
      match f.config.content.onError with
      | .abort => return (.error diagnosis, learned)
      | .skip => return (.ok ⟨content, diagnosis.diagnostics.map Diagnostic.toWarning⟩, ds)

/-- Fixes a segment. -/
def fixSegment (f : Fixer) : Segment → Fixing Diagnosis Fixed
  | .text text => return ⟨text, []⟩
  | .math delimiter content span => do
    let fixed ← f.fixContent content span
    return { fixed with text := delimiter.text ++ fixed.text ++ delimiter.text }

/-- Fixes segments from left to right. -/
def fixSegments (f : Fixer) : List Segment → Fixing Diagnosis Fixed
  | [] => return ⟨"", []⟩
  | s :: segments => do
    let first ← f.fixSegment s
    let others ← f.fixSegments segments
    return first.append others

/-- Fixes a document. -/
def fixText (f : Fixer) (document : String) : Fixing Diagnosis Fixed :=
  match scan document with
  | .error mismatch => throw (.single mismatch.diagnostic)
  | .ok segments => f.fixSegments segments

/-- Fixes a document that goes by a path. -/
def fixDocument (f : Fixer) (path : Path) (document : String) : Fixing Failure Fixed :=
  ExceptT.adapt (Failure.fixing path · document) (f.fixText document)

/-- What the log says about a formula that stayed as it was. -/
def skipNotice (d : Diagnostic) : String := "Skipped expression: " ++ d.display

end Fixer

end Formulary
