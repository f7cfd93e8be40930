import Formulary.Fixer.Document
import Formulary.Proofs.Expansion

/-!
# Skipping formulas that cannot be fixed

Under the policy that lets a document go on, each formula is fixed or has not been there at all:
what it has defined before it failed is forgotten, its text stays, and its diagnostics become
warnings.

`Fixer.Yields` says what comes of the segments of a document, one after the other, without saying
how the pieces are put together. A run that skips is put together from it, and so is a run under any
policy in which no formula fails (`Fixer.Yields.run_fixSegments`).
-/

namespace Formulary

/-- A segment of a document with what came of it. -/
inductive Outcome where
  | text (run : String)
  | math (delimiter : Delimiter) (content : String) (span : Span) (result : Except Fault String)

namespace Outcome

/-- The segment as it was. -/
def segment : Outcome → Segment
  | .text run => .text run
  | .math delimiter content span _ => .math delimiter content span

/-- What stands in the place of the segment. A formula that cannot be fixed stays. -/
def write : Outcome → String
  | .text run => run
  | .math delimiter _ _ (.ok fixed) => delimiter.text ++ fixed ++ delimiter.text
  | .math delimiter content _ (.error _) => delimiter.text ++ content ++ delimiter.text

/-- A diagnostic as a warning, moved to where the formula starts. -/
def warning (start : Nat) (d : Diagnostic) : Diagnostic where
  severity := .warning
  code := d.code
  message := d.message
  labels := d.labels.map fun label => ⟨label.span.shift start, label.message, label.isPrimary⟩
  help := d.help

/-- The warnings about a segment. -/
def warnings : Outcome → List Diagnostic
  | .math _ _ span (.error x) => x.diagnosis.diagnostics.map (warning span.start)
  | _ => []

/-- Whether the segment is a formula that cannot be fixed. -/
def isFailure : Outcome → Bool
  | .math _ _ _ (.error _) => true
  | _ => false

/-- The formula, if it can be fixed. -/
def fixable? : Outcome → Option String
  | .math _ content _ (.ok _) => some content
  | _ => none

/-- The fixed formula. -/
def fixed? : Outcome → Option String
  | .math _ _ _ (.ok fixed) => some fixed
  | _ => none

end Outcome

namespace Fixer

variable {r : Except Diagnosis Fixed} {segments : List Segment} {s : Segment} {span : Span}

/-- What comes of segments one after the other. A formula that cannot be fixed leaves the definitions
as they were before it. -/
inductive Yields (f : Fixer) : Definitions → List Outcome → Definitions → Prop
  | nil {ds : Definitions} : Yields f ds [] ds
  | text {ds ds' : Definitions} {outcomes : List Outcome} (run : String) :
      Yields f ds outcomes ds' → Yields f ds (.text run :: outcomes) ds'
  | fixed {ds ds₁ ds' : Definitions} {content fixed : String} {outcomes : List Outcome}
    (delimiter : Delimiter) (span : Span) :
      (f.fixExpression content).run.run ds = some (.ok fixed, ds₁) → Yields f ds₁ outcomes ds' →
      Yields f ds (.math delimiter content span (.ok fixed) :: outcomes) ds'
  | kept {ds learned ds' : Definitions} {content : String} {x : Fault} {outcomes : List Outcome}
    (delimiter : Delimiter) (span : Span) :
      (f.fixExpression content).run.run ds = some (.error x, learned) → Yields f ds outcomes ds' →
      Yields f ds (.math delimiter content span (.error x) :: outcomes) ds'

/-! ## One formula -/

section

variable {f : Fixer} {ds ds₁ : Definitions} {content : String} {x : Fault}

theorem run_fixContent_of_ok {fixed : String} (span : Span)
    (h : (f.fixExpression content).run.run ds = some (.ok fixed, ds₁)) :
    (f.fixContent content span).run.run ds = some (.ok ⟨fixed, []⟩, ds₁) := by
  change ((f.fixExpression content).run.run ds >>= _) = _
  rw [h]
  rfl

theorem run_fixContent_of_skip (span : Span) (hskip : f.config.content.onError = .skip)
    (h : (f.fixExpression content).run.run ds = some (.error x, ds₁)) :
    (f.fixContent content span).run.run ds =
      some (.ok ⟨content, x.diagnosis.diagnostics.map (Outcome.warning span.start)⟩, ds) := by
  change ((f.fixExpression content).run.run ds >>= _) = _
  rw [h]
  dsimp only [Option.bind_eq_bind, Option.bind_some]
  rw [hskip]
  dsimp only
  rw [Diagnosis.shift, List.map_map]
  rfl

theorem run_fixContent_of_abort (span : Span) (habort : f.config.content.onError = .abort)
    (h : (f.fixExpression content).run.run ds = some (.error x, ds₁)) :
    (f.fixContent content span).run.run ds = some (.error (x.diagnosis.shift span.start), ds₁) := by
  change ((f.fixExpression content).run.run ds >>= _) = _
  rw [h]
  dsimp only [Option.bind_eq_bind, Option.bind_some]
  rw [habort]
  rfl

theorem run_fixSegment_math {fixed : Fixed} (delimiter : Delimiter)
    (h : (f.fixContent content span).run.run ds = some (.ok fixed, ds₁)) :
    (f.fixSegment (.math delimiter content span)).run.run ds =
      some (.ok ⟨delimiter.text ++ fixed.text ++ delimiter.text, fixed.skipped⟩, ds₁) := by
  rw [fixSegment, run_bind_of_ok h]
  rfl

theorem run_fixSegments_cons {first others : Fixed} {ds₂ : Definitions}
    (hfirst : (f.fixSegment s).run.run ds = some (.ok first, ds₁))
    (hothers : (f.fixSegments segments).run.run ds₁ = some (.ok others, ds₂)) :
    (f.fixSegments (s :: segments)).run.run ds = some (.ok (first.append others), ds₂) := by
  rw [fixSegments, run_bind_of_ok hfirst, run_bind_of_ok hothers]
  rfl

end

/-! ## Runs -/

variable {f : Fixer} {ds ds' : Definitions} {outcomes before after : List Outcome}

/-- A document that is put together from what its segments yield. Formulas that fail are let pass by
the policy, or there are none. -/
theorem Yields.run_fixSegments (h : f.Yields ds outcomes ds')
    (hpolicy : f.config.content.onError = .skip ∨ ∀ o ∈ outcomes, o.isFailure = false) :
    (f.fixSegments (outcomes.map Outcome.segment)).run.run ds =
      some (.ok ⟨String.join (outcomes.map Outcome.write), outcomes.flatMap Outcome.warnings⟩,
        ds') := by
  induction h with
  | nil => rfl
  | text run _ ih =>
    have htext : ∀ ds₀ : Definitions, (f.fixSegment (.text run)).run.run ds₀ =
      some (.ok ⟨run, []⟩, ds₀) := fun _ => rfl
    have hrest := ih (hpolicy.imp_right fun hall => (List.forall_mem_cons.mp hall).2)
    refine (run_fixSegments_cons (htext _) hrest).trans ?_
    rw [List.map_cons, String.join_cons]
    rfl
  | fixed delimiter span hfix _ ih =>
    have hrest := ih (hpolicy.imp_right fun hall => (List.forall_mem_cons.mp hall).2)
    have hfirst := run_fixSegment_math delimiter (run_fixContent_of_ok span hfix)
    refine (run_fixSegments_cons hfirst hrest).trans ?_
    rw [List.map_cons, String.join_cons]
    rfl
  | kept delimiter span hfix _ ih =>
    have hskip : f.config.content.onError = .skip := by
      rcases hpolicy with hskip | hall
      · exact hskip
      · cases (List.forall_mem_cons.mp hall).1
    have hrest := ih (Or.inl hskip)
    have hfirst := run_fixSegment_math delimiter (run_fixContent_of_skip span hskip hfix)
    refine (run_fixSegments_cons hfirst hrest).trans ?_
    rw [List.map_cons, String.join_cons, List.flatMap_cons]
    rfl

theorem Yields.append {ds₁ : Definitions} (h : f.Yields ds before ds₁)
    (h' : f.Yields ds₁ after ds') : f.Yields ds (before ++ after) ds' := by
  induction h with
  | nil => exact h'
  | text run _ ih => exact .text run (ih h')
  | fixed delimiter span hfix _ ih => exact .fixed delimiter span hfix (ih h')
  | kept delimiter span hfix _ ih => exact .kept delimiter span hfix (ih h')

/-- What comes of one segment: an outcome that the policy lets pass, or the end of the document. -/
theorem run_fixSegment_cases (hrun : (f.fixSegment s).run.run ds = some (r, ds')) :
    (∃ o, o.segment = s ∧ f.Yields ds [o] ds' ∧
      (f.config.content.onError = .skip ∨ o.isFailure = false) ∧ ∃ first, r = .ok first) ∨
      ∃ delimiter content span x, s = .math delimiter content span ∧
        f.config.content.onError = .abort ∧
        (f.fixExpression content).run.run ds = some (.error x, ds') ∧
        r = .error (x.diagnosis.shift span.start) := by
  cases s with
  | text run =>
    cases hrun
    exact Or.inl ⟨.text run, rfl, .text run .nil, Or.inr rfl, _, rfl⟩
  | math delimiter content span =>
    rcases hfix : (f.fixExpression content).run.run ds with _ | ⟨x | fixed, ds₁⟩
    · have hnone : (f.fixContent content span).run.run ds = none := by
        change ((f.fixExpression content).run.run ds >>= _) = _
        rw [hfix]
        rfl
      rw [fixSegment, ExceptT.run_bind, StateT.run_bind, hnone] at hrun
      cases hrun
    · cases hpolicy : f.config.content.onError with
      | skip =>
        rw [run_fixSegment_math delimiter (run_fixContent_of_skip span hpolicy hfix)] at hrun
        cases hrun
        exact Or.inl ⟨.math delimiter content span (.error x), rfl, .kept delimiter span hfix .nil,
          Or.inl rfl, _, rfl⟩
      | abort =>
        rw [fixSegment, run_bind_of_error (run_fixContent_of_abort span hpolicy hfix)] at hrun
        cases hrun
        exact Or.inr ⟨delimiter, content, span, x, rfl, rfl, hfix, rfl⟩
    · rw [run_fixSegment_math delimiter (run_fixContent_of_ok span hfix)] at hrun
      cases hrun
      exact Or.inl ⟨.math delimiter content span (.ok fixed), rfl, .fixed delimiter span hfix .nil,
        Or.inr rfl, _, rfl⟩

/-- The first segment ends a run, or the rest is run and its errors are those of the whole. -/
theorem run_fixSegments_cons_cases
    (hrun : (f.fixSegments (s :: segments)).run.run ds = some (r, ds')) :
    (∃ first ds₁ r', (f.fixSegment s).run.run ds = some (.ok first, ds₁) ∧
      (f.fixSegments segments).run.run ds₁ = some (r', ds') ∧ ∀ e, r' = .error e → r = .error e) ∨
      ∃ e, (f.fixSegment s).run.run ds = some (.error e, ds') ∧ r = .error e := by
  rw [fixSegments] at hrun
  rcases run_bind_eq_some hrun with ⟨first, ds₁, hfirst, hrest⟩ | ⟨e, ds₁, hfirst, hout⟩
  · rcases run_bind_eq_some hrest with ⟨others, ds₂, hothers, hout⟩ | ⟨e, ds₂, hothers, hout⟩
    all_goals cases hout
    · refine Or.inl ⟨first, ds₁, _, hfirst, hothers, fun e he => ?_⟩
      cases he
    · refine Or.inl ⟨first, ds₁, _, hfirst, hothers, fun e' he' => ?_⟩
      cases he'
      rfl
  · cases hout
    exact Or.inr ⟨e, hfirst, rfl⟩

/-- What comes of segments if that ends: an outcome of each, all of which the policy lets pass; or
the first formula that cannot be fixed, if the policy lets none pass. -/
theorem run_fixSegments_cases (hrun : (f.fixSegments segments).run.run ds = some (r, ds')) :
    (∃ outcomes, outcomes.map Outcome.segment = segments ∧ f.Yields ds outcomes ds' ∧
      (f.config.content.onError = .skip ∨ ∀ o ∈ outcomes, o.isFailure = false)) ∨
      ∃ before delimiter content span after ds₁ x,
        segments = before.map Outcome.segment ++ .math delimiter content span :: after ∧
        f.config.content.onError = .abort ∧ f.Yields ds before ds₁ ∧
        (∀ o ∈ before, o.isFailure = false) ∧
        (f.fixExpression content).run.run ds₁ = some (.error x, ds') ∧
        r = .error (x.diagnosis.shift span.start) := by
  induction segments generalizing ds r with
  | nil =>
    cases hrun
    exact Or.inl ⟨[], rfl, .nil, Or.inr (List.forall_mem_nil _)⟩
  | cons s segments ih =>
    rcases run_fixSegments_cons_cases hrun with ⟨first, ds₁, r', hfirst, hothers, hr'⟩ |
      ⟨e, hfirst, rfl⟩
    · rcases run_fixSegment_cases hfirst with ⟨o, rfl, ho, hpass, -⟩ | ⟨_, _, _, _, -, -, -, heq⟩
      · rcases ih hothers with ⟨outcomes, rfl, hyields, hpolicy⟩ |
          ⟨before, delimiter, content, span, after, ds₂, x, rfl, habort, hyields, hfixed, hfix, hr⟩
        · refine Or.inl ⟨o :: outcomes, rfl, ho.append hyields, ?_⟩
          rcases hpass with hskip | ho
          · exact Or.inl hskip
          · exact hpolicy.imp_right fun hall => List.forall_mem_cons.mpr ⟨ho, hall⟩
        · -- A formula further on ends the document, so the policy has let nothing pass here either.
          have ho' : o.isFailure = false := by
            rcases hpass with hskip | ho
            · cases habort.symm.trans hskip
            · exact ho
          exact Or.inr ⟨o :: before, delimiter, content, span, after, ds₂, x, rfl, habort,
            ho.append hyields, List.forall_mem_cons.mpr ⟨ho', hfixed⟩, hfix, hr' _ hr⟩
      · cases heq
    · rcases run_fixSegment_cases hfirst with ⟨_, _, _, _, first, heq⟩ |
        ⟨delimiter, content, span, x, rfl, habort, hfix, heq⟩
      · cases heq
      · cases heq
        exact Or.inr ⟨[], delimiter, content, span, segments, ds, x, rfl, habort, .nil,
          List.forall_mem_nil _, hfix, rfl⟩

/-- A run that ends under the policy that skips has something to yield. -/
theorem exists_yields (hskip : f.config.content.onError = .skip)
    (hrun : (f.fixSegments segments).run.run ds = some (r, ds')) :
    ∃ outcomes, outcomes.map Outcome.segment = segments ∧ f.Yields ds outcomes ds' := by
  rcases run_fixSegments_cases hrun with ⟨outcomes, hsegments, hyields, -⟩ |
    ⟨_, _, _, _, _, _, _, -, habort, -⟩
  · exact ⟨outcomes, hsegments, hyields⟩
  · cases habort.symm.trans hskip

/-- The formulas that can be fixed yield the same on their own. -/
theorem Yields.run_mapM (h : f.Yields ds outcomes ds') :
    ((outcomes.filterMap Outcome.fixable?).mapM f.fixExpression).run.run ds =
      some (.ok (outcomes.filterMap Outcome.fixed?), ds') := by
  induction h with
  | nil => rfl
  | text run _ ih | kept delimiter span _ _ ih => exact ih
  | fixed delimiter span hfix _ ih =>
    change (List.mapM f.fixExpression (_ :: List.filterMap Outcome.fixable? _)).run.run _ = _
    rw [List.mapM_cons, run_bind_of_ok hfix, run_bind_of_ok ih]
    rfl

/-- What comes of some segments and then of others. -/
theorem Yields.of_append (h : f.Yields ds (before ++ after) ds') :
    ∃ ds₁, f.Yields ds before ds₁ ∧ f.Yields ds₁ after ds' := by
  induction before generalizing ds with
  | nil => exact ⟨ds, .nil, h⟩
  | cons o before ih =>
    rw [List.cons_append] at h
    cases h with
    | text run h =>
      obtain ⟨ds₁, hbefore, hafter⟩ := ih h
      exact ⟨ds₁, .text run hbefore, hafter⟩
    | fixed delimiter span hfix h =>
      obtain ⟨ds₁, hbefore, hafter⟩ := ih h
      exact ⟨ds₁, .fixed delimiter span hfix hbefore, hafter⟩
    | kept delimiter span hfix h =>
      obtain ⟨ds₁, hbefore, hafter⟩ := ih h
      exact ⟨ds₁, .kept delimiter span hfix hbefore, hafter⟩

/-- A formula is fixed with the definitions that are there when it is reached. -/
theorem Yields.math {delimiter : Delimiter} {content : String} {result : Except Fault String}
    (h : f.Yields ds (.math delimiter content span result :: after) ds') :
    ∃ learned, (f.fixExpression content).run.run ds = some (result, learned) ∧
      f.Yields ds [.math delimiter content span result] (if result.isOk then learned else ds) := by
  cases h with
  | fixed delimiter span hfix h => exact ⟨_, hfix, .fixed delimiter span hfix .nil⟩
  | kept delimiter span hfix h => exact ⟨_, hfix, .kept delimiter span hfix .nil⟩

/-- Only the passes count. -/
theorem Yields.of_passes {g : Fixer} (h : f.Yields ds outcomes ds') (heq : g.passes = f.passes) :
    g.Yields ds outcomes ds' := by
  have hfix : g.fixExpression = f.fixExpression := by
    funext source
    rw [fixExpression, fixExpression, heq]
  induction h with
  | nil => exact .nil
  | text run _ ih => exact .text run ih
  | fixed delimiter span hrun _ ih => exact .fixed delimiter span (hfix ▸ hrun) ih
  | kept delimiter span hrun _ ih => exact .kept delimiter span (hfix ▸ hrun) ih

end Fixer

/-! ## Documents -/

/-- The settings with another policy for formulas that cannot be fixed. -/
def Config.withPolicy (c : Config) (policy : ErrorPolicy) : Config :=
  { c with content := { c.content with onError := policy } }

end Formulary
