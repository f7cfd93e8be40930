import Formulary.Proofs.Pipeline
import Formulary.Proofs.Renaming

/-!
# Which faults a formula can have

The programs that change a formula in the store can be misused, and then they say so. The passes
never misuse them. What can be wrong with a formula is its text, its blocks or its macros:

* blocks are put in place only if their delimiting commands stand in one chain, and then nothing
  stands in the way (`Tree.resolveBlocks_cases`);
* expansion fails as the rewriting of shapes does, which knows no store (`Refines`);
* renaming cannot fail, and margins can be set in every formula (`Tree.Depicts.run_setMargins`),
  whatever its blocks are called by then.
-/

namespace Formulary

open Plan Shape

/-! ## Blocks -/

namespace Tree

/-- A formula that cannot be read has a text that is none, or blocks that do not match up. -/
theorem text_or_block_of_parseMath {source : String} {x : Fault} (h : parseMath source = .error x) :
    (∃ e, x = .text e) ∨ ∃ e, x = .block e := by
  rw [parseMath] at h
  rcases hparse : parse source with e | t
  · rw [hparse] at h
    exact Or.inl ⟨e, (Except.error.inj h).symm⟩
  · rw [hparse] at h
    dsimp only at h
    obtain ⟨fs, ⟨row, hroot, hfits, hn, rfl⟩, hcanonical, -⟩ := parse_sound hparse
    split at h
    · cases h
    · rename_i x' t' hrun
      obtain rfl := Except.error.inj h
      rcases resolveBlocks_cases hroot hfits hn hcanonical.tameChain hrun with ⟨hok, -⟩ | ⟨e, herror⟩
      · cases hok
      · exact Or.inr ⟨e, Except.error.inj herror⟩

end Tree

/-! ## Passes -/

/-- A walk that takes every formula to a formula and never fails. -/
def Sure (walk : Walk Definitions Fault Unit) : Prop :=
  ∀ t ds r t' ds', (∃ fs, t.Depicts fs) → walk.run.run (t, ds) = some (r, t', ds') →
    r = .ok () ∧ ∃ fs, t'.Depicts fs

theorem sure_renameEnvironments (renames : Renames) : Sure (Pass.renameEnvironments renames).run := by
  rintro t ds r t' ds' ⟨fs, hfs⟩ hrun
  cases hrun
  exact ⟨rfl, _, hfs.renames renames⟩

theorem sure_trimSpaces (pad : Bool) : Sure (Pass.trimSpaces pad).run := by
  rintro t ds r t' ds' ⟨fs, hfs⟩ hrun
  obtain ⟨t₁, hmargins, hfs₁⟩ := hfs.run_setMargins pad
  rw [run_trimSpaces hmargins] at hrun
  cases hrun
  exact ⟨rfl, _, hfs₁⟩

theorem sure_runPasses {passes : List Pass} (h : ∀ p ∈ passes, Sure p.run) :
    Sure (Fixer.runPasses passes) := by
  induction passes with
  | nil =>
    intro t ds r t' ds' hfs hrun
    cases hrun
    exact ⟨rfl, hfs⟩
  | cons p passes ih =>
    rw [List.forall_mem_cons] at h
    intro t ds r t' ds' hfs hrun
    rw [runPasses_cons] at hrun
    rcases run_bind_eq_some hrun with ⟨⟨⟩, ⟨t₁, ds₁⟩, hfirst, hrest⟩ | ⟨x, ⟨t₁, ds₁⟩, hfirst, -⟩
    · exact ih h.2 _ _ _ _ _ (h.1 _ _ _ _ _ hfs hfirst).2 hrest
    · cases (h.1 _ _ _ _ _ hfs hfirst).1

/-- Only expansion can fail. -/
theorem sure_of_mem_passesOf {steps : Nat} {s : FixSettings} {p : Pass}
    (hs : s.expandMacros = false) (hp : p ∈ Fixer.passesOf steps s) : Sure p.run := by
  rcases mem_passesOf.mp hp with ⟨hexpand, -⟩ | ⟨-, rfl⟩ | ⟨-, rfl⟩
  · rw [hs] at hexpand
    cases hexpand
  · exact sure_renameEnvironments s.renames
  · exact sure_trimSpaces s.padBlocks

theorem expansion_of_runPasses {steps : Nat} {s : FixSettings} {t t' : Tree} {ds ds' : Definitions}
    {x : Fault} (h : Settled t ds)
    (hrun : (Fixer.runPasses (Fixer.passesOf steps s)).run.run (t, ds) = some (.error x, t', ds')) :
    ∃ e, x = .expansion e := by
  obtain ⟨htidy, ms, hknown⟩ := h
  obtain ⟨fs, hfs, hneat⟩ := Tree.tidy_iff.mp htidy
  cases hs : s.expandMacros with
  | false => cases (sure_runPasses (fun p => sure_of_mem_passesOf hs) _ _ _ _ _ ⟨fs, hfs⟩ hrun).1
  | true =>
    rw [passesOf_expandMacros hs, runPasses_cons] at hrun
    rcases run_bind_eq_some hrun with ⟨⟨⟩, ⟨t₁, ds₁⟩, hfirst, hrest⟩ | ⟨x', ⟨t₁, ds₁⟩, hfirst, hout⟩
    · obtain ⟨ms', -, gs, hgs, -⟩ := refines_expandAll hfs hneat hknown steps _ _ _ hfirst
      cases (sure_runPasses (fun p => sure_of_mem_passesOf rfl) _ _ _ _ _ ⟨gs, hgs.1⟩ hrest).1
    · cases hout
      obtain ⟨ms', -, ⟨-, hx⟩, -⟩ := refines_expandAll hfs hneat hknown steps _ _ _ hfirst
      exact hx

/-! ## Formulas -/

/-- The faults of formulas have codes of their own. -/
theorem Fault.code_of_formula {x : Fault}
    (h : (∃ e, x = .text e) ∨ (∃ e, x = .block e) ∨ ∃ e, x = .expansion e) :
    ∃ code, x.diagnostic.code = some code ∧ code.text ∈
      ["E100", "E101", "E102", "E103", "E200", "E201", "E202", "E203", "E204",
        "E300", "E301", "E302", "E303", "E304", "E305", "E306"] := by
  rcases h with ⟨e, rfl⟩ | ⟨e, rfl⟩ | ⟨e, rfl⟩
  · exact ⟨e.code, by cases e <;> rfl, by cases e <;> simp [SyntaxError.code, Code.text]⟩
  · exact ⟨e.code, by cases e <;> rfl, by cases e <;> simp [BlockError.code, Code.text]⟩
  · exact ⟨e.code, by cases e <;> rfl, by cases e <;> simp [MacroError.code, Code.text]⟩

/-- Fixing a formula never misuses surgery, with definitions from the formulas before it and with any
settings. If it fails, then the text, the blocks or the macros of the formula are at fault, and every
diagnostic has one of their codes. -/
theorem fault_of_fixExpression {source : String} {steps : Nat} {c : Config} {ds ds' : Definitions}
    {x : Fault} (hds : ds.Learned)
    (hrun : ((Fixer.ofConfig steps c).fixExpression source).run.run ds = some (.error x, ds')) :
    ((∃ e, x = .text e) ∨ (∃ e, x = .block e) ∨ ∃ e, x = .expansion e) ∧
      x.diagnosis.diagnostics ≠ [] ∧ ∀ d ∈ x.diagnosis.diagnostics, ∃ code, d.code = some code ∧
        code.text ∈ ["E100", "E101", "E102", "E103", "E200", "E201", "E202", "E203", "E204",
          "E300", "E301", "E302", "E303", "E304", "E305", "E306"] := by
  have hfault : (∃ e, x = .text e) ∨ (∃ e, x = .block e) ∨ ∃ e, x = .expansion e := by
    rw [Fixer.fixExpression] at hrun
    cases hparse : Tree.parseMath source with
    | error x' =>
      rw [hparse] at hrun
      cases hrun
      exact (Tree.text_or_block_of_parseMath hparse).imp_right Or.inl
    | ok t =>
      rw [hparse] at hrun
      obtain ⟨⟨r, t', ds₁⟩, hpasses, hout⟩ := Option.bind_eq_some_iff.mp hrun
      cases r with
      | ok => cases hout
      | error x' =>
        cases hout
        have hstart : Settled t ds :=
          ⟨Tree.tidy_iff.mpr (Tree.isNeat_parseMath hparse), hds.reached.standFor⟩
        exact Or.inr (Or.inr (expansion_of_runPasses hstart hpasses))
  refine ⟨hfault, List.cons_ne_nil _ _, ?_⟩
  rw [Fault.diagnosis, Diagnosis.single, List.forall_mem_singleton]
  exact Fault.code_of_formula hfault

/-- A macro from an earlier formula is used as an operand, without the argument that it takes. -/
theorem fault_of_fixExpression_operand :
    let first := r"\newcommand{\m}[1]{a#1}"
    let second := r"\begin{b}x_\m\end{b}"
    let fixer := Fixer.ofConfig 40 .standard
    ∃ ds x ds', (fixer.fixExpression first).run.run .empty = some (.ok "", ds) ∧
      (fixer.fixExpression second).run.run ds = some (.error x, ds') ∧
      x.diagnostic.code = some .wrongArgumentCount ∧
      ((∃ e, x = .text e) ∨ (∃ e, x = .block e) ∨ ∃ e, x = .expansion e) ∧
      ∃ code, x.diagnostic.code = some code ∧ code.text ∈
        ["E100", "E101", "E102", "E103", "E200", "E201", "E202", "E203", "E204",
          "E300", "E301", "E302", "E303", "E304", "E305", "E306"] := by
  intro first second fixer
  have hran : (((fixer.fixExpression first).run.run .empty).bind fun out₀ =>
      ((fixer.fixExpression second).run.run out₀.2).map fun out =>
        (out₀.1.toOption, out.1.mapError fun x => x.diagnostic.code)) =
      some (some "", .error (some .wrongArgumentCount)) := by
    decide +kernel
  obtain ⟨⟨r₀, ds⟩, hrun₀, hran⟩ := Option.bind_eq_some_iff.mp hran
  obtain ⟨⟨r, ds'⟩, hrun, hout⟩ := Option.map_eq_some_iff.mp hran
  obtain ⟨hok₀, hcode⟩ := Prod.mk.inj hout
  obtain rfl := Tree.eq_ok_of_toOption hok₀
  cases r with
  | ok text => cases hcode
  | error x =>
    obtain ⟨hfault, -, hcodes⟩ := fault_of_fixExpression (.fix .empty hrun₀) hrun
    exact ⟨ds, x, ds', hrun₀, hrun, Except.error.inj hcode, hfault,
      hcodes x.diagnostic (List.mem_singleton_self _)⟩

end Formulary
