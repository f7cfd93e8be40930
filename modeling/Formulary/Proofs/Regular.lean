import Formulary.Block
import Formulary.Proofs.Spread

/-!
# Regular shapes

What holds of every formula that is read, and stays true when its blocks are resolved and its macros
are expanded: operands are atomic, parameters are groups, and blocks have proper names and a body.
A formula is resolved when, besides, no command delimits a block.
-/

namespace Formulary.Shape

/-- A block name is a text of plain characters. -/
theorem isPlain_of_isName {name : String} (h : BlockMarker.isName name = true) :
    name ≠ "" ∧ ∀ c ∈ name.toList, isPlain c = true := by
  rw [BlockMarker.isName, Bool.and_eq_true, List.all_eq_true] at h
  refine ⟨fun hnil => ?_, fun c hc => isPlain_iff.mpr fun s hs => ?_⟩
  · rw [hnil] at h
    cases h.1
  · have hletter := h.2 c hc
    rw [← hs] at hletter
    cases s <;> cases hletter

mutual

/-- A regular element whose commands all have names of one kind. -/
def Regular (kind : String → Prop) : Shape → Prop
  | .literal _ | .empty => True
  | .group _ inner => RegularRow kind inner
  | .script _ operand => operand.isAtomic = true ∧ operand.Regular kind
  | .command name parameters =>
    kind name ∧ (∀ p ∈ parameters, p.isGroup = true) ∧ RegularRow kind parameters
  | .block name parameters body =>
    BlockMarker.isName name = true ∧ (∀ p ∈ parameters, p.isGroup = true) ∧
      RegularRow kind parameters ∧ body ≠ [] ∧ RegularRow kind body

/-- Regular elements. -/
def RegularRow (kind : String → Prop) : List Shape → Prop
  | [] => True
  | f :: fs => f.Regular kind ∧ RegularRow kind fs

end

variable {kind : String → Prop}

@[simp] theorem regularRow_nil : RegularRow kind [] := by
  rw [RegularRow]
  trivial

@[simp] theorem regularRow_cons {f : Shape} {fs : List Shape} :
    RegularRow kind (f :: fs) ↔ f.Regular kind ∧ RegularRow kind fs := by
  rw [RegularRow]

@[simp] theorem regularRow_append {fs gs : List Shape} :
    RegularRow kind (fs ++ gs) ↔ RegularRow kind fs ∧ RegularRow kind gs := by
  induction fs with
  | nil => simp
  | cons f fs ih => simp [ih, and_assoc]

theorem regularRow_chain {fs : List Shape} : RegularRow kind (chain fs) ↔ RegularRow kind fs := by
  cases fs <;> simp [Regular]

/-- No command delimits a block. -/
def Resolved (fs : List Shape) : Prop := RegularRow (fun name => BlockMarker.side? name = none) fs

mutual

/-- Tame elements are regular, with any names. -/
theorem Tame.regular : ∀ {f : Shape}, f.Tame → f.Regular fun _ => True
  | .literal _, _ | .empty, _ => by simp [Regular]
  | .group _ _, h => by
    rw [Tame] at h
    rw [Regular]
    exact TameRow.regular h.1
  | .script _ _, h => by
    rw [Tame] at h
    rw [Regular]
    exact ⟨h.1, Tame.regular h.2⟩
  | .command _ _, h => by
    rw [Tame] at h
    rw [Regular]
    exact ⟨trivial, h.2, TameRow.regular h.1⟩
  | .block .., h => by simp [Tame] at h

/-- What is read is regular. -/
theorem TameRow.regular : ∀ {fs : List Shape}, TameRow fs → RegularRow (fun _ => True) fs
  | [], _ => regularRow_nil
  | _ :: _, h => by
    rw [tameRow_cons] at h
    exact regularRow_cons.mpr ⟨Tame.regular h.1, TameRow.regular h.2⟩

end

end Formulary.Shape
