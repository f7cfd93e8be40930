import Formulary.Proofs.Idempotence
import Formulary.Proofs.Snippets
import Formulary.Proofs.Trimming

/-!
# All names at once

Renaming goes through a formula and gives every block its new name. It can be done while walking,
since a walk in which only names change is a visit, and since every block comes up once no new name
is looked up again.

So one slot after the other can be compared (`Tree.Linked.slot_renames`): a block that is reached has
the name that its old one is mapped to, and everything else is as it was, what was left behind
included. The text is the old one with other names between the braces that delimit these blocks.
-/

namespace Formulary

/-- Renames every block that it is shown, and goes into everything. -/
def Visitor.renameBlocks {σ ε : Type} (r : Renames) : Visitor σ ε := fun id => do
  Walk.edit (modify fun t => r.renameNode t id)
  Walk.descend

/-- The snippet with another name if it is that of a block. -/
def Snippet.renamed (new : String → String) (x : Snippet) : Snippet :=
  if x.isName then { x with text := new x.text } else x

namespace Tree

variable {t t' : Tree} {id top : NodeId} {r : Renames}

/-! ## Walking and renaming -/

theorem steady_renameBlocks {σ ε : Type} (r : Renames) :
    Visitor.Steady (Visitor.renameBlocks r : Visitor σ ε) :=
  fun id t s => ⟨r.renameNode t id, s, rfl, sameLinks_renameNode r t id⟩

theorem run_renameBlocks {σ ε : Type} (is : List NodeId) (t : Tree) (s : σ) :
    (forM is (Visitor.renameBlocks r).enter : Walk σ ε Unit).run.run (t, s) =
      some (.ok (), is.foldl r.renameNode t, s) := by
  induction is generalizing t with
  | nil => rfl
  | cons i is ih => exact ih (r.renameNode t i)

/-- A walk that renames blocks when it comes to them renames as if they had been collected before. -/
theorem Linked.walk_renameBlocks {σ ε : Type} (h : t.Linked t.root) (r : Renames) (s : σ) :
    Walk.Leads (fun n => (Walk.through (Visitor.renameBlocks r) n t.root : Walk σ ε Unit)) (t, s)
      (r.apply t, s) := by
  obtain ⟨t', s', hrun, hleads⟩ := h.walks_as_visit (steady_renameBlocks (ε := ε) r) s
  rw [run_renameBlocks] at hrun
  cases hrun
  exact hleads

/-! ## The text -/

/-- Where all blocks have other names, so have the snippets that are names. -/
theorem snippetsUpTo_renamed {new : String → String} (depth : Nat)
    (h : ∀ i, t.Reaches id i → t'.node i = (t.node i).renamed new) :
    t'.snippetsUpTo depth id = (t.snippetsUpTo depth id).map (Snippet.renamed new) := by
  induction depth generalizing id with
  | zero => rfl
  | succ depth ih =>
    have hchild : ∀ child ∈ (t.node id).children,
        t'.snippetsUpTo depth child = (t.snippetsUpTo depth child).map (Snippet.renamed new) :=
      fun child hmem => ih fun i hi => h i ((reaches_child hmem).trans hi)
    have hall : ∀ is ⊆ (t.node id).children, is.flatMap (t'.snippetsUpTo depth) =
        (is.flatMap (t.snippetsUpTo depth)).map (Snippet.renamed new) := by
      intro is hsub
      rw [List.map_flatMap]
      exact List.flatMap_congr fun child hmem => hchild child (hsub hmem)
    rw [snippetsUpTo, snippetsUpTo, h id (Reaches.refl id)]
    cases hnode : t.node id with
    | literal | empty => simp [Node.renamed, Snippet.renamed]
    | sequence head tail =>
      rw [hnode] at hchild
      cases tail with
      | none => simp [Node.renamed, hchild head List.mem_cons_self]
      | some next =>
        simp [Node.renamed, hchild head List.mem_cons_self,
          hchild next (by simp [Node.children])]
    | group _ inner | script _ inner =>
      rw [hnode] at hchild
      simp [Node.renamed, Snippet.renamed, hchild inner List.mem_cons_self]
    | command name parameters =>
      rw [hnode] at hall
      simp [Node.renamed, Snippet.renamed, hall parameters (List.Subset.refl _)]
    | block name parameters body =>
      rw [hnode] at hchild hall
      simp [Node.renamed, Snippet.renamed, hall parameters (List.subset_append_left _ _),
        hchild body (by simp [Node.children])]

theorem Linked.snippets_renames (h : t.Linked t.root) (r : Renames) :
    (r.apply t).snippets (r.apply t).root =
      (t.snippets t.root).map (Snippet.renamed r.target) := by
  rw [snippets, snippets, size_renames, root_renames]
  refine snippetsUpTo_renamed t.size fun i hi => ?_
  rw [node, (h.slot_renames r i).1 hi]
  rfl

/-! ## Formulas on their way through the passes -/

/-- Whatever the settings, the passes leave a formula, also when one of them fails. -/
theorem linked_of_runPasses {source : String} {steps : Nat} {s : FixSettings}
    {ds ds' : Definitions} {r : Except Fault Unit} (hparse : parseMath source = .ok t)
    (hds : ds.Learned)
    (hrun : (Fixer.runPasses (Fixer.passesOf steps s)).run.run (t, ds) = some (r, t', ds')) :
    t'.Linked t'.root := by
  have hsplit : Fixer.passesOf steps s = Fixer.passesOf steps { s with trimSpaces := false } ++
      (if s.trimSpaces then [.trimSpaces s.padBlocks] else []) := by
    rw [Fixer.passesOf, Fixer.passesOf]
    simp
  rw [hsplit, runPasses_append] at hrun
  rcases run_bind_eq_some hrun with ⟨⟨⟩, ⟨t₁, ds₁⟩, hfirst, hrest⟩ | ⟨x, ⟨t₁, ds₁⟩, hfirst, hout⟩
  · obtain ⟨fs, hfs, -⟩ := isSturdy_of_runPasses hparse hds hfirst
    cases htrim : s.trimSpaces with
    | false =>
      rw [htrim] at hrest
      cases hrest
      exact hfs.linked
    | true =>
      obtain ⟨t₂, hmargins, ht₂⟩ := hfs.run_setMargins s.padBlocks
      rw [htrim, if_pos rfl, runPasses_singleton, run_trimSpaces hmargins] at hrest
      cases hrest
      exact ht₂.linked
  · cases hout
    obtain ⟨fs, hfs, -⟩ := isSturdy_of_runPasses hparse hds hfirst
    exact hfs.linked

/-- Renaming ends well in every formula that was read and went through passes, and so does a walk
that renames blocks when it comes to them. Every block that is reached gets the name that its old one
is mapped to. All else stays: the root, the number of positions, parents and spans, nodes that are no
blocks and those that are not reached. The text has other names between the braces that delimit these
blocks. -/
theorem renames_all_blocks_at_once {source : String} {steps : Nat} {s : FixSettings}
    {ds ds' : Definitions} {r : Except Fault Unit} (hparse : parseMath source = .ok t)
    (hds : ds.Learned)
    (hrun : (Fixer.runPasses (Fixer.passesOf steps s)).run.run (t, ds) = some (r, t', ds'))
    (renames : Renames) :
    ∃ u, (Pass.renameEnvironments renames).run.run.run (t', ds') = some (.ok (), u, ds') ∧
      (∃ enough, ∀ n, enough ≤ n →
        (Walk.through (Visitor.renameBlocks renames) n t'.root : Walk Definitions Fault Unit).run.run
          (t', ds') = some (.ok (), u, ds')) ∧
      u.root = t'.root ∧ u.size = t'.size ∧
      (∀ i, t'.Reaches t'.root i → u.slot i = (t'.slot i).renamed renames.target) ∧
      (∀ i, ¬t'.Reaches t'.root i → u.slot i = t'.slot i) ∧
      t'.text = String.join ((t'.snippets t'.root).map Snippet.text) ∧
      u.text = String.join
        ((t'.snippets t'.root).map fun x => (x.renamed renames.target).text) := by
  have hlinked := linked_of_runPasses hparse hds hrun
  refine ⟨renames.apply t', rfl, ?_, root_renames renames t', size_renames renames t',
    fun i => (hlinked.slot_renames renames i).1, fun i => (hlinked.slot_renames renames i).2,
    t'.nodeText_eq_join t'.root, ?_⟩
  · exact hlinked.walk_renameBlocks renames ds'
  · rw [text, nodeText_eq_join, hlinked.snippets_renames, List.map_map]
    rfl

/-- A block in a parameter of another, and one in a script that a macro brings. Blocks with the name
`a` get the name `b`, and those that have it already get the name `c`. -/
theorem renames_all_blocks_at_once_nested :
    let source := r"\newcommand{\m}{\begin{a}w\end{a}}" ++
      r"\begin{a}{x\begin{b}y\end{b}}z\end{a}^\m"
    let settings := { FixSettings.standard with renameEnvironments := false, trimSpaces := false }
    let renames : Renames := ⟨[("a", "b"), ("b", "c")]⟩
    ∃ t t' ds' u, parseMath source = .ok t ∧
      (Fixer.runPasses (Fixer.passesOf 40 settings)).run.run (t, .empty) = some (.ok (), t', ds') ∧
      t'.text = r"\begin{a}{x\begin{b}y\end{b}}z\end{a}" ++
        r"^{\begin{a}w\end{a}}" ∧
      (Pass.renameEnvironments renames).run.run.run (t', ds') = some (.ok (), u, ds') ∧
      u.text = r"\begin{b}{x\begin{c}y\end{c}}z\end{b}" ++
        r"^{\begin{b}w\end{b}}" ∧
      u.size = t'.size ∧ (∀ i, ¬t'.Reaches t'.root i → u.slot i = t'.slot i) := by
  intro source settings renames
  have hran : ((parseMath source).toOption.bind fun t =>
      ((Fixer.runPasses (Fixer.passesOf 40 settings)).run.run (t, .empty)).bind fun out =>
        ((Pass.renameEnvironments renames).run.run.run (out.2.1, out.2.2)).map fun out' =>
          (out.1.toOption, out.2.1.text, out'.2.1.text)) =
      some (some (), r"\begin{a}{x\begin{b}y\end{b}}z\end{a}" ++
          r"^{\begin{a}w\end{a}}",
        r"\begin{b}{x\begin{c}y\end{c}}z\end{b}" ++
          r"^{\begin{b}w\end{b}}") := by
    decide +kernel
  obtain ⟨t, hparse, hran⟩ := Option.bind_eq_some_iff.mp hran
  obtain ⟨⟨r, t', ds'⟩, hrun, hran⟩ := Option.bind_eq_some_iff.mp hran
  obtain ⟨⟨r', u₁, ds₁⟩, hrename, hout⟩ := Option.map_eq_some_iff.mp hran
  simp only [Prod.mk.injEq] at hout
  obtain ⟨hok, htext, htext'⟩ := hout
  obtain rfl := eq_ok_of_toOption hok
  replace hparse := eq_ok_of_toOption hparse
  obtain ⟨u, hpass, -, -, hsize, -, hunreached, -, -⟩ :=
    renames_all_blocks_at_once hparse .empty hrun renames
  obtain ⟨rfl, rfl, rfl⟩ : r' = .ok () ∧ u₁ = u ∧ ds₁ = ds' := by
    simpa using Option.some.inj (hrename.symm.trans hpass)
  exact ⟨t, t', ds₁, u₁, hparse, hrun, htext, hpass, htext', hsize, hunreached⟩

end Tree

end Formulary
