import Formulary.Proofs.Edges

/-!
# Fixing what was fixed

A formula without definitions and without uses of known macros is fixed once and for all: fixing the
result changes nothing. This takes three things.

* The walk through such a formula looks at everything and leaves it as it is, whatever macros are
  known: `Tree.Depicts.idle_expandAll`.
* So what the passes do is said by `FixSettings.reshaped`, with names and margins alone
  (`Tree.Depicts.run_passes`).
* What comes of a formula that was read has the text of one that can be read, and that stays as it
  is: `Shape.AsRead.exists_fixed`.
-/

namespace Formulary

open BlockMarker (isName)
open Definitions (visitor)
open Plan Shape

variable {ds : Definitions} {fs : List Shape} {s : FixSettings} {t : Tree}

/-! ## Walks that change nothing -/

/-- A command with this name is neither a definition nor the use of a macro. -/
def Definitions.Ignores (ds : Definitions) (name : String) : Prop :=
  name ≠ definingCommand ∧ ds.find? name = none

/-- A walk that ends if it is given enough steps, and leaves everything as it is. -/
def Idle (walk : Nat → Walk Definitions Fault Unit) (t : Tree) (ds : Definitions) : Prop :=
  ∃ enough, ∀ n, enough ≤ n → (walk n).run.run (t, ds) = some (.ok (), t, ds)

section

variable {t : Tree} {ds : Definitions} {up : Option NodeId} {p : Plan}

/-- A chain is walked through from its first cell. -/
theorem idle_through_cell {row : Row} {cell : NodeId} (h : RowFits t up row)
    (hcell : nextCell row = some cell)
    (hidle : Idle (fun n => Walk.alongChain visitor n cell) t ds) :
    Idle (fun n => Walk.through visitor n cell) t ds := by
  obtain ⟨p, rest, rfl⟩ := exists_of_nextCell hcell
  have hnode := h.node
  have hinto : ∀ name parameters, t.node cell = .command name parameters →
      name ≠ definingCommand ∧ ds.find? name = none := by
    intro name parameters heq
    rw [hnode] at heq
    cases heq
  refine Walk.Leads.through_into (run_visitor_into hinto) ?_
  rw [hnode]
  exact hidle

theorem Plan.Fits.ignores (h : p.Fits t up) (hnames : ∀ name ∈ p.shape.commands, ds.Ignores name)
    (name : String) (parameters : List NodeId) (hnode : t.node p.id = .command name parameters) :
    name ≠ definingCommand ∧ ds.find? name = none := by
  rw [h.node] at hnode
  cases p with
  | command n name' ps =>
    rw [top] at hnode
    obtain ⟨rfl, -⟩ := Node.command.inj hnode
    refine hnames name' ?_
    rw [shape, commands]
    exact List.mem_cons_self
  | literal | empty | group | script | block => cases hnode

/-- The walk through an element goes on below it. -/
theorem Plan.Fits.idle_through (h : p.Fits t up)
    (hnames : ∀ name ∈ p.shape.commands, ds.Ignores name)
    (hidle : Idle (fun n => Walk.below visitor n p.id p.top) t ds) :
    Idle (fun n => Walk.through visitor n p.id) t ds := by
  refine Walk.Leads.through_into (run_visitor_into (h.ignores hnames)) ?_
  rw [h.node]
  exact hidle

mutual

theorem Plan.Fits.idle : ∀ {p : Plan} {up : Option NodeId}, p.Fits t up →
    (∀ name ∈ p.shape.commands, ds.Ignores name) →
    Idle (fun n => Walk.through visitor n p.id) t ds
  | .literal n text, up, h, hnames
  | .empty n, up, h, hnames => h.idle_through hnames ⟨0, fun _ _ => rfl⟩
  | .group n fence inner, up, h, hnames => by
    refine h.idle_through hnames ?_
    rw [Fits] at h
    obtain ⟨⟨first, hfirst, -⟩, hinner⟩ := h
    rw [shape, commands] at hnames
    rw [top, hfirst]
    exact idle_through_cell hinner hfirst (RowFits.idle hinner hfirst hnames)
  | .script n marker operand, up, h, hnames => by
    refine h.idle_through hnames ?_
    have hoperand := h.operand
    rw [Fits] at h
    rw [shape, commands] at hnames
    exact Walk.Leads.toOperand hoperand (Fits.idle h.2 hnames) hoperand
  | .command n name ps, up, h, hnames => by
    refine h.idle_through hnames ?_
    rw [Fits] at h
    rw [shape, commands, List.forall_mem_cons] at hnames
    exact AllFit.idle h.2 h.1 (List.nil_append (ps.map Plan.id)).symm hnames.2
  | .block n name ps body, up, h, hnames => by
    refine h.idle_through hnames ?_
    have hnode := h.node
    rw [Fits] at h
    obtain ⟨⟨first, hfirst, hlook⟩, hps, hbody⟩ := h
    rw [shape, commands, List.forall_mem_append] at hnames
    rw [id_block, top, hfirst] at hnode
    rw [top, hfirst]
    exact Walk.Leads.below_block
      (AllFit.idle hps hlook (List.nil_append (ps.map Plan.id)).symm hnames.1) hnode
      (idle_through_cell hbody hfirst (RowFits.idle hbody hfirst hnames.2))

theorem Plan.AllFit.idle : ∀ {ps : List Plan} {id : NodeId} {node : Node} {up : Option NodeId}
    {before : List NodeId}, AllFit t (some id) ps → t.look id = some (node, up) →
    node.parameters = before ++ ps.map Plan.id →
    (∀ name ∈ commandsOf (shapes ps), ds.Ignores name) →
    Idle (fun n => Walk.toParameters visitor n id before.length) t ds
  | [], id, node, up, before, _, hlook, hparameters, _ =>
    Walk.Leads.toParameters_nil (parameter_of_look hlook hparameters)
  | p :: ps, id, node, up, before, h, hlook, hparameters, hnames => by
    rw [allFit_cons] at h
    rw [shapes_cons, commandsOf_cons, List.forall_mem_append] at hnames
    have hafter : node.parameters = (before ++ [p.id]) ++ ps.map Plan.id := by
      rw [hparameters, List.map_cons, List.append_assoc, List.singleton_append]
    have hrest := AllFit.idle h.2 hlook hafter hnames.2
    rw [List.length_append] at hrest
    exact Walk.Leads.toParameters_cons (parameter_of_look hlook hparameters)
      (Fits.idle h.1 hnames.1) hrest

theorem Plan.RowFits.idle : ∀ {row : Row} {up : Option NodeId} {cell : NodeId}, RowFits t up row →
    nextCell row = some cell → (∀ name ∈ commandsOf (rowShapes row), ds.Ignores name) →
    Idle (fun n => Walk.alongChain visitor n cell) t ds
  | (cell, p) :: row, up, _, h, rfl, hnames => by
    obtain ⟨-, hp, hrow⟩ := rowFits_pair.mp h
    rw [rowShapes_cons, commandsOf_cons, List.forall_mem_append] at hnames
    refine Walk.Leads.alongChain_next h.head (Fits.idle hp hnames.1) h.head h.tail ?_
    cases hnext : nextCell row with
    | none => exact ⟨0, fun _ _ => rfl⟩
    | some next => exact RowFits.idle hrow hnext hnames.2

end

/-- Expansion leaves a formula as it is if there is nothing to expand. -/
theorem Tree.Depicts.idle_expandAll (h : t.Depicts fs)
    (hnames : ∀ name ∈ commandsOf fs, ds.Ignores name) : Idle Definitions.expandAll t ds := by
  obtain ⟨row, hfirst, hfits, -, rfl⟩ := h
  obtain ⟨enough, henough⟩ := idle_through_cell hfits hfirst (hfits.idle hfirst hnames)
  refine ⟨enough, fun n hn => ?_⟩
  rw [Definitions.expandAll, run_bind_of_ok run_tree]
  exact henough n hn

end

/-! ## Passes -/

/-- What the passes make of a formula in which nothing is to be expanded. -/
def FixSettings.reshaped (s : FixSettings) (fs : List Shape) : List Shape :=
  let gs := if s.renameEnvironments then renamedRow s.renames.target fs else fs
  if s.trimSpaces then withMargins s.padBlocks gs else gs

theorem runPasses_append (passes passes' : List Pass) :
    Fixer.runPasses (passes ++ passes') = (do Fixer.runPasses passes; Fixer.runPasses passes') :=
  List.forM_append

theorem runPasses_singleton (p : Pass) : Fixer.runPasses [p] = p.run := by
  rw [runPasses_cons]
  exact bind_pure_unit

/-- The passes end well, and the macros that are known stay the same. -/
theorem Tree.Depicts.run_passes (h : t.Depicts fs)
    (hnames : ∀ name ∈ commandsOf fs, ds.Ignores name) (s : FixSettings) :
    ∃ t', t'.Depicts (s.reshaped fs) ∧ ∃ enough, ∀ n, enough ≤ n →
      (Fixer.runPasses (Fixer.passesOf n s)).run.run (t, ds) = some (.ok (), t', ds) := by
  obtain ⟨enough, henough⟩ := h.idle_expandAll hnames
  obtain ⟨t₁, hrename, ht₁⟩ : ∃ t₁, (Fixer.runPasses
      (if s.renameEnvironments then [.renameEnvironments s.renames] else [])).run.run (t, ds) =
        some (.ok (), t₁, ds) ∧
      t₁.Depicts (if s.renameEnvironments then renamedRow s.renames.target fs else fs) := by
    cases s.renameEnvironments with
    | true => exact ⟨s.renames.apply t, rfl, h.renames s.renames⟩
    | false => exact ⟨t, rfl, h⟩
  obtain ⟨t₂, htrim, ht₂⟩ : ∃ t₂, (Fixer.runPasses
      (if s.trimSpaces then [.trimSpaces s.padBlocks] else [])).run.run (t₁, ds) =
        some (.ok (), t₂, ds) ∧ t₂.Depicts (s.reshaped fs) := by
    rw [FixSettings.reshaped]
    cases s.trimSpaces with
    | true =>
      obtain ⟨t₂, hrun, ht₂⟩ := ht₁.run_setMargins s.padBlocks
      exact ⟨t₂, by rw [if_pos rfl, runPasses_singleton, run_trimSpaces hrun], ht₂⟩
    | false => exact ⟨t₁, rfl, ht₁⟩
  refine ⟨t₂, ht₂, enough, fun n hn => ?_⟩
  have hexpand : (Fixer.runPasses (if s.expandMacros then [.expandMacros n] else [])).run.run
      (t, ds) = some (.ok (), t, ds) := by
    cases s.expandMacros with
    | true =>
      rw [if_pos rfl, runPasses_singleton]
      exact henough n hn
    | false => rfl
  rw [Fixer.passesOf, runPasses_append, runPasses_append, bind_assoc, run_bind_of_ok hexpand,
    run_bind_of_ok hrename, htrim]

theorem runPasses_mono {n m : Nat} (hle : n ≤ m) :
    EndsAs (Fixer.runPasses (Fixer.passesOf n s)) (Fixer.runPasses (Fixer.passesOf m s)) := by
  rw [Fixer.passesOf, Fixer.passesOf, runPasses_append, runPasses_append, runPasses_append,
    runPasses_append]
  refine (EndsAs.bind ?_ fun _ => EndsAs.refl _).bind fun _ => EndsAs.refl _
  split
  · rw [runPasses_singleton, runPasses_singleton]
    exact Definitions.expandAll_mono hle
  · exact EndsAs.refl _

theorem Fixer.fixExpression_mono {n m : Nat} (hle : n ≤ m) (c : Config) (source : String) :
    EndsAs ((ofConfig n c).fixExpression source) ((ofConfig m c).fixExpression source) := by
  intro ds out hrun
  rw [fixExpression] at hrun ⊢
  cases hparse : Tree.parseMath source with
  | error x =>
    rw [hparse] at hrun
    exact hrun
  | ok t =>
    rw [hparse] at hrun
    obtain ⟨outcome, hpasses, hout⟩ := Option.bind_eq_some_iff.mp hrun
    exact Option.bind_eq_some_iff.mpr ⟨outcome, runPasses_mono hle _ _ hpasses, hout⟩

/-- The text of a fixed formula. -/
theorem Tree.Depicts.run_fixExpression {source : String} (h : t.Depicts fs)
    (hparse : Tree.parseMath source = .ok t) (hnames : ∀ name ∈ commandsOf fs, ds.Ignores name)
    (c : Config) :
    ∃ enough, ∀ n, enough ≤ n → ((Fixer.ofConfig n c).fixExpression source).run.run ds =
      some (.ok (String.ofList (charsOf (c.fixes.reshaped fs))), ds) := by
  obtain ⟨t', ht', enough, henough⟩ := h.run_passes hnames c.fixes
  refine ⟨enough, fun n hn => ?_⟩
  rw [Fixer.fixExpression, hparse, ← ht'.text, String.ofList_toList]
  exact Option.bind_eq_some_iff.mpr ⟨_, henough n hn, rfl⟩

/-! ## Twice -/

namespace Shape

/-- What comes of a formula that was read has the text of one that can be read, and the passes leave
the text of that one as it is. -/
theorem AsRead.exists_fixed (h : AsRead fs)
    (hnew : ∀ name, isName name → isName (s.renames.target name))
    (hagain : ∀ name, s.renames.target (s.renames.target name) = s.renames.target name) :
    ∃ gs, AsRead gs ∧ charsOf (s.reshaped fs) = charsOf gs ∧
      charsOf (s.reshaped gs) = charsOf gs ∧ commandsOf gs = commandsOf fs := by
  obtain ⟨fs₁, hfs₁, hread, hcommands, hrenamed⟩ :
      ∃ fs₁, (if s.renameEnvironments then Shape.renamedRow s.renames.target fs else fs) = fs₁ ∧
        AsRead fs₁ ∧ commandsOf fs₁ = commandsOf fs ∧
        (s.renameEnvironments = true → Shape.renamedRow s.renames.target fs₁ = fs₁) := by
    cases s.renameEnvironments with
    | true =>
      refine ⟨_, rfl, h.renamedRow hnew, commandsOf_renamedRow fs, fun _ => ?_⟩
      rw [if_pos rfl, renamedRow_renamedRow, funext hagain]
    | false => exact ⟨_, rfl, h, rfl, fun hfalse => absurd hfalse Bool.false_ne_true⟩
  have hstays : ∀ gs, (s.renameEnvironments = true → Shape.renamedRow s.renames.target gs = gs) →
      (if s.renameEnvironments then Shape.renamedRow s.renames.target gs else gs) = gs := by
    intro gs hgs
    split
    · rename_i hrename
      exact hgs hrename
    · rfl
  cases htrim : s.trimSpaces with
  | true =>
    obtain ⟨gs, hgs, hchars, hmargins, hsame, hkept⟩ := hread.exists_margins s.padBlocks
    refine ⟨gs, hgs, ?_, ?_, hsame.trans hcommands⟩
    · rw [FixSettings.reshaped, hfs₁, htrim, if_pos rfl, hchars]
    · rw [FixSettings.reshaped, hstays gs fun hrename => hkept _ (hrenamed hrename), htrim,
        if_pos rfl, hmargins]
  | false =>
    refine ⟨fs₁, hread, ?_, ?_, hcommands⟩
    · rw [FixSettings.reshaped, hfs₁, htrim, if_neg Bool.false_ne_true]
    · rw [FixSettings.reshaped, hstays fs₁ hrenamed, htrim, if_neg Bool.false_ne_true]

end Shape

/-- Fixing what was fixed changes nothing. Let the new names of blocks be names that are not
replaced by others. If a formula has no definitions and no uses of known macros, and fixing it gives
a result, then fixing the result gives the result again, with whatever passes are asked for. The
macros that are known stay the same both times. -/
theorem fixExpression_fixed {source result : String} {steps : Nat} {c : Config}
    {ds ds' : Definitions}
    (hnames : ∀ t, Tree.parseMath source = .ok t → ∀ name ∈ t.commandNames t.root,
      name ≠ definingCommand ∧ ds.find? name = none)
    (htargets : ∀ old new, c.fixes.renames.find? old = some new → isName new = true ∧
      ∀ other, c.fixes.renames.find? new = some other → other = new)
    (hrun : ((Fixer.ofConfig steps c).fixExpression source).run.run ds = some (.ok result, ds')) :
    ds' = ds ∧ ∃ enough, ∀ n, enough ≤ n →
      ((Fixer.ofConfig n c).fixExpression result).run.run ds = some (.ok result, ds) := by
  have hnew : ∀ name, isName name → isName (c.fixes.renames.target name) := by
    intro name hname
    rw [Renames.target]
    cases hfind : c.fixes.renames.find? name with
    | none => exact hname
    | some new => exact (htargets name new hfind).1
  have hagain : ∀ name, c.fixes.renames.target (c.fixes.renames.target name) =
      c.fixes.renames.target name := by
    intro name
    cases hfind : c.fixes.renames.find? name with
    | none => simp [Renames.target, hfind]
    | some new =>
      cases hfind' : c.fixes.renames.find? new with
      | none => simp [Renames.target, hfind, hfind']
      | some other => simp [Renames.target, hfind, hfind', (htargets name new hfind).2 other hfind']
  cases hparse : Tree.parseMath source with
  | error x =>
    rw [Fixer.fixExpression, hparse] at hrun
    cases hrun
  | ok t =>
    obtain ⟨fs, hfs, hresolved, hcanonical, -⟩ := Tree.parseMath_sound hparse
    have hfirst : ∀ name ∈ commandsOf fs, ds.Ignores name := by
      rw [← hfs.commandNames]
      exact hnames t hparse
    obtain ⟨gs, hgs, hchars, hstays, hcommands⟩ :=
      AsRead.exists_fixed ⟨hresolved, hcanonical⟩ hnew hagain
    -- The result is the one that comes of enough steps.
    obtain ⟨enough, henough⟩ := hfs.run_fixExpression hparse hfirst c
    have hsame := Fixer.fixExpression_mono (Nat.le_max_left steps enough) c source _ _ hrun
    rw [henough _ (Nat.le_max_right steps enough)] at hsame
    cases hsame
    refine ⟨rfl, ?_⟩
    obtain ⟨u, hparse', hu⟩ := Tree.parseMath_complete hgs.resolved hgs.canonical
    obtain ⟨enough', henough'⟩ := hu.run_fixExpression hparse' (hcommands ▸ hfirst) c
    rw [hstays] at henough'
    rw [hchars]
    exact ⟨enough', henough'⟩

theorem fixExpression_fixed_blocks :
    let first := r"\newcommand{\m}[1]{#1}"
    let second := r" \begin{align}[t]{c} x_ y\sqrt{\begin{align*}^\alpha" ++
      r"\end{align*}}\end{align}{z}^\ \  "
    let result := "\n" ++ r"\begin{aligned}[t]{c} x_ y\sqrt{\begin{aligned}^\alpha" ++
      r"\end{aligned}}\end{aligned}{z}^\ \ " ++ "\n"
    let fixer := fun n => Fixer.ofConfig n .standard
    ∃ ds ds', ((fixer 90).fixExpression first).run.run .empty = some (.ok "", ds) ∧
      ds.toList.map Definition.name = ["m"] ∧
      ((fixer 90).fixExpression second).run.run ds = some (.ok result, ds') ∧ ds' = ds ∧
      ∃ enough, ∀ n, enough ≤ n →
        ((fixer n).fixExpression result).run.run ds = some (.ok result, ds) := by
  intro first second result fixer
  have hran : (((fixer 90).fixExpression first).run.run .empty).bind (fun out₀ =>
      (Tree.parseMath second).toOption.bind fun t =>
        (((fixer 90).fixExpression second).run.run out₀.2).map fun out =>
          (out₀.1.toOption, out.1.toOption, out₀.2.toList.map Definition.name,
            (t.commandNames t.root).all fun name =>
              name != definingCommand && (out₀.2.find? name).isNone)) =
      some (some "", some result, ["m"], true) := by
    decide +kernel
  obtain ⟨⟨r₀, ds⟩, hrun₀, hran⟩ := Option.bind_eq_some_iff.mp hran
  obtain ⟨t, hparse, hran⟩ := Option.bind_eq_some_iff.mp hran
  obtain ⟨⟨r, ds'⟩, hrun, hout⟩ := Option.map_eq_some_iff.mp hran
  simp only [Prod.mk.injEq] at hout
  obtain ⟨hok₀, hok, hdefined, hall⟩ := hout
  obtain rfl := Tree.eq_ok_of_toOption hok₀
  obtain rfl := Tree.eq_ok_of_toOption hok
  replace hparse := Tree.eq_ok_of_toOption hparse
  have hnames : ∀ u, Tree.parseMath second = .ok u → ∀ name ∈ u.commandNames u.root,
      name ≠ definingCommand ∧ ds.find? name = none := by
    intro u hu name hname
    obtain rfl := Except.ok.inj (hparse.symm.trans hu)
    simpa using List.all_eq_true.mp hall name hname
  have htargets : ∀ old new, Config.standard.fixes.renames.find? old = some new →
      isName new = true ∧
        ∀ other, Config.standard.fixes.renames.find? new = some other → other = new := by
    intro old new hfind
    have hmem : (old, new) ∈ Renames.standard.toList := Renames.mem_of_find? hfind
    obtain rfl : new = "aligned" := by
      rcases List.mem_cons.mp hmem with heq | hmem
      · exact (Prod.mk.inj heq).2
      · exact (Prod.mk.inj (List.mem_singleton.mp hmem)).2
    refine ⟨by decide, fun other hother => ?_⟩
    have hnone : Config.standard.fixes.renames.find? "aligned" = none := by decide
    rw [hnone] at hother
    cases hother
  obtain ⟨hds, hagain⟩ := fixExpression_fixed hnames htargets hrun
  exact ⟨ds, ds', hrun₀, hdefined, hrun, hds, hagain⟩

end Formulary
