import Formulary.Proofs.Expansion

/-!
# What expansion leaves behind

After an expansion that succeeded, the formula holds no definition and no use of a macro that was
known before it, wherever in the formula it could stand. The definitions that were known stay as
they were, in their order, whether or not the expansion succeeded, and no name is defined twice.

What is left in the formula is known from the walk through it, with all names known before as names
that are to go (`tracks_expandAll`). That definitions are only added is shown of the walk itself, as
whatever its visitor keeps is kept by it (`Walk.relates_extends`).
-/

namespace Formulary

open Plan Shape

/-! ## Definitions are only added -/

namespace Definitions

/-- The names of all macros, in the order in which they were defined. -/
def names (ds : Definitions) : List String := ds.toList.map Definition.name

/-- Definitions were added after others, under names that were not taken. -/
structure Extends (ds ds' : Definitions) : Prop where
  before : ds.toList <+: ds'.toList
  nodup : ds.names.Nodup → ds'.names.Nodup

theorem Extends.refl (ds : Definitions) : ds.Extends ds := ⟨List.prefix_rfl, fun h => h⟩

theorem Extends.trans {ds ds' ds'' : Definitions} (h : ds.Extends ds') (h' : ds'.Extends ds'') :
    ds.Extends ds'' := ⟨h.before.trans h'.before, fun hnodup => h'.nodup (h.nodup hnodup)⟩

/-- A definition goes in under a new name, after the others. -/
theorem extends_insert {ds ds' : Definitions} {d : Definition} {place : Span}
    (h : ds.insert d place = .ok ds') : ds.Extends ds' := by
  rw [insert] at h
  split at h
  · cases h
  · rename_i hfree
    obtain rfl := Except.ok.inj h
    refine ⟨List.prefix_append _ _, fun hnodup => ?_⟩
    have hname : d.name ∉ ds.names := by
      intro hmem
      obtain ⟨e, he, hname⟩ := List.mem_map.mp hmem
      exact hfree (List.find?_isSome.mpr ⟨e, he, beq_iff_eq.mpr hname⟩)
    rw [names, List.map_append]
    exact hnodup.append (List.nodup_singleton _) (List.disjoint_singleton.mpr hname)

end Definitions

namespace Walk

/-- A walk that only adds definitions. -/
def Extends {α : Type} (w : Walk Definitions Fault α) : Prop :=
  ∀ t ds r t' ds', w.run.run (t, ds) = some (r, t', ds') → ds.Extends ds'

namespace Extends

variable {α β : Type} {w : Walk Definitions Fault α}

theorem pure (a : α) : Extends (Pure.pure a) := by
  intro t ds r t' ds' hrun
  cases hrun
  exact .refl ds

theorem throw (x : Fault) : Extends (α := α) (MonadExcept.throw x) := by
  intro t ds r t' ds' hrun
  cases hrun
  exact .refl ds

theorem endless : Extends (α := α) Walk.endless := by
  intro t ds r t' ds' hrun
  cases hrun

theorem tree : Extends Walk.tree := by
  intro t ds r t' ds' hrun
  cases hrun
  exact .refl ds

/-- Edits of the formula add no definitions. -/
theorem edit (e : Edit Fault α) : Extends (Walk.edit e) := by
  intro t ds r t' ds' hrun
  cases hrun
  exact .refl ds

theorem bind {f : α → Walk Definitions Fault β} (h : Extends w) (hnext : ∀ a, Extends (f a)) :
    Extends (w >>= f) := by
  intro t ds r t' ds' hrun
  rcases run_bind_eq_some hrun with ⟨a, ⟨t₁, ds₁⟩, hfirst, hrest⟩ | ⟨x, ⟨t₁, ds₁⟩, hfirst, hout⟩
  · exact (h _ _ _ _ _ hfirst).trans (hnext a _ _ _ _ _ hrest)
  · cases hout
    exact h _ _ _ _ _ hfirst

/-- What is done with the definitions that are known. -/
theorem notes_bind {f : Definitions → Walk Definitions Fault α}
    (h : ∀ t ds r t' ds', (f ds).run.run (t, ds) = some (r, t', ds') → ds.Extends ds') :
    Extends (Walk.notes >>= f) :=
  fun t ds r t' ds' hrun => h t ds r t' ds' hrun

end Extends

/-- A walk whose visitor only adds definitions only adds definitions. -/
theorem relates_extends : Relates fun {α : Type} (w _ : Walk Definitions Fault α) => w.Extends where
  pure := Extends.pure
  bind := Extends.bind
  tree := Extends.tree
  endless _ := Extends.endless

end Walk

namespace Definitions

/-- Reading a definition adds it or fails. -/
theorem extends_define (command : NodeId) : (define command).Extends := by
  rw [define]
  refine Walk.Extends.tree.bind fun t => ?_
  split
  · exact Walk.Extends.throw _
  · split
    · exact Walk.Extends.throw _
    · refine Walk.Extends.notes_bind fun t ds r t' ds' hrun => ?_
      split at hrun
      · exact Walk.Extends.throw _ _ _ _ _ _ hrun
      · rename_i hinsert
        cases hrun
        exact extends_insert hinsert

/-- A visit only adds definitions, whatever it finds. -/
theorem extends_visitor (id : NodeId) : (visitor id).Extends := by
  rw [visitor]
  refine Walk.Extends.tree.bind fun t => ?_
  split
  · split
    · exact (extends_define id).bind fun _ => Walk.Extends.pure _
    · refine Walk.Extends.notes_bind fun t ds => ?_
      split
      · exact ((Walk.Extends.edit _).bind fun _ => Walk.Extends.pure _) t ds
      · exact Walk.Extends.pure _ t ds
  · exact Walk.Extends.pure _

/-- Expansion only adds definitions. -/
theorem extends_expandAll (steps : Nat) : (expandAll steps).Extends :=
  Walk.Extends.tree.bind fun t =>
    (Walk.relates_extends.steps extends_visitor (Nat.le_refl steps)).1 t.root

/-- Definitions that were made one by one have different names. -/
theorem Reached.nodup_names {ds : Definitions} (h : ds.Reached) : ds.names.Nodup := by
  induction h with
  | empty => exact List.nodup_nil
  | expand _ _ hrun ih => exact (extends_expandAll _ _ _ _ _ _ hrun).nodup ih

end Definitions

/-! ## Whole formulas -/

/-- Expansion is complete, and it only adds definitions. If it succeeds on a formula that was read,
nothing that the formula then reaches is a definition or a use of a macro that was known before.
Whether or not it succeeds, the definitions that were known come first among those that are known
afterwards, and no two of these have one name. -/
theorem expandAll_complete {source : String} {steps : Nat} {t t' : Tree} {ds ds' : Definitions}
    {r : Except Fault Unit} (hparse : Tree.parseMath source = .ok t) (hds : ds.Reached)
    (hrun : (Definitions.expandAll steps).run.run (t, ds) = some (r, t', ds')) :
    (r = .ok () → ∀ id name parameters, t'.Reaches t'.root id →
      t'.node id = .command name parameters → name ≠ definingCommand ∧ ds.find? name = none) ∧
    ds.toList <+: ds'.toList ∧ ds'.names.Nodup := by
  have hextends := Definitions.extends_expandAll steps t ds r t' ds' hrun
  refine ⟨?_, hextends.before, hextends.nodup hds.nodup_names⟩
  rintro rfl id name parameters hid hnode
  obtain ⟨ms, hstand⟩ := hds.standFor
  obtain ⟨fs, hfs, hneat⟩ := Tree.isNeat_parseMath hparse
  have hknown : ds.Cover (fun name => name = definingCommand ∨ ds.contains name = true) ms := by
    refine ⟨hstand, fun name hname => hname.imp_right fun hcontains => ?_⟩
    rcases hstand.find? name with ⟨hnone, -⟩ | ⟨d, m, -, hfind, -⟩
    · rw [Definitions.contains, hnone] at hcontains
      cases hcontains
    · exact ⟨m, List.mem_of_find?_eq_some hfind, by simpa using List.find?_some hfind⟩
  obtain ⟨ms', -, gs, ⟨hclear, hgs, -⟩, -⟩ :=
    (tracks_expandAll hfs hneat hknown agreesOnMet_visitor steps).refines _ t' ds' hrun
  have hclear := hclear name (hgs.mem_commandsOf hid hnode)
  rw [not_or, Definitions.contains, Bool.not_eq_true, Option.isSome_eq_false_iff,
    Option.isNone_iff_eq_none] at hclear
  exact hclear

theorem expandAll_complete_nested :
    let first := r"\newcommand{\p}[1]{a#1b}"
    let second := r"\newcommand\q{\p{c}}x_\q\sqrt{\p{\q}}" ++
      r"\begin{m}{\q}y\q\end{m}"
    ∃ t₀ t₁ ds t t' ds', Tree.parseMath first = .ok t₀ ∧
      (Definitions.expandAll 90).run.run (t₀, .empty) = some (.ok (), t₁, ds) ∧
      Tree.parseMath second = .ok t ∧
      (Definitions.expandAll 90).run.run (t, ds) = some (.ok (), t', ds') ∧
      t'.text = r"x_{acb}\sqrt{aacbb}\begin{m}{acb}yacb\end{m}" ∧
      ds.names = ["p"] ∧ ds'.names = ["p", "q"] ∧
      (∀ id name parameters, t'.Reaches t'.root id → t'.node id = .command name parameters →
        name ≠ definingCommand ∧ ds.find? name = none) ∧
      ds.toList <+: ds'.toList ∧ ds'.names.Nodup := by
  intro first second
  have hran : ((Definitions.empty.expanded? 90 first).bind fun out₀ =>
      (out₀.2.2.expanded? 90 second).map fun out =>
        (out.2.1.text, out₀.2.2.names, out.2.2.names)) =
      some (r"x_{acb}\sqrt{aacbb}\begin{m}{acb}yacb\end{m}",
        ["p"], ["p", "q"]) := by
    decide +kernel
  obtain ⟨⟨t₀, t₁, ds⟩, hfirst, hran⟩ := Option.bind_eq_some_iff.mp hran
  obtain ⟨⟨t, t', ds'⟩, hsecond, hout⟩ := Option.map_eq_some_iff.mp hran
  simp only [Prod.mk.injEq] at hout
  obtain ⟨htext, hnames₀, hnames⟩ := hout
  obtain ⟨hparse₀, hrun₀⟩ := Definitions.expanded?_eq_some hfirst
  obtain ⟨hparse, hrun⟩ := Definitions.expanded?_eq_some hsecond
  obtain ⟨hclear, hbefore, hnodup⟩ :=
    expandAll_complete hparse (.expand .empty hparse₀ hrun₀) hrun
  exact ⟨t₀, t₁, ds, t, t', ds', hparse₀, hrun₀, hparse, hrun, htext, hnames₀, hnames,
    hclear rfl, hbefore, hnodup⟩

end Formulary
