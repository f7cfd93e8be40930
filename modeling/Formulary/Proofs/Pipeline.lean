import Formulary.Fixer
import Formulary.Proofs.Expansion
import Formulary.Proofs.Margins

/-!
# Tidy trees on their way through the passes

A formula is tidy when it was read, and every pass leaves it tidy: macro expansion, also when it
fails; the renaming of environments, if the new names are names; and the setting of margins. So are
the bodies of the macros that are kept for later formulas.

Expansion and margins are looked at by shape, since they put elements into chains. Renaming changes
nodes where they stand.
-/

namespace Formulary

open BlockMarker (isName)
open Plan Shape

variable {t : Tree} {steps : Nat} {s : FixSettings} {p : Pass} {ds : Definitions}

/-! ## Renaming -/

theorem Renames.mem_of_find? {r : Renames} {old new : String} (h : r.find? old = some new) :
    (old, new) ∈ r.toList := by
  rw [find?, List.lookup_eq_some_iff] at h
  obtain ⟨before, after, heq, -⟩ := h
  rw [heq]
  simp

namespace Tree

variable {t : Tree}

/-- Another name leaves a block a block with the same parameters and the same body. -/
theorem Tidy.rename {id : NodeId} {old new : String} {parameters : List NodeId} {body : NodeId}
    (h : t.Tidy) (hnode : t.node id = .block old parameters body) (hnew : isName new = true) :
    (t.rename id new).Tidy := by
  have hrename : t.rename id new = t.setNode id (.block new parameters body) := by
    rw [Tree.rename, hnode]
  have hlt : id < t.size := by
    by_contra hle
    rw [node_eq_look, look_eq_none_iff.mpr (Nat.le_of_not_lt hle)] at hnode
    cases hnode
  have hsame : t.SameLinks (t.rename id new) := sameLinks_rename id new
  rw [hrename] at hsame ⊢
  have hatomic : ∀ i, isAtomic ((t.setNode id (.block new parameters body)).node i) =
      isAtomic (t.node i) := by
    intro i
    rw [node_setNode hlt]
    split
    · rename_i heq
      rw [← heq, hnode]
      rfl
    · rfl
  refine ⟨h.linked.congr hsame, (hsame.isSequence_eq _).trans h.isSequence_root, fun i hi => ?_⟩
  have htidy := h.nodes i (hsame.reaches_iff.mp hi)
  rw [node_setNode hlt]
  split
  · rename_i heq
    rw [← heq, hnode] at htidy
    exact ⟨hnew, fun p hp => (hsame.kind_eq p).trans (htidy.2 p hp)⟩
  · exact htidy.congr hatomic hsame.kind_eq

/-- Renaming with names leaves a formula tidy. -/
theorem Tidy.renames {r : Renames} (h : t.Tidy) (hr : ∀ x ∈ r.toList, isName x.2 = true) :
    (r.apply t).Tidy := by
  rw [Renames.apply]
  generalize t.visited t.root = ids
  induction ids generalizing t with
  | nil => exact h
  | cons id ids ih =>
    rw [List.foldl_cons]
    apply ih
    rw [Renames.renameNode]
    split
    · rename_i name parameters body hnode
      split
      · rename_i new hfind
        exact h.rename hnode (hr (name, new) (Renames.mem_of_find? hfind))
      · exact h
    · exact h

end Tree

/-! ## Blanks -/

namespace Shape

theorem isPlain_of_isBlank {c : Char} (h : Text.isBlank c = true) : isPlain c = true := by
  rw [isPlain_iff]
  rintro s rfl
  cases s <;> revert h <;> decide

namespace Written

/-- A plain character at the end is no part of an escape. -/
theorem of_concat : ∀ {cs : List Char} {c : Char}, Written none (cs ++ [c]) → isPlain c = true →
    Written none cs
  | [], _, _, _ => nil
  | [d], c, h, hc => by
    cases h with
    | plain hd _ => exact plain hd nil
    | bracket hs hne _ => exact bracket hs hne nil
    | escape s _ => simp [isPlain_char] at hc
  | d :: e :: cs, c, h, hc => by
    cases h with
    | plain hd h => exact plain hd (of_concat h hc)
    | bracket hs hne h => exact bracket hs hne (of_concat h hc)
    | escape s h => exact escape s (of_concat h hc)

theorem trimLeft {text : String} (h : Written none text.toList) :
    Written none (Text.trimLeft text).toList := by
  rw [Text.trimLeft, String.toList_ofList]
  generalize text.toList = cs at h
  induction cs with
  | nil => exact nil
  | cons c cs ih =>
    rw [List.dropWhile_cons]
    split
    · rename_i hblank
      exact ih (h.tail (isPlain_of_isBlank hblank))
    · exact h

theorem trimRight {text : String} (h : Written none text.toList) :
    Written none (Text.trimRight text).toList := by
  rw [Text.trimRight, String.toList_ofList]
  generalize text.toList = cs at h
  induction cs using List.reverseRecOn with
  | nil => exact nil
  | append_singleton cs c ih =>
    rw [List.reverse_append, List.reverse_singleton, List.singleton_append, List.dropWhile_cons]
    split
    · rename_i hblank
      exact ih (h.of_concat (isPlain_of_isBlank hblank))
    · rw [List.reverse_cons, List.reverse_reverse]
      exact h

end Written

end Shape

/-! ## Margins -/

namespace Shape

variable {fs : List Shape}

theorem neat_lineBreak : (Shape.literal "\n").Neat := by
  rw [Neat]
  exact ⟨by decide, Written.plain rfl .nil⟩

theorem NeatRow.startTrimmed (h : NeatRow fs) : NeatRow (startTrimmed fs) := by
  rw [neatRow_iff] at h ⊢
  refine forall_startTrimmed (by simp [Neat]) (fun text htext hne => ?_) h
  rw [Neat] at htext ⊢
  exact ⟨hne, htext.2.trimLeft⟩

theorem NeatRow.endTrimmed {before after : List Shape} (h : NeatRow before.reverse)
    (hafter : NeatRow after) : NeatRow (endTrimmed before after) := by
  rw [neatRow_iff] at h hafter ⊢
  refine forall_endTrimmed (by simp [Neat]) (fun text htext hne => ?_) (by simpa using h) hafter
  rw [Neat] at htext ⊢
  exact ⟨hne, htext.2.trimRight⟩

theorem Neat.lineBroken {f : Shape} {joined : String → String} {beside : List Shape} (h : f.Neat)
    (hjoined : ∀ text, Written none text.toList →
      joined text ≠ "" ∧ Written none (joined text).toList)
    (hbeside : NeatRow beside) : NeatRow (lineBroken joined beside f) := by
  cases f with
  | empty => exact neatRow_cons.mpr ⟨neat_lineBreak, neatRow_nil⟩
  | literal text =>
    rw [Neat] at h
    rw [Shape.lineBroken, neatRow_cons, Neat]
    exact ⟨hjoined text h.2, neatRow_nil⟩
  | group | script | command | block => exact hbeside

theorem NeatRow.startPadded (h : NeatRow fs) : NeatRow (startPadded fs) := by
  cases fs with
  | nil => exact h
  | cons f fs =>
    rw [neatRow_cons] at h
    rw [Shape.startPadded, neatRow_append]
    refine ⟨h.1.lineBroken (fun text hwritten => ?_) ?_, h.2⟩
    · rw [String.toList_append]
      exact ⟨by simp, Written.plain rfl hwritten⟩
    · rw [neatRow_cons, neatRow_cons]
      exact ⟨neat_lineBreak, h.1, neatRow_nil⟩

theorem NeatRow.endPadded (h : NeatRow fs) : NeatRow (endPadded fs) := by
  induction fs using List.reverseRecOn with
  | nil => exact h
  | append_singleton fs f =>
    rw [neatRow_append, neatRow_cons] at h
    rw [endPadded_concat, neatRow_append]
    refine ⟨h.1, h.2.1.lineBroken (fun text hwritten => ?_) ?_⟩
    · rw [String.toList_append]
      exact ⟨by simp, hwritten.append (Written.plain rfl .nil)⟩
    · rw [neatRow_cons, neatRow_cons]
      exact ⟨h.2.1, neat_lineBreak, neatRow_nil⟩

theorem NeatRow.withMargins (h : NeatRow fs) (padBlocks : Bool) :
    NeatRow (withMargins padBlocks fs) := by
  have htrimmed : NeatRow (Shape.endTrimmed (Shape.startTrimmed fs).reverse []) := by
    refine NeatRow.endTrimmed ?_ neatRow_nil
    rw [List.reverse_reverse]
    exact h.startTrimmed
  rw [Shape.withMargins]
  split
  · exact htrimmed.startPadded.endPadded
  · exact htrimmed

end Shape

/-- Setting margins ends well and leaves a formula tidy. -/
theorem Tree.Tidy.run_setMargins (h : t.Tidy) (pad : Bool) :
    ∃ t', (Tree.setMargins pad).run.run t = (.ok (), t') ∧ t'.Tidy := by
  obtain ⟨fs, hfs, hneat⟩ := Tree.tidy_iff.mp h
  obtain ⟨t', hrun, hdepicts⟩ := hfs.run_setMargins pad
  exact ⟨t', hrun, Tree.tidy_iff.mpr ⟨_, hdepicts, hneat.withMargins pad⟩⟩

/-! ## Passes -/

/-- A walk maintains what holds of every tree and all definitions that it can leave behind, whether
or not it fails. -/
def Maintains (P : Tree → Definitions → Prop) (walk : Walk Definitions Fault Unit) : Prop :=
  ∀ t ds r t' ds', P t ds → walk.run.run (t, ds) = some (r, t', ds') → P t' ds'

theorem runPasses_cons (p : Pass) (passes : List Pass) :
    Fixer.runPasses (p :: passes) = (do p.run; Fixer.runPasses passes) := rfl

/-- What every pass maintains, their run maintains. -/
theorem maintains_runPasses {P : Tree → Definitions → Prop} {passes : List Pass}
    (h : ∀ p ∈ passes, Maintains P p.run) : Maintains P (Fixer.runPasses passes) := by
  induction passes with
  | nil =>
    intro t ds r t' ds' hP hrun
    cases hrun
    exact hP
  | cons p passes ih =>
    rw [List.forall_mem_cons] at h
    intro t ds r t' ds' hP hrun
    rw [runPasses_cons] at hrun
    rcases run_bind_eq_some hrun with ⟨⟨⟩, ⟨t₁, ds₁⟩, hfirst, hrest⟩ | ⟨x, ⟨t₁, ds₁⟩, hfirst, hout⟩
    · exact ih h.2 _ _ _ _ _ (h.1 _ _ _ _ _ hP hfirst) hrest
    · cases hout
      exact h.1 _ _ _ _ _ hP hfirst

theorem mem_passesOf :
    p ∈ Fixer.passesOf steps s ↔ (s.expandMacros ∧ p = .expandMacros steps) ∨
      (s.renameEnvironments ∧ p = .renameEnvironments s.renames) ∨
      (s.trimSpaces ∧ p = .trimSpaces s.padBlocks) := by
  simp [Fixer.passesOf]

/-! ### Trees -/

/-- A formula that is tidy, and definitions that all are. -/
def Settled (t : Tree) (ds : Definitions) : Prop := t.Tidy ∧ ∃ ms, ds.StandFor ms

theorem settled_expandMacros (steps : Nat) : Maintains Settled (Pass.expandMacros steps).run := by
  intro t ds r t' ds' ⟨htidy, ms, hknown⟩ hrun
  obtain ⟨fs, hfs, hneat⟩ := Tree.tidy_iff.mp htidy
  obtain ⟨ms', hknown', hout⟩ := refines_expandAll hfs hneat hknown steps r t' ds' hrun
  refine ⟨Tree.tidy_iff.mpr ?_, ms', hknown'⟩
  cases r with
  | ok =>
    obtain ⟨gs, hgs, -⟩ := hout
    exact ⟨gs, hgs⟩
  | error x => exact hout.1.1

theorem settled_renameEnvironments {renames : Renames}
    (h : ∀ x ∈ renames.toList, isName x.2 = true) :
    Maintains Settled (Pass.renameEnvironments renames).run := by
  intro t ds r t' ds' ⟨htidy, hknown⟩ hrun
  cases hrun
  exact ⟨htidy.renames h, hknown⟩

theorem run_trimSpaces {t' : Tree} {pad : Bool}
    (h : (Tree.setMargins pad).run.run t = (.ok (), t')) :
    (Pass.trimSpaces pad).run.run.run (t, ds) = some (.ok (), t', ds) := by
  rw [Pass.trimSpaces, run_bind_of_ok run_tree, run_edit, Edit.run_reportedAt_of_ok h]

theorem settled_trimSpaces (pad : Bool) : Maintains Settled (Pass.trimSpaces pad).run := by
  intro t ds r t' ds' ⟨htidy, hknown⟩ hrun
  obtain ⟨t₁, hmargins, htidy₁⟩ := htidy.run_setMargins pad
  rw [run_trimSpaces hmargins] at hrun
  cases hrun
  exact ⟨htidy₁, hknown⟩

theorem settled_of_mem_passesOf (h : ∀ x ∈ s.renames.toList, isName x.2 = true)
    (hp : p ∈ Fixer.passesOf steps s) :
    Maintains Settled p.run := by
  rcases mem_passesOf.mp hp with ⟨-, rfl⟩ | ⟨-, rfl⟩ | ⟨-, rfl⟩
  · exact settled_expandMacros steps
  · exact settled_renameEnvironments h
  · exact settled_trimSpaces s.padBlocks

/-! ### Definitions -/

/-- Only expansion teaches macros. -/
theorem untaught_of_mem_passesOf (ds : Definitions) (hs : s.expandMacros = false)
    (hp : p ∈ Fixer.passesOf steps s) :
    Maintains (fun _ ds' => ds' = ds) p.run := by
  intro t ds₁ r t' ds' hP hrun
  rcases mem_passesOf.mp hp with ⟨hexpand, -⟩ | ⟨-, rfl⟩ | ⟨-, rfl⟩
  · rw [hs] at hexpand
    cases hexpand
  · cases hrun
    exact hP
  · rw [Pass.trimSpaces, run_bind_of_ok run_tree, run_edit] at hrun
    cases hrun
    exact hP

/-- Definitions that are known after formulas were fixed one after the other, whether or not that
failed, with any settings. -/
inductive Definitions.Learned : Definitions → Prop
  | empty : Learned .empty
  | fix {source : String} {steps : Nat} {c : Config} {ds ds' : Definitions}
    {r : Except Fault String} : Learned ds →
      ((Fixer.ofConfig steps c).fixExpression source).run.run ds = some (r, ds') → Learned ds'

theorem passesOf_expandMacros (h : s.expandMacros = true) :
    Fixer.passesOf steps s =
      .expandMacros steps :: Fixer.passesOf steps { s with expandMacros := false } := by
  simp [Fixer.passesOf, h]

/-- Expansion comes first, so what it learns it learns from a formula as it was read. -/
theorem reached_of_runPasses {source : String} {t' : Tree} {ds' : Definitions}
    {r : Except Fault Unit} (hparse : Tree.parseMath source = .ok t) (hds : ds.Reached)
    (hrun : (Fixer.runPasses (Fixer.passesOf steps s)).run.run (t, ds) = some (r, t', ds')) :
    ds'.Reached := by
  cases hs : s.expandMacros with
  | false =>
    rw [maintains_runPasses (fun p => untaught_of_mem_passesOf ds hs) _ _ _ _ _ rfl hrun]
    exact hds
  | true =>
    rw [passesOf_expandMacros hs, runPasses_cons] at hrun
    rcases run_bind_eq_some hrun with ⟨⟨⟩, ⟨t₁, ds₁⟩, hfirst, hrest⟩ | ⟨x, ⟨t₁, ds₁⟩, hfirst, hout⟩
    · rw [maintains_runPasses (fun p => untaught_of_mem_passesOf ds₁ rfl) _ _ _ _ _ rfl hrest]
      exact .expand hds hparse hfirst
    · cases hout
      exact .expand hds hparse hfirst

theorem Definitions.Learned.reached (h : ds.Learned) : ds.Reached := by
  induction h with
  | empty => exact .empty
  | @fix source steps c ds ds' r _ hrun ih =>
    rw [Fixer.fixExpression] at hrun
    cases hparse : Tree.parseMath source with
    | error e =>
      rw [hparse] at hrun
      cases hrun
      exact ih
    | ok t =>
      rw [hparse] at hrun
      obtain ⟨⟨r', t', ds₁⟩, hpasses, hout⟩ := Option.bind_eq_some_iff.mp hrun
      cases hout
      exact reached_of_runPasses hparse ih hpasses

/-- A formula that was read is tidy, and so it is after each of the passes that the settings ask for,
also when the last of them failed; and so are all the definitions known then. -/
theorem tidy_of_runPasses {source : String} {steps k : Nat} {c : Config} {t t' : Tree}
    {ds ds' : Definitions} {r : Except Fault Unit} (hparse : Tree.parseMath source = .ok t)
    (hds : ds.Learned) (hnames : ∀ x ∈ c.fixes.renames.toList, isName x.2 = true)
    (hrun : (Fixer.runPasses ((Fixer.ofConfig steps c).passes.take k)).run.run (t, ds) =
      some (r, t', ds')) :
    t'.Tidy ∧ ∀ d ∈ ds'.toList, d.body.Tidy := by
  have hpasses : ∀ p ∈ (Fixer.ofConfig steps c).passes.take k, Maintains Settled p.run :=
    fun p hp => settled_of_mem_passesOf hnames (List.mem_of_mem_take hp)
  have hstart : Settled t ds :=
    ⟨Tree.tidy_iff.mpr (Tree.isNeat_parseMath hparse), hds.reached.standFor⟩
  obtain ⟨htidy, ms, hknown⟩ := maintains_runPasses hpasses _ _ _ _ _ hstart hrun
  exact ⟨htidy, hknown.tidy⟩

/-- A macro from an earlier formula brings a block, which is renamed and padded. -/
theorem tidy_of_runPasses_block :
    let first := r"\newcommand{\m}[1]{\begin{align}#1^2\end{align}}"
    let second := r" \m{x} "
    let fixer := Fixer.ofConfig 40 .standard
    ∃ ds t t' ds', (fixer.fixExpression first).run.run .empty = some (.ok "", ds) ∧
      Tree.parseMath second = .ok t ∧
      (Fixer.runPasses (fixer.passes.take 3)).run.run (t, ds) = some (.ok (), t', ds') ∧
      t'.text = "\n\\begin{aligned}x^2\\end{aligned}\n" ∧ ds'.toList.length = 1 ∧
      t'.Tidy ∧ ∀ d ∈ ds'.toList, d.body.Tidy := by
  intro first second fixer
  have hran : (((fixer.fixExpression first).run.run .empty).bind fun out₀ =>
      (Tree.parseMath second).toOption.bind fun t =>
        ((Fixer.runPasses (fixer.passes.take 3)).run.run (t, out₀.2)).map fun out =>
          (out₀.1.toOption, out.1.toOption, out.2.1.text, out.2.2.toList.length)) =
      some (some "", some (), "\n\\begin{aligned}x^2\\end{aligned}\n", 1) := by
    decide +kernel
  obtain ⟨⟨r₀, ds⟩, hrun₀, hran⟩ := Option.bind_eq_some_iff.mp hran
  obtain ⟨t, hparse, hran⟩ := Option.bind_eq_some_iff.mp hran
  obtain ⟨⟨r, t', ds'⟩, hrun, hout⟩ := Option.map_eq_some_iff.mp hran
  simp only [Prod.mk.injEq] at hout
  obtain ⟨hok₀, hok, htext, hlength⟩ := hout
  obtain rfl := Tree.eq_ok_of_toOption hok₀
  obtain rfl := Tree.eq_ok_of_toOption hok
  replace hparse := Tree.eq_ok_of_toOption hparse
  obtain ⟨htidy, hbodies⟩ :=
    tidy_of_runPasses hparse (.fix .empty hrun₀) (by decide +kernel) hrun
  exact ⟨ds, t, t', ds', hrun₀, hparse, hrun, htext, hlength, htidy, hbodies⟩

end Formulary
