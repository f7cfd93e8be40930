import Formulary.Proofs.Replicas
import Formulary.Proofs.Sessions

/-!
# Surgery that is refused

Surgery that is misused answers a `SurgeryError`. Taking out an element lets go of it before it looks
into the next cell, so it might be refused when the store has changed already. It is not: after a
cell comes a cell or nothing, in the formula and in all that was left behind, and so whatever is
refused is refused before anything is done.

This takes less than the order that `Session` keeps. A store that was `Handled` may be in disorder:
any node that was given out may be handed over, also one that hangs elsewhere, or that stands in
several places already, or a chain where an element belongs. Only what is copied has to have an end.

* `Tree.Coherent` is the invariant, and every operation keeps it, done or refused.
* `refused_surgery_changes_nothing` says exactly when surgery is refused, and that the store is then
  as it was.
-/

namespace Formulary

namespace Tree

variable {old new id cell : NodeId} {e : SurgeryError} {t t' source : Tree} {node : Node}
  {place : Option Span} {r : Except SurgeryError NodeId}

/-- A node that may stand in the store: what hangs under it was given out, and if it is a cell then
a cell comes after it, or nothing. -/
structure Admits (t : Tree) (node : Node) : Prop where
  lt_size : ∀ child ∈ node.children, child < t.size
  next : ∀ head next, node = .sequence head (some next) → t.isSequence next = true

/-- Every node of the store may stand there. -/
def Coherent (t : Tree) : Prop := ∀ i, t.Admits (t.node i)

/-- A node may stand in a store that has grown. -/
theorem Admits.mono (h : t.Admits node) (hsize : t.size ≤ t'.size)
    (hsequence : ∀ j < t.size, t'.isSequence j = t.isSequence j) : t'.Admits node where
  lt_size child hchild := (h.lt_size child hchild).trans_le hsize
  next head next hnode := by
    have hnext := h.next head next hnode
    rw [hsequence next (lt_size_of_isSequence hnext), hnext]

theorem Admits.congr {node' : Node} (h : t.Admits node) (halike : node.Alike node') :
    t.Admits node' := by
  cases halike with
  | sequence | empty => exact h
  | literal | group | script | command | block => exact ⟨h.lt_size, fun _ _ heq => by cases heq⟩

theorem Admits.swap (h : t.Admits node) (hnew : new < t.size) : t.Admits (node.swap old new) where
  lt_size child hchild := by
    rcases mem_children_swap hchild with rfl | hchild
    · exact hnew
    · exact h.lt_size child hchild
  next head next hnode := by
    cases node <;> cases hnode
    exact h.next _ next rfl

theorem admits_of_not_isSequence (hnode : node.isSequence = false)
    (hlt : ∀ child ∈ node.children, child < t.size) : t.Admits node where
  lt_size := hlt
  next head next heq := by
    rw [heq] at hnode
    cases hnode

theorem admits_cell {head : NodeId} {tail : Option NodeId} (hhead : head < t.size)
    (htail : ∀ next ∈ tail, t.isSequence next = true) : t.Admits (.sequence head tail) where
  lt_size child hchild := by
    rcases List.mem_cons.mp hchild with rfl | hchild
    · exact hhead
    · exact lt_size_of_isSequence (htail child (Option.mem_toList.mp hchild))
  next head' next heq := htail next (by rw [(Node.sequence.inj heq).2]; rfl)

/-- Nodes of a grounded store may stand there. -/
theorem Grounded.coherent (h : t.Grounded) : t.Coherent := fun i => by
  refine ⟨h.lt_size i, fun head next hnode => ?_⟩
  have hproper := h.proper i
  rw [hnode] at hproper
  exact hproper.2 next rfl

namespace Coherent

/-- One node may change, or be new, into one that may stand in the store. -/
theorem change {place : NodeId} (h : t.Coherent) (hsize : t.size ≤ t'.size)
    (hnode : ∀ j, j ≠ place → t'.node j = t.node j)
    (hsequence : ∀ j < t.size, t'.isSequence j = t.isSequence j)
    (hplace : t.Admits (t'.node place)) : t'.Coherent := by
  intro i
  by_cases hi : i = place
  · rw [hi]
    exact hplace.mono hsize hsequence
  · rw [hnode i hi]
    exact (h i).mono hsize hsequence

theorem of_node_eq (h : t.Coherent) (hsize : t'.size = t.size)
    (hnode : ∀ j, t'.node j = t.node j) : t'.Coherent := by
  intro i
  rw [hnode i]
  exact (h i).mono hsize.ge fun j _ => by rw [isSequence, hnode, isSequence]

theorem of_sameLinks (h : t.Coherent) (hsame : t.SameLinks t') : t'.Coherent := fun i =>
  ((h i).congr (hsame.alike i)).mono hsame.size_le fun j _ => hsame.isSequence_eq j

theorem setParent (h : t.Coherent) (i : NodeId) (up : Option NodeId) :
    (t.setParent i up).Coherent := h.of_node_eq (size_setParent i) (node_setParent i)

theorem grown (h : t.Coherent) (hnode : t.Admits node) (span : Span) :
    (t.grown node span).Coherent := by
  refine h.change (by simp) node_grown (fun j hj => ?_) (by rwa [node_grown_size])
  rw [isSequence, node_grown j (Nat.ne_of_lt hj), isSequence]

theorem setCell {head : NodeId} {tail : Option NodeId} (h : t.Coherent)
    (hcell : t.isSequence cell = true) (hnode : t.Admits (.sequence head tail)) :
    (t.setCell cell head tail).Coherent := by
  refine h.change (size_setCell cell head tail).ge (fun j hj => ?_) (fun j hj => ?_)
    (by rwa [node_setCell hcell, if_pos rfl])
  · rw [node_setCell hcell, if_neg (Ne.symm hj)]
  · exact (alters_setCell hcell head tail).isSequence_eq hj

theorem setTail {next : NodeId} (h : t.Coherent) (hcell : t.isSequence cell = true)
    (hnext : t.isSequence next = true) : (t.setTail cell (some next)).Coherent := by
  obtain ⟨head, tail, hnode⟩ := exists_of_isSequence hcell
  have hhead : head < t.size := (h cell).lt_size head (by rw [hnode]; exact List.mem_cons_self)
  have hplace : t.Admits ((t.setTail cell (some next)).node cell) := by
    rw [node_setTail hnode, if_pos rfl]
    refine admits_cell hhead fun i hi => ?_
    rwa [← Option.some.inj hi]
  refine h.change (size_setTail cell (some next)).ge (fun j hj => ?_) (fun j hj => ?_) hplace
  · rw [node_setTail hnode, if_neg (Ne.symm hj)]
  · exact (alters_setTail cell (some next)).isSequence_eq hj

theorem setNode (h : t.Coherent) (hkind : node.kind = t.kind id) (hnode : t.Admits node) :
    (t.setNode id node).Coherent := by
  have hsame : ∀ j < t.size, (t.setNode id node).isSequence j = t.isSequence j := fun j hj =>
    (alters_setNode hkind).isSequence_eq hj
  intro i
  rcases node_setNode_cases id i node with heq | ⟨-, heq⟩
  · rw [heq]
    exact (h i).mono (size_setNode id).ge hsame
  · rw [heq]
    exact hnode.mono (size_setNode id).ge hsame

theorem redirect {parent : NodeId} (h : t.Coherent) (hnew : new < t.size) :
    (t.redirect parent old new).Coherent := by
  rcases t.redirect_eq parent old new with ⟨heq, -⟩ | heq
  · rw [heq]
    exact h
  · rw [heq]
    exact h.setNode (Node.kind_swap old new (t.node parent)) ((h parent).swap hnew)

end Coherent

/-! ## Building and copying -/

/-- Elements that were given out can be linked to a chain. -/
theorem Coherent.exists_chain_run (fallback : Span) (h : t.Coherent) {elements : List NodeId}
    (hlt : ∀ e ∈ elements, e < t.size) :
    ∃ first t', (chain fallback elements).run t = (first, t') ∧ t'.Coherent ∧ t.Alters t' [] ∧
      t'.isSequence first = true := by
  -- The cell that is made last stands at the end of the store.
  have hcell : ∀ {t' : Tree} {head : NodeId} {tail : Option NodeId} (span : Span), t'.Coherent →
      t.Alters t' [] → t'.Admits (.sequence head tail) →
        (t'.grown (.sequence head tail) span).Coherent ∧
          t.Alters (t'.grown (.sequence head tail) span) [] ∧
          (t'.grown (.sequence head tail) span).isSequence t'.size = true := by
    intro t' head tail span hcoherent halters hadmits
    refine ⟨hcoherent.grown hadmits span, halters.trans (alters_grown _ span), ?_⟩
    rw [isSequence, node_grown_size]
    rfl
  induction elements with
  | nil =>
    have hempty : t.Admits .empty := admits_of_not_isSequence rfl (List.forall_mem_nil _)
    have hlast : (t.grown .empty fallback).Admits (.sequence t.size none) :=
      admits_cell (by simp) (by simp)
    exact ⟨_, _, rfl, hcell fallback (h.grown hempty fallback) (alters_grown _ _) hlast⟩
  | cons head rest ih =>
    rw [List.forall_mem_cons] at hlt
    cases rest with
    | nil =>
      have hlast : t.Admits (.sequence head none) := admits_cell hlt.1 (by simp)
      exact ⟨_, _, rfl, hcell (t.span head) h (Alters.refl t []) hlast⟩
    | cons next rest =>
      obtain ⟨tail, t₁, hrun, hcoherent, halters, htail⟩ := ih hlt.2
      have hadmits : t₁.Admits (.sequence head (some tail)) := by
        refine admits_cell (hlt.1.trans_le halters.size_le) fun i hi => ?_
        rw [← Option.some.inj hi, htail]
      refine ⟨_, _, ?_, hcell ((t₁.span head).union (t₁.span tail)) hcoherent halters hadmits⟩
      rw [chain, run_bind_of_run hrun, run_get_bind, run_alloc_eq]
      exact List.cons_ne_nil _ _

/-- What stands at the end of a path stands there in the original too. -/
theorem Mirrors.exists_original {copy i : NodeId} (h : Mirrors source place t id copy)
    {path : List Nat} (hpath : t.follow copy path = some i) :
    ∃ i₀, source.follow id path = some i₀ ∧ (source.node i₀).bare = (t.node i).bare := by
  have hsame := h.same path
  rw [shown, hpath, Option.map_some, eq_comm, shown, Option.map_eq_some_iff] at hsame
  obtain ⟨i₀, hpath₀, heq⟩ := hsame
  exact ⟨i₀, hpath₀, (Prod.mk.inj heq).1⟩

/-- A node of a copy may stand in the store. -/
theorem Mirrors.admits {copy i : NodeId} (h : Mirrors source place t id copy)
    (hsource : source.Coherent) (hi : t.Reaches copy i)
    (hlt : ∀ j, t.Reaches copy j → j < t.size) : t.Admits (t.node i) where
  lt_size child hchild := hlt child (hi.trans (reaches_child hchild))
  next head next hnode := by
    -- The copy of the next cell is a cell, since the next cell is one.
    obtain ⟨path, hpath⟩ := hi
    have hnext : t.follow copy (path ++ [1]) = some next := by
      rw [follow_append, hpath, Option.bind_some, follow, hnode]
      rfl
    obtain ⟨i₀, hpath₀, hbare⟩ := h.exists_original hpath
    obtain ⟨next₀, hnext₀, hbare'⟩ := h.exists_original hnext
    rw [follow_append, hpath₀, Option.bind_some, follow] at hnext₀
    obtain ⟨child, hchild, hdown⟩ := Option.bind_eq_some_iff.mp hnext₀
    obtain rfl := Option.some.inj hdown
    have hcell : source.isSequence i₀ = true := by
      rw [isSequence, ← Node.isSequence_bare, hbare, hnode]
      rfl
    obtain ⟨head₀, tail₀, hnode₀⟩ := exists_of_isSequence hcell
    have hchild' : source.isSequence child = true := by
      refine (hsource i₀).next head₀ child ?_
      rw [hnode₀] at hchild ⊢
      cases tail₀ <;> cases hchild
      rfl
    rwa [isSequence, ← Node.isSequence_bare, ← hbare', Node.isSequence_bare]

theorem coherent_of_lt (h : ∀ i < t.size, t.Admits (t.node i)) : t.Coherent := by
  intro i
  by_cases hi : i < t.size
  · exact h i hi
  · rw [node_eq_look, look_eq_none_iff.mpr (Nat.le_of_not_lt hi)]
    exact admits_of_not_isSequence rfl (List.forall_mem_nil _)

theorem IsCopy.coherent {copy : NodeId} (h : IsCopy source place id t t' copy) (ht : t.Coherent)
    (hsource : source.Coherent) : t'.Coherent := by
  refine coherent_of_lt fun i hi => ?_
  by_cases hold : i < t.size
  · have hsame : ∀ j < t.size, t'.node j = t.node j := fun j hj => congrArg Slot.node (h.slot_eq j hj)
    rw [hsame i hold]
    exact (ht i).mono h.size_le fun j hj => by rw [isSequence, hsame j hj, isSequence]
  · exact h.toMirrors.admits hsource ((h.reaches_iff i).mpr ⟨Nat.le_of_not_lt hold, hi⟩)
      fun j hj => ((h.reaches_iff j).mp hj).2

theorem IsExtract.coherent (h : IsExtract source id t) (hsource : source.Coherent) : t.Coherent :=
  coherent_of_lt fun i hi => h.toMirrors.admits hsource ((h.reaches_iff i).mpr hi)
    fun j hj => (h.reaches_iff j).mp hj

/-- A store stays coherent when something is copied into it. -/
theorem Coherent.copy {copy : NodeId} (h : t.Coherent) (hsource : source.Coherent)
    (hends : source.Acyclic id) (hrun : (source.copy place id).run t = (copy, t')) :
    t'.Coherent := by
  obtain ⟨copy', t₁, hrun', hcopy⟩ := exists_isCopy_copy hends place t
  obtain ⟨rfl, rfl⟩ := Prod.mk.inj (hrun.symm.trans hrun')
  exact hcopy.coherent h hsource

/-! ## Surgery -/

/-- A store stays coherent whether or not an element is taken out. -/
theorem Coherent.delete (h : t.Coherent) (hrun : (delete id).run.run t = (r, t')) :
    t'.Coherent := by
  cases deletion_of_run hrun with
  | misused => exact h
  | broken hcell hnode hnext => exact h.setParent _ none
  | last hcell hnode =>
    rename_i cell old
    have hempty : (t.setParent old none).Admits .empty :=
      admits_of_not_isSequence rfl (by simp [Node.children])
    have hgrown := (h.setParent old none).grown hempty ((t.span cell).take 0)
    refine hgrown.setCell ?_ (admits_cell (by simp) (by simp))
    have hsequence := isSequence_of_owningCell hcell
    rw [← isSequence_setParent old cell none] at hsequence
    rw [← hsequence]
    exact (alters_grown .empty _).isSequence_eq (lt_size_of_isSequence hsequence)
  | pulled hcell hnode hnext =>
    rename_i cell old next new tail
    have hfirst := h.setParent old none
    refine (hfirst.setCell ?_ ?_).setParent next none
    · rw [isSequence_setParent]
      exact isSequence_of_owningCell hcell
    · have hadmits := hfirst next
      rwa [node_setParent, hnext] at hadmits

theorem run_throw_eq_error_iff {ε α : Type} {e e' : ε} :
    (throw e' : Edit ε α).run.run t = (.error e, t') ↔ e' = e ∧ t' = t := by
  constructor
  · intro hrun
    obtain ⟨herror, rfl⟩ := Prod.mk.inj hrun
    exact ⟨Except.error.inj herror, rfl⟩
  · rintro ⟨rfl, rfl⟩
    rfl

/-- Taking out is refused if there is no cell to take from, and never later. -/
theorem Coherent.delete_eq_error_iff (h : t.Coherent) :
    (Tree.delete id).run.run t = (.error e, t') ↔
      t.owningCell id = none ∧ e = t.notInSequence id ∧ t' = t := by
  rw [Tree.delete, Edit.run_get_bind]
  cases hcell : t.owningCell id with
  | none =>
    refine run_throw_eq_error_iff.trans ?_
    rw [eq_comm, eq_self, true_and]
  | some cell =>
    obtain ⟨old, tail, hnode⟩ := exists_of_isSequence (isSequence_of_owningCell hcell)
    simp only [head_of_node hnode, tail_of_node hnode, reduceCtorEq, false_and, iff_false]
    intro hrun
    cases tail with
    | none => cases (Prod.mk.inj hrun).1
    | some next =>
      -- The next cell is a cell, so there is an element to pull.
      have hnext := (h cell).next old next hnode
      obtain ⟨new, tail', hnode'⟩ := exists_of_isSequence hnext
      simp only [head_of_node hnode'] at hrun
      cases (Prod.mk.inj hrun).1

theorem Coherent.insertAfter {node : NodeId} (h : t.Coherent) (hlt : node < t.size)
    (hrun : (insertAfter cell node).run.run t = (r, t')) : t'.Coherent := by
  rcases insertAfter_cases hrun with ⟨-, rfl⟩ | ⟨-, hcell, -, rfl⟩
  · exact h
  · obtain ⟨head, tail, hnode⟩ := exists_of_isSequence hcell
    have hnew : t.Admits (.sequence node (t.tail cell)) := by
      refine admits_cell hlt fun next hnext => ?_
      rw [tail_of_node hnode] at hnext
      exact (h cell).next head next (by rw [hnode, hnext])
    refine (h.grown hnew (t.span node)).setTail ?_ ?_
    · rw [(alters_grown _ _).isSequence_eq (lt_size_of_isSequence hcell), hcell]
    · rw [isSequence, node_grown_size]
      rfl

theorem Coherent.insertBefore {node : NodeId} (h : t.Coherent) (hlt : node < t.size)
    (hrun : (insertBefore cell node).run.run t = (r, t')) : t'.Coherent := by
  rcases insertBefore_cases hrun with ⟨-, rfl⟩ | ⟨head, tail, -, hnode, -, rfl⟩
  · exact h
  · have hcell := isSequence_of_head (head_of_node hnode)
    have hmoved : t.Admits (.sequence head tail) := by
      rw [← hnode]
      exact h cell
    refine (h.grown hmoved (t.span cell)).setCell ?_ (admits_cell ?_ fun next hnext => ?_)
    · rw [(alters_grown _ _).isSequence_eq (lt_size_of_isSequence hcell), hcell]
    · rw [size_grown]
      exact Nat.lt_succ_of_lt hlt
    · rw [← Option.some.inj hnext, isSequence, node_grown_size]
      rfl

/-- Inserting after a cell is refused just when it is misused. -/
theorem insertAfter_eq_error_iff {node : NodeId} :
    (insertAfter cell node).run.run t = (.error e, t') ↔
      t.insertionError? cell node = some e ∧ t' = t := by
  rw [insertAfter, Edit.run_get_bind]
  cases t.insertionError? cell node with
  | none =>
    simp only [reduceCtorEq, false_and, iff_false]
    intro hrun
    cases (Prod.mk.inj hrun).1
  | some e' =>
    refine run_throw_eq_error_iff.trans ?_
    rw [Option.some.injEq]

/-- Inserting before a cell is refused just when it is misused. -/
theorem insertBefore_eq_error_iff {node : NodeId} :
    (insertBefore cell node).run.run t = (.error e, t') ↔
      t.insertionError? cell node = some e ∧ t' = t := by
  rw [insertBefore, Edit.run_get_bind]
  cases herror : t.insertionError? cell node with
  | none =>
    obtain ⟨hcell, -, -⟩ := insertionError?_eq_none herror
    obtain ⟨head, tail, hnode⟩ := exists_of_isSequence hcell
    simp only [head_of_node hnode, reduceCtorEq, false_and, iff_false]
    intro hrun
    cases (Prod.mk.inj hrun).1
  | some e' =>
    refine run_throw_eq_error_iff.trans ?_
    rw [Option.some.injEq]

/-- Why a node cannot be put in the place of another, if it cannot. -/
def replacementError? (t : Tree) (old new : NodeId) : Option SurgeryError :=
  if (t.parent new).isSome || new == t.root then some (.attached new)
  else if t.isSequence old != t.isSequence new then some (.kindMismatch (t.kind old) (t.kind new))
  else if !t.isSequence old && (t.parent old).isNone then some (.detached old)
  else none

theorem replaceElement_eq_error_iff :
    (replaceElement old new).run.run t = (.error e, t') ↔
      t.parent old = none ∧ SurgeryError.detached old = e ∧ t' = t := by
  rw [replaceElement, Edit.run_get_bind]
  cases t.parent old with
  | none =>
    refine run_throw_eq_error_iff.trans ?_
    rw [eq_self, true_and]
  | some parent =>
    simp only [reduceCtorEq, false_and, iff_false]
    intro hrun
    cases (Prod.mk.inj hrun).1

/-- A chain is never refused in the place of a cell once both are known to be cells. -/
theorem replaceCell_ne_error {chain : NodeId} (hcell : t.isSequence cell = true)
    (hchain : t.isSequence chain = true) :
    (replaceCell cell chain).run.run t ≠ (.error e, t') := by
  obtain ⟨old, tail, hnode⟩ := exists_of_isSequence hcell
  obtain ⟨new, tail', hnode'⟩ := exists_of_isSequence hchain
  rw [replaceCell, Edit.run_get_bind]
  simp only [head_of_node hnode, tail_of_node hnode, head_of_node hnode', tail_of_node hnode']
  intro hrun
  cases tail with
  | none | some => cases (Prod.mk.inj hrun).1

/-- Replacing is refused just when it is misused. -/
theorem replace_eq_error_iff :
    (replace old new).run.run t = (.error e, t') ↔
      t.replacementError? old new = some e ∧ t' = t := by
  rw [replace, Edit.run_get_bind, replacementError?]
  split
  · refine run_throw_eq_error_iff.trans ?_
    rw [Option.some.injEq]
  · cases hold : t.isSequence old <;> cases hnew : t.isSequence new
    · refine replaceElement_eq_error_iff.trans ?_
      cases t.parent old <;> simp
    · refine run_throw_eq_error_iff.trans ?_
      simp
    · refine run_throw_eq_error_iff.trans ?_
      simp
    · simp only [bne_self_eq_false, Bool.not_true, Bool.false_and, reduceCtorEq, if_false,
        false_and, iff_false]
      exact replaceCell_ne_error hold hnew

theorem Coherent.replaceCell {chain : NodeId} {r : Except SurgeryError Unit} (h : t.Coherent)
    (hcell : t.isSequence cell = true) (hchain : t.isSequence chain = true)
    (hrun : (replaceCell cell chain).run.run t = (r, t')) : t'.Coherent := by
  obtain ⟨old, tail, hnode⟩ := exists_of_isSequence hcell
  obtain ⟨new, tail', hnode'⟩ := exists_of_isSequence hchain
  have hcell' : (t.setParent old none).isSequence cell = true := by
    rw [isSequence_setParent, hcell]
  have hset : ((t.setParent old none).setCell cell new tail').Coherent := by
    refine (h.setParent old none).setCell hcell' ?_
    have hadmits := h.setParent old none chain
    rwa [node_setParent, hnode'] at hadmits
  -- Neither of the first two steps makes a cell into something else.
  have hsame : ∀ i, t.isSequence i = true →
      ((t.setParent old none).setCell cell new tail').isSequence i = true := by
    intro i hi
    rw [← isSequence_setParent old i none] at hi
    rw [(alters_setCell hcell' new tail').isSequence_eq (lt_size_of_isSequence hi), hi]
  rcases replaceCell_cases hnode hnode' hrun with ⟨-, rfl⟩ | ⟨next, rfl, rfl⟩
  · exact hset
  · refine hset.setTail (hsame _ ?_) (hsame next ((h cell).next old next hnode))
    split
    · exact hcell
    · exact (reaches_lastCell hchain).2

theorem Coherent.replace {r : Except SurgeryError Unit} (h : t.Coherent) (hlt : new < t.size)
    (hrun : (replace old new).run.run t = (r, t')) : t'.Coherent := by
  rw [Tree.replace, Edit.run_get_bind] at hrun
  split at hrun
  · obtain rfl : t = t' := (Prod.mk.inj hrun).2
    exact h
  · cases hold : t.isSequence old <;> cases hnew : t.isSequence new <;> rw [hold, hnew] at hrun
    · rcases replaceElement_cases hrun with ⟨-, rfl⟩ | ⟨parent, -, rfl⟩
      · exact h
      · exact ((h.redirect hlt).setParent _ _).setParent _ _
    · obtain rfl : t = t' := (Prod.mk.inj hrun).2
      exact h
    · obtain rfl : t = t' := (Prod.mk.inj hrun).2
      exact h
    · exact h.replaceCell hold hnew hrun

/-! ## Whatever was done -/

/-- A store that came about by operations on nodes that were given out, with no regard to where they
hang or what they are. -/
inductive Handled : Tree → Prop
  | initial {t : Tree} (h : t.Initial) : Handled t
  | alloc {t t' : Tree} {node : Node} {span : Span} {id : NodeId} (h : Handled t)
      (hnode : node.isSequence = false) (hlt : ∀ child ∈ node.children, child < t.size)
      (hrun : (alloc node span).run t = (id, t')) : Handled t'
  | chain {t t' : Tree} {elements : List NodeId} {fallback : Span} {id : NodeId} (h : Handled t)
      (hlt : ∀ e ∈ elements, e < t.size) (hrun : (chain fallback elements).run t = (id, t')) :
    Handled t'
  | extract {t : Tree} {id : NodeId} (h : Handled t) (hends : t.Acyclic id) : Handled (t.extract id)
  | graft {t t' source : Tree} {place : Option Span} {id : NodeId} (h : Handled t)
      (hsource : Handled source) (hends : source.Acyclic source.root)
      (hrun : (source.graft place).run t = (id, t')) : Handled t'
  | deepCopy {t t' : Tree} {id copy : NodeId} (h : Handled t) (hends : t.Acyclic id)
      (hrun : (deepCopy id).run t = (copy, t')) : Handled t'
  | rename {t : Tree} (h : Handled t) (id : NodeId) (name : String) : Handled (t.rename id name)
  | setText {t : Tree} (h : Handled t) (id : NodeId) (text : String) : Handled (t.setText id text)
  | delete {t t' : Tree} {id : NodeId} {r : Except SurgeryError NodeId} (h : Handled t)
      (hrun : (delete id).run.run t = (r, t')) : Handled t'
  | replace {t t' : Tree} {old new : NodeId} {r : Except SurgeryError Unit} (h : Handled t)
      (hlt : new < t.size) (hrun : (replace old new).run.run t = (r, t')) : Handled t'
  | insertAfter {t t' : Tree} {cell node : NodeId} {r : Except SurgeryError NodeId} (h : Handled t)
      (hlt : node < t.size) (hrun : (insertAfter cell node).run.run t = (r, t')) : Handled t'
  | insertBefore {t t' : Tree} {cell node : NodeId} {r : Except SurgeryError NodeId} (h : Handled t)
      (hlt : node < t.size) (hrun : (insertBefore cell node).run.run t = (r, t')) : Handled t'

/-- However a store was handled, it is coherent. -/
theorem Handled.coherent (h : t.Handled) : t.Coherent := by
  induction h with
  | initial h => exact h.forest.1.grounded.coherent
  | alloc h hnode hlt hrun ih =>
    rw [run_alloc_eq] at hrun
    obtain ⟨rfl, rfl⟩ := Prod.mk.inj hrun
    exact ih.grown (admits_of_not_isSequence hnode hlt) _
  | chain h hlt hrun ih =>
    obtain ⟨first, t₁, hrun', hcoherent, -, -⟩ := ih.exists_chain_run _ hlt
    obtain ⟨rfl, rfl⟩ := Prod.mk.inj (hrun.symm.trans hrun')
    exact hcoherent
  | extract h hends ih => exact (isExtract_extract hends).coherent ih
  | graft h hsource hends hrun ih ihsource => exact ih.copy ihsource hends hrun
  | deepCopy h hends hrun ih =>
    have hextract := isExtract_extract hends
    rw [Tree.deepCopy, run_get_bind] at hrun
    exact ih.copy (hextract.coherent ih) hextract.acyclic hrun
  | rename h id name ih => exact ih.of_sameLinks (sameLinks_rename id name)
  | setText h id text ih => exact ih.of_sameLinks (sameLinks_setText id text)
  | delete h hrun ih => exact ih.delete hrun
  | replace h hlt hrun ih => exact ih.replace hlt hrun
  | insertAfter h hlt hrun ih => exact ih.insertAfter hlt hrun
  | insertBefore h hlt hrun ih => exact ih.insertBefore hlt hrun

/-- However a store was handled: surgery on it is refused exactly where it is misused, and then the
store, every slot of it and the root, is as it was. -/
theorem refused_surgery_changes_nothing (h : t.Handled) (e : SurgeryError) (t' : Tree) :
    (∀ id, (delete id).run.run t = (.error e, t') ↔
      t.owningCell id = none ∧ e = t.notInSequence id ∧ t' = t) ∧
    (∀ old new, (replace old new).run.run t = (.error e, t') ↔
      t.replacementError? old new = some e ∧ t' = t) ∧
    (∀ cell node, (insertAfter cell node).run.run t = (.error e, t') ↔
      t.insertionError? cell node = some e ∧ t' = t) ∧
    (∀ cell node, (insertBefore cell node).run.run t = (.error e, t') ↔
      t.insertionError? cell node = some e ∧ t' = t) :=
  ⟨fun _ => h.coherent.delete_eq_error_iff, fun _ _ => replace_eq_error_iff,
    fun _ _ => insertAfter_eq_error_iff, fun _ _ => insertBefore_eq_error_iff⟩

/-- One literal in two cells and in a group, where a chain belongs, and two cells with the same next
cell. -/
def shared : Tree where
  slots := #[⟨.empty, none, .point 0⟩, ⟨.sequence 2 (some 3), none, .point 0⟩,
    ⟨.literal "a", some 1, .point 0⟩, ⟨.sequence 2 none, some 1, .point 0⟩,
    ⟨.sequence 2 (some 3), none, .point 0⟩, ⟨.group .braces 2, none, .point 0⟩]
  root := 1

theorem refused_surgery_changes_nothing_shared :
    shared.Handled ∧
    (delete 5).run.run shared = (.error (.notInSequence 5 .group), shared) ∧
    (replace 4 3).run.run shared = (.error (.attached 3), shared) ∧
    (insertAfter 3 2).run.run shared = (.error (.attached 2), shared) ∧
    (insertBefore 1 4).run.run shared = (.error (.kindMismatch .sequence .sequence), shared) := by
  have hliteral : (blank.grown (.literal "a") (.point 0)).Handled :=
    .alloc (.initial .blank) rfl (by simp [Node.children]) rfl
  have hchain : ((chain (.point 0) [2, 2]).run (blank.grown (.literal "a") (.point 0))).2.Handled :=
    .chain hliteral (by decide) rfl
  have hgroup : (((chain (.point 0) [2, 2]).run (blank.grown (.literal "a") (.point 0))).2.grown
      (.group .braces 2) (.point 0)).Handled := .alloc hchain rfl (by decide) rfl
  have hrun : (replace 1 4).run.run (((chain (.point 0) [2, 2]).run
      (blank.grown (.literal "a") (.point 0))).2.grown (.group .braces 2) (.point 0)) =
        (.ok (), shared) := by rfl
  have hshared : shared.Handled := .replace hgroup (by decide) hrun
  refine ⟨hshared, ?_, ?_, ?_, ?_⟩
  · exact ((refused_surgery_changes_nothing hshared _ _).1 5).mpr ⟨by decide, rfl, rfl⟩
  · exact ((refused_surgery_changes_nothing hshared _ _).2.1 4 3).mpr ⟨by decide, rfl⟩
  · exact ((refused_surgery_changes_nothing hshared _ _).2.2.1 3 2).mpr ⟨by decide, rfl⟩
  · exact ((refused_surgery_changes_nothing hshared _ _).2.2.2 1 4).mpr ⟨by decide, rfl⟩

end Tree

end Formulary
