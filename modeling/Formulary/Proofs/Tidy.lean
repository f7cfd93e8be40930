import Formulary.Proofs.Exchange
import Formulary.Proofs.Neat

/-!
# Tidy trees

The invariant of a formula on its way through all passes, said of the nodes that its root reaches:
`Tree.Tidy`. It is the same as having a neat shape (`Tree.tidy_iff`). A pass that puts elements into
chains is better looked at by shape, and one that changes a node where it stands by nodes.
-/

namespace Formulary

open BlockMarker (isName)
open Plan Shape

namespace Tree

/-- What a node has to be like. Operands are groups, commands, one character or an escape; parameters
are groups, and marks have none; literals and names could have been read. -/
def TidyNode (t : Tree) : Node → Prop
  | .literal text => text ≠ "" ∧ Written none text.toList
  | .empty | .sequence .. | .group .. => True
  | .script _ operand => isAtomic (t.node operand) = true
  | .command name parameters =>
    isCommandName name = true ∧ (isMark name = true → parameters = []) ∧
      ∀ p ∈ parameters, t.kind p = .group
  | .block name parameters _ => isName name = true ∧ ∀ p ∈ parameters, t.kind p = .group

/-- A node stays as it has to be while the kinds of nodes stay. -/
theorem TidyNode.congr {t t' : Tree} {node : Node} (h : t.TidyNode node)
    (hatomic : ∀ i, isAtomic (t'.node i) = isAtomic (t.node i)) (hkind : ∀ i, t'.kind i = t.kind i) :
    t'.TidyNode node := by
  cases node with
  | literal text => exact h
  | empty | sequence | group => trivial
  | script marker operand => exact (hatomic operand).trans h
  | command name parameters => exact ⟨h.1, h.2.1, fun p hp => (hkind p).trans (h.2.2 p hp)⟩
  | block name parameters body => exact ⟨h.1, fun p hp => (hkind p).trans (h.2 p hp)⟩

/-- The formula is properly linked from the first cell of a chain on, and all its nodes are as they
have to be. -/
structure Tidy (t : Tree) : Prop where
  linked : t.Linked t.root
  isSequence_root : t.isSequence t.root = true
  nodes : ∀ id, t.Reaches t.root id → t.TidyNode (t.node id)

/-- A properly linked tree of a neat formula. -/
def IsNeat (t : Tree) : Prop := ∃ fs, t.Depicts fs ∧ NeatRow fs

end Tree

/-! ## Neat parts -/

namespace Part

variable {t : Tree} {up : Option NodeId} {x : Part}

/-- A part of a neat formula. -/
def Neat : Part → Prop
  | .element p => p.shape.Neat
  | .chain cell p rest => NeatRow (rowShapes ((cell, p) :: rest))

theorem neat_ofRow {row : Row} (h : NeatRow (rowShapes row)) : ∀ y ∈ ofRow row, y.Neat := by
  cases row with
  | nil => simp [ofRow]
  | cons x row =>
    rw [ofRow, List.forall_mem_singleton]
    exact h

theorem neat_elements {ps : List Plan} (h : NeatRow (Plan.shapes ps)) :
    ∀ y ∈ ps.map element, y.Neat := by
  intro y hy
  obtain ⟨p, hp, rfl⟩ := List.mem_map.mp hy
  rw [shapes_eq_map, neatRow_iff] at h
  exact h p.shape (List.mem_map_of_mem hp)

/-- What hangs under a neat part is neat. -/
theorem Neat.children (h : x.Neat) : ∀ y ∈ x.children, y.Neat := by
  cases x with
  | chain cell p rest =>
    rw [Neat, rowShapes_cons, neatRow_cons] at h
    rw [Part.children, List.forall_mem_cons]
    exact ⟨h.1, neat_ofRow h.2⟩
  | element p =>
    rw [Neat] at h
    cases p with
    | literal | empty => simp [Part.children]
    | group n fence inner =>
      rw [shape, Shape.Neat] at h
      exact neat_ofRow h.2
    | script n marker operand =>
      rw [shape, Shape.Neat] at h
      rw [Part.children, List.forall_mem_singleton]
      exact h.2
    | command n name ps =>
      rw [shape, Shape.Neat] at h
      exact neat_elements h.2.2.2
    | block n name ps body =>
      rw [shape, Shape.Neat] at h
      rw [Part.children, List.forall_mem_append]
      exact ⟨neat_elements h.2.2.1, neat_ofRow h.2.2.2.2⟩

/-- Everything down a path from a neat part is neat. -/
theorem Neat.down {path : List Nat} {y : Part} (h : x.Neat) (hy : x.down path = some y) : y.Neat := by
  induction path generalizing x with
  | nil =>
    obtain rfl := Option.some.inj hy
    exact h
  | cons k path ih =>
    rw [Part.down] at hy
    obtain ⟨z, hz, hy⟩ := Option.bind_eq_some_iff.mp hy
    exact ih (h.children z (List.mem_of_getElem? hz)) hy

/-- Groups are the elements that hang at nodes of their kind. -/
theorem kind_eq_group_iff {p : Plan} (h : p.Fits t up) :
    t.kind p.id = .group ↔ p.shape.isGroup = true := by
  rw [Tree.kind, h.node]
  cases p with
  | script n marker operand => cases marker <;> simp [top, Node.kind, shape, Shape.isGroup]
  | literal | empty | group | command | block => simp [top, Node.kind, shape, Shape.isGroup]

theorem kinds_iff {ps : List Plan} (h : AllFit t up ps) :
    (∀ n ∈ ps.map Plan.id, t.kind n = .group) ↔ ∀ f ∈ Plan.shapes ps, f.isGroup = true := by
  rw [shapes_eq_map, List.forall_mem_map, List.forall_mem_map]
  refine forall₂_congr fun p hp => ?_
  exact kind_eq_group_iff (allFit_iff.mp h p hp)

/-- The node of a neat part is as it has to be. -/
theorem Neat.tidyNode (h : x.Neat) (hfits : x.Fits t up) : t.TidyNode x.node := by
  cases x with
  | chain cell p rest => trivial
  | element p =>
    rw [Neat] at h
    rw [Fits] at hfits
    cases p with
    | literal n text =>
      rw [shape, Shape.Neat] at h
      exact h
    | empty | group => trivial
    | script n marker operand =>
      rw [shape, Shape.Neat] at h
      rw [Plan.Fits] at hfits
      exact hfits.2.isAtomic.trans h.1
    | command n name ps =>
      rw [shape, Shape.Neat] at h
      rw [Plan.Fits] at hfits
      obtain ⟨hname, hmark, hgroups, -⟩ := h
      refine ⟨hname, fun h => ?_, (kinds_iff hfits.2).mpr hgroups⟩
      exact List.map_eq_nil_iff.mpr (List.map_eq_nil_iff.mp (shapes_eq_map ps ▸ hmark h))
    | block n name ps body =>
      rw [shape, Shape.Neat] at h
      rw [Plan.Fits] at hfits
      exact ⟨h.1, (kinds_iff hfits.2.1).mpr h.2.1⟩

theorem neatRow_of_parts {row : Row} (h : ∀ y ∈ ofRow row, y.Neat) : NeatRow (rowShapes row) := by
  cases row with
  | nil => simp
  | cons x row => exact h _ (List.mem_singleton.mpr rfl)

theorem neatRow_of_elements {ps : List Plan} (h : ∀ y ∈ ps.map element, y.Neat) :
    NeatRow (Plan.shapes ps) := by
  rw [shapes_eq_map, neatRow_iff, List.forall_mem_map]
  exact fun p hp => h _ (List.mem_map_of_mem hp)

/-- A part is neat when its node is as it has to be and what is under it is neat. -/
theorem Fits.neat_of_children (hfits : x.Fits t up) (hnode : t.TidyNode x.node)
    (h : ∀ y ∈ x.children, y.Neat) : x.Neat := by
  cases x with
  | chain cell p rest =>
    rw [Part.children, List.forall_mem_cons] at h
    rw [Neat, rowShapes_cons, neatRow_cons]
    exact ⟨h.1, neatRow_of_parts h.2⟩
  | element p =>
    rw [Fits] at hfits
    rw [Neat]
    cases p with
    | literal n text =>
      rw [shape, Shape.Neat]
      exact hnode
    | empty n => rw [shape]; exact neat_empty
    | group n fence inner =>
      rw [Plan.Fits] at hfits
      obtain ⟨⟨first, hfirst, -⟩, -⟩ := hfits
      rw [shape, Shape.Neat]
      refine ⟨fun hnil => ?_, neatRow_of_parts h⟩
      rw [(rowShapes_eq_nil_iff inner).mp hnil] at hfirst
      cases hfirst
    | script n marker operand =>
      rw [Plan.Fits] at hfits
      rw [Part.children, List.forall_mem_singleton] at h
      rw [shape, Shape.Neat]
      exact ⟨hfits.2.isAtomic.symm.trans hnode, h⟩
    | command n name ps =>
      rw [Plan.Fits] at hfits
      rw [shape, Shape.Neat]
      obtain ⟨hname, hmark, hkinds⟩ := hnode
      refine ⟨hname, fun h => ?_, (kinds_iff hfits.2).mp hkinds, neatRow_of_elements h⟩
      rw [List.map_eq_nil_iff.mp (hmark h), shapes_nil]
    | block n name ps body =>
      rw [Plan.Fits] at hfits
      obtain ⟨⟨first, hfirst, -⟩, hall, -⟩ := hfits
      rw [Part.children, List.forall_mem_append] at h
      rw [shape, Shape.Neat]
      refine ⟨hnode.1, (kinds_iff hall).mp hnode.2, neatRow_of_elements h.1, fun hnil => ?_,
        neatRow_of_parts h.2⟩
      rw [(rowShapes_eq_nil_iff body).mp hnil] at hfirst
      cases hfirst

/-- A part is neat when every node that it reaches is as it has to be. -/
theorem Fits.neat (hfits : x.Fits t up) (h : ∀ id, t.Reaches x.id id → t.TidyNode (t.node id)) :
    x.Neat := by
  induction hcard : Multiset.card x.ids using Nat.strong_induction_on generalizing x up with
  | _ n ih =>
    have hnode := h x.id (Tree.Reaches.refl _)
    rw [hfits.node] at hnode
    apply hfits.neat_of_children hnode
    intro y hy
    have hchild : y.id ∈ (t.node x.id).children := by
      rw [hfits.node, hfits.node_children]
      exact List.mem_map_of_mem hy
    refine ih _ (hcard ▸ card_lt_of_mem_children hy) (hfits.children y hy) (fun i hi => ?_) rfl
    exact h i ((Tree.reaches_child hchild).trans hi)

end Part

/-! ## Whole trees -/

namespace Tree

variable {t : Tree}

/-- A formula is the part that starts at its root. -/
theorem Depicts.exists_part {fs : List Shape} (h : t.Depicts fs) :
    ∃ cell p rest, t.root = cell ∧ (Part.chain cell p rest).Fits t none ∧
      (Part.chain cell p rest).ids.Nodup ∧ rowShapes ((cell, p) :: rest) = fs := by
  obtain ⟨row, hfirst, hfits, hn, hshapes⟩ := h
  match row, hfirst with
  | (cell, p) :: rest, hfirst => exact ⟨cell, p, rest, (Option.some.inj hfirst).symm, hfits, hn, hshapes⟩

/-- What is tidy node by node is the tree of a neat formula. -/
theorem tidy_iff : t.Tidy ↔ t.IsNeat := by
  constructor
  · rintro ⟨hlinked, hsequence, hnodes⟩
    obtain ⟨x, hid, hx, hn⟩ := hlinked.exists_part
    rw [← hid] at hnodes
    have hneat := hx.neat hnodes
    rw [← hid, hx.isSequence] at hsequence
    cases x with
    | element p => cases hsequence
    | chain cell p rest => exact ⟨_, ⟨(cell, p) :: rest, congrArg some hid, hx, hn, rfl⟩, hneat⟩
  · rintro ⟨fs, hfs, hneat⟩
    obtain ⟨cell, p, rest, hroot, hx, hn, rfl⟩ := hfs.exists_part
    refine ⟨hroot ▸ hx.linked hn, hroot ▸ hx.isSequence, fun i hi => ?_⟩
    rw [hroot] at hi
    obtain ⟨path, y, up', hy, rfl, hfits⟩ := hx.exists_of_reaches hi
    have hpart : (Part.chain cell p rest).Neat := hneat
    rw [hfits.node]
    exact (hpart.down hy).tidyNode hfits

end Tree

end Formulary
