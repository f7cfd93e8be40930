import Formulary.Proofs.InPlace
import Formulary.Proofs.View
import Mathlib.Data.Fintype.EquivFin

/-!
# Paths through the store

What it means that a store is properly linked, said without plans: `Tree.follow` goes down from a
position along a path, and `Tree.Linked` says that no two paths from it lead to the same place, that
everything on the way hangs where it should, and that chains are made of cells and elements of
elements.

A `Part` is an element or a chain of a plan, seen as a node with a list of parts under it, so that
one induction does for both. Parts that fit are linked (`Part.Fits.linked`), everything that is linked
is a part (`Tree.Linked.exists_part`), and the paths of the store are those of the part
(`Part.Fits.follow`).
-/

namespace Formulary

/-! ## Nodes -/

/-- Nodes of one kind with the same children. Texts, names and fences may differ. -/
inductive Node.Alike : Node → Node → Prop
  | literal (text text' : String) : Alike (.literal text) (.literal text')
  | empty : Alike .empty .empty
  | sequence (head : NodeId) (tail : Option NodeId) : Alike (.sequence head tail) (.sequence head tail)
  | group (fence fence' : Fence) (inner : NodeId) : Alike (.group fence inner) (.group fence' inner)
  | script (marker : Marker) (operand : NodeId) : Alike (.script marker operand) (.script marker operand)
  | command (name name' : String) (parameters : List NodeId) :
    Alike (.command name parameters) (.command name' parameters)
  | block (name name' : String) (parameters : List NodeId) (body : NodeId) :
    Alike (.block name parameters body) (.block name' parameters body)

theorem Node.alike_of {node node' : Node} (hkind : node'.kind = node.kind)
    (hchildren : node'.children = node.children) : node.Alike node' := by
  rcases node with _ | _ | ⟨head, tail⟩ | ⟨fence, inner⟩ | ⟨_ | _, operand⟩ |
      ⟨name, parameters⟩ | ⟨name, parameters, body⟩ <;>
    rcases node' with _ | _ | ⟨head', tail'⟩ | ⟨fence', inner'⟩ | ⟨_ | _, operand'⟩ |
      ⟨name', parameters'⟩ | ⟨name', parameters', body'⟩ <;>
    cases hkind
  · exact .literal _ _
  · exact .empty
  · obtain ⟨rfl, htail⟩ := List.cons.inj hchildren
    obtain rfl : tail' = tail := by
      cases tail <;> cases tail' <;> cases htail <;> rfl
    exact .sequence _ _
  · obtain rfl := (List.cons.inj hchildren).1
    exact .group _ _ _
  · obtain rfl := (List.cons.inj hchildren).1
    exact .script _ _
  · obtain rfl := (List.cons.inj hchildren).1
    exact .script _ _
  · obtain rfl : parameters' = parameters := hchildren
    exact .command _ _ _
  · obtain ⟨rfl, hbody⟩ := List.append_inj' hchildren rfl
    obtain rfl := (List.cons.inj hbody).1
    exact .block _ _ _ _

/-- Of each child of a node, whether a chain has to be there. -/
def Node.chained : Node → List Bool
  | .literal _ | .empty => []
  | .sequence _ tail => false :: tail.toList.map fun _ => true
  | .group .. => [true]
  | .script .. => [false]
  | .command _ parameters => .replicate parameters.length false
  | .block _ parameters _ => .replicate parameters.length false ++ [true]

/-! ## Paths -/

namespace Tree

variable {id top : NodeId} {path : List Nat} {node : Node}

/-- Where a path leads from a position. At every step it says which child to take. -/
def follow (t : Tree) : NodeId → List Nat → Option NodeId
  | id, [] => some id
  | id, k :: path => (t.node id).children[k]?.bind fun child => t.follow child path

/-- Whether a path leads from one position to another. -/
def Reaches (t : Tree) (top id : NodeId) : Prop := ∃ path, t.follow top path = some id

/-- The children of a node are cells where a chain has to be, and elements elsewhere. -/
def ProperChildren (t : Tree) : Node → Prop
  | .literal _ | .empty => True
  | .sequence head tail => t.isSequence head = false ∧ ∀ next ∈ tail, t.isSequence next = true
  | .group _ inner => t.isSequence inner = true
  | .script _ operand => t.isSequence operand = false
  | .command _ parameters => ∀ p ∈ parameters, t.isSequence p = false
  | .block _ parameters body => (∀ p ∈ parameters, t.isSequence p = false) ∧ t.isSequence body = true

/-- The node at a position hangs under nothing, and what is under it is properly linked. -/
structure Linked (t : Tree) (top : NodeId) : Prop where
  lt_size : top < t.size
  parent_top : t.parent top = none
  parent : ∀ id, t.Reaches top id → ∀ child ∈ (t.node id).children, t.parent child = some id
  one_path : ∀ path path' id, t.follow top path = some id → t.follow top path' = some id →
    path = path'
  proper : ∀ id, t.Reaches top id → t.ProperChildren (t.node id)

variable {t t' : Tree}

theorem follow_append (id : NodeId) (path path' : List Nat) :
    t.follow id (path ++ path') = (t.follow id path).bind fun next => t.follow next path' := by
  induction path generalizing id with
  | nil => rfl
  | cons k path ih =>
    rw [List.cons_append, follow, follow, Option.bind_assoc]
    congr 1
    funext child
    exact ih child

theorem Reaches.refl (id : NodeId) : t.Reaches id id := ⟨[], rfl⟩

theorem Reaches.trans {i j k : NodeId} (h : t.Reaches i j) (h' : t.Reaches j k) : t.Reaches i k := by
  obtain ⟨path, hpath⟩ := h
  obtain ⟨path', hpath'⟩ := h'
  exact ⟨path ++ path', by rw [follow_append, hpath, Option.bind_some, hpath']⟩

theorem reaches_child {child : NodeId} (h : child ∈ (t.node id).children) : t.Reaches id child := by
  obtain ⟨k, hk⟩ := List.getElem?_of_mem h
  exact ⟨[k], by rw [follow, hk]; rfl⟩

/-- A child that hangs under something was given out. -/
theorem lt_size_of_parent {up : NodeId} (h : t.parent id = some up) : id < t.size := by
  by_contra hle
  rw [parent_eq_look, look_eq_none_iff.mpr (Nat.le_of_not_lt hle)] at h
  cases h

/-- The last step of a path. -/
theorem exists_of_follow_concat {k : Nat} (h : t.follow top (path ++ [k]) = some id) :
    ∃ up, t.follow top path = some up ∧ id ∈ (t.node up).children := by
  rw [follow_append] at h
  obtain ⟨up, hup, hchild⟩ := Option.bind_eq_some_iff.mp h
  rw [follow] at hchild
  obtain ⟨child, hk, hend⟩ := Option.bind_eq_some_iff.mp hchild
  obtain rfl := Option.some.inj hend
  exact ⟨up, hup, List.mem_of_getElem? hk⟩

theorem Reaches.cases (h : t.Reaches top id) :
    id = top ∨ ∃ up, t.Reaches top up ∧ id ∈ (t.node up).children := by
  obtain ⟨path, hpath⟩ := h
  rcases List.eq_nil_or_concat path with rfl | ⟨init, k, rfl⟩
  · exact Or.inl (Option.some.inj hpath).symm
  · rw [List.concat_eq_append] at hpath
    obtain ⟨up, hup, hmem⟩ := exists_of_follow_concat hpath
    exact Or.inr ⟨up, ⟨init, hup⟩, hmem⟩

/-- Everything that a position reaches was given out. -/
theorem Linked.lt_size_of_reaches (h : t.Linked top) (hid : t.Reaches top id) : id < t.size := by
  rcases hid.cases with rfl | ⟨up, hup, hmem⟩
  · exact h.lt_size
  · exact lt_size_of_parent (h.parent up hup id hmem)

/-- What hangs under nothing is reached from nowhere else, and neither is anything under it. -/
theorem Linked.apart {top' : NodeId} (h : t.Linked top) (h' : t.Linked top') (hne : top ≠ top')
    (hid : t.Reaches top id) : ¬t.Reaches top' id := by
  obtain ⟨path, hpath⟩ := hid
  induction path using List.reverseRecOn generalizing id with
  | nil =>
    obtain rfl := Option.some.inj hpath
    intro hid'
    rcases hid'.cases with heq | ⟨up, hup, hmem⟩
    · exact hne heq
    · have hparent := h.parent_top
      rw [h'.parent up hup top hmem] at hparent
      cases hparent
  | append_singleton path k ih =>
    obtain ⟨up, hup, hmem⟩ := exists_of_follow_concat hpath
    have hparent := h.parent up ⟨path, hup⟩ id hmem
    intro hid'
    -- A node hangs under one other, so both would reach that one.
    rcases hid'.cases with rfl | ⟨up', hup', hmem'⟩
    · rw [h'.parent_top] at hparent
      cases hparent
    · rw [h'.parent up' hup' id hmem'] at hparent
      obtain rfl := Option.some.inj hparent
      exact ih hup hup'

/-- A path that does not come back passes no position twice, so it is no longer than the store. -/
theorem length_lt_of_acyclic (hlt : ∀ i, t.Reaches top i → i < t.size)
    (hacyclic : ∀ i path, t.Reaches top i → t.follow i path = some i → path = [])
    (hpath : t.follow top path = some id) : path.length < t.size := by
  have hpassed : ∀ m : Fin (path.length + 1), ∃ i, t.follow top (path.take m) = some i := by
    intro m
    rw [← List.take_append_drop m path, follow_append] at hpath
    obtain ⟨i, hi, -⟩ := Option.bind_eq_some_iff.mp hpath
    exact ⟨i, hi⟩
  choose passed hpassed using hpassed
  have hreach : ∀ m, passed m < t.size := fun m => hlt _ ⟨_, hpassed m⟩
  have hne : ∀ m m' : Fin (path.length + 1), (m : Nat) < m' → passed m ≠ passed m' := by
    intro m m' hlt heq
    -- Between two visits to one position the path would come back.
    have hsplit : path.take m' = path.take m ++ (path.take m').drop m := by
      rw [List.drop_take, ← List.take_add, Nat.add_sub_cancel' (Nat.le_of_lt hlt)]
    have hback := hpassed m'
    rw [hsplit, follow_append, hpassed m, Option.bind_some, ← heq] at hback
    have hlength := congrArg List.length (hacyclic _ _ ⟨_, hpassed m⟩ hback)
    rw [List.length_drop, List.length_take, List.length_nil] at hlength
    omega
  have hinjective : Function.Injective fun m => (⟨passed m, hreach m⟩ : Fin t.size) := by
    intro m m' heq
    rcases Nat.lt_trichotomy m m' with hlt | hsame | hlt
    · exact absurd (Fin.mk.inj heq) (hne m m' hlt)
    · exact Fin.ext hsame
    · exact absurd (Fin.mk.inj heq).symm (hne m' m hlt)
  have hcard := Fintype.card_le_of_injective _ hinjective
  rw [Fintype.card_fin, Fintype.card_fin] at hcard
  exact hcard

theorem Linked.length_lt (h : t.Linked top) (hpath : t.follow top path = some id) :
    path.length < t.size := by
  refine length_lt_of_acyclic (fun i => h.lt_size_of_reaches) ?_ hpath
  rintro i path' ⟨path, hi⟩ hback
  have hpath' : t.follow top (path ++ path') = some i := by
    rw [follow_append, hi, Option.bind_some, hback]
  exact List.self_eq_append_right.mp (h.one_path _ _ i hi hpath')

theorem isSequence_iff : t.isSequence id = true ↔ t.kind id = .sequence := by
  rw [isSequence, kind]
  rcases t.node id with _ | _ | _ | _ | ⟨_ | _, _⟩ | _ | _ <;> simp [Node.isSequence, Node.kind]

/-- Everything that hangs in one tree as in another. -/
structure SameLinks (t t' : Tree) : Prop where
  size_le : t.size ≤ t'.size
  parent_eq : ∀ id, t'.parent id = t.parent id
  children_eq : ∀ id, (t'.node id).children = (t.node id).children
  kind_eq : ∀ id, t'.kind id = t.kind id

theorem SameLinks.refl (t : Tree) : t.SameLinks t :=
  ⟨Nat.le_refl _, fun _ => rfl, fun _ => rfl, fun _ => rfl⟩

theorem SameLinks.trans {t₁ t₂ t₃ : Tree} (h : t₁.SameLinks t₂) (h' : t₂.SameLinks t₃) :
    t₁.SameLinks t₃ where
  size_le := h.size_le.trans h'.size_le
  parent_eq id := (h'.parent_eq id).trans (h.parent_eq id)
  children_eq id := (h'.children_eq id).trans (h.children_eq id)
  kind_eq id := (h'.kind_eq id).trans (h.kind_eq id)

/-- A change at a position that was never given out does nothing. -/
theorem node_setNode_cases (id j : NodeId) (node : Node) :
    (t.setNode id node).node j = t.node j ∨ j = id ∧ (t.setNode id node).node j = node := by
  rw [node_eq_look, look_setNode]
  split
  · rename_i heq
    subst heq
    rcases hlook : t.look id with _ | ⟨old, up⟩
    · rw [node_eq_look, hlook]
      exact Or.inl rfl
    · exact Or.inr ⟨rfl, rfl⟩
  · exact Or.inl (node_eq_look t j).symm

/-- A node may be changed where it stands, if it stays of its kind and keeps its children. -/
theorem sameLinks_setNode {id : NodeId} {node : Node} (hkind : node.kind = t.kind id)
    (hchildren : node.children = (t.node id).children) : t.SameLinks (t.setNode id node) := by
  refine ⟨by simp, fun j => parent_setNode id j, fun j => ?_, fun j => ?_⟩
  · rcases node_setNode_cases id j node with heq | ⟨rfl, heq⟩
    · rw [heq]
    · rw [heq, hchildren]
  · rcases node_setNode_cases id j node with heq | ⟨rfl, heq⟩
    · rw [kind, heq, kind]
    · rw [kind, heq, hkind]

theorem sameLinks_rename (id : NodeId) (name : String) : t.SameLinks (t.rename id name) := by
  rw [rename]
  split
  · rename_i hnode
    exact sameLinks_setNode (by rw [kind, hnode]; rfl) (by rw [hnode]; rfl)
  · rename_i hnode
    exact sameLinks_setNode (by rw [kind, hnode]; rfl) (by rw [hnode]; rfl)
  · exact SameLinks.refl t

theorem sameLinks_setText (id : NodeId) (text : String) : t.SameLinks (t.setText id text) := by
  rw [setText]
  split
  · rename_i hnode
    exact sameLinks_setNode (by rw [kind, hnode]; rfl) (by rw [hnode]; rfl)
  · exact SameLinks.refl t

theorem SameLinks.alike (h : t.SameLinks t') (id : NodeId) : (t.node id).Alike (t'.node id) :=
  Node.alike_of (h.kind_eq id) (h.children_eq id)

theorem SameLinks.isSequence_eq (h : t.SameLinks t') (id : NodeId) :
    t'.isSequence id = t.isSequence id := by
  rw [Bool.eq_iff_iff, isSequence_iff, isSequence_iff, h.kind_eq]

theorem SameLinks.follow_eq (h : t.SameLinks t') (id : NodeId) (path : List Nat) :
    t'.follow id path = t.follow id path := by
  induction path generalizing id with
  | nil => rfl
  | cons k path ih =>
    rw [follow, follow, h.children_eq]
    congr 1
    funext child
    exact ih child

theorem SameLinks.reaches_iff (h : t.SameLinks t') : t'.Reaches top id ↔ t.Reaches top id := by
  simp only [Reaches, h.follow_eq]

theorem properChildren_iff : t.ProperChildren node ↔
    node.children.map t.isSequence = node.chained := by
  cases node with
  | sequence head tail => cases tail <;> simp [ProperChildren, Node.children, Node.chained]
  | literal | empty | group | script => simp [ProperChildren, Node.children, Node.chained]
  | command | block =>
    simp [ProperChildren, Node.children, Node.chained, List.map_eq_replicate_iff]

/-- Whether children are proper can be read off which of them are cells. -/
theorem ProperChildren.of_isSequence (h : t.ProperChildren node)
    (hsequence : ∀ i ∈ node.children, t'.isSequence i = t.isSequence i) :
    t'.ProperChildren node := by
  rw [properChildren_iff] at h ⊢
  rw [← h]
  exact List.map_congr_left hsequence

/-- Whether children are proper can be read off them and the kind of the node. -/
theorem ProperChildren.congr {node' : Node} (h : t.ProperChildren node)
    (hkind : node'.kind = node.kind) (hchildren : node'.children = node.children) :
    t.ProperChildren node' := by
  cases Node.alike_of hkind hchildren with
  | literal | empty => trivial
  | sequence | group | script | command | block => exact h

theorem SameLinks.proper (h : t.SameLinks t') (hid : t.ProperChildren (t.node id)) :
    t'.ProperChildren (t'.node id) :=
  (hid.of_isSequence fun i _ => h.isSequence_eq i).congr (h.kind_eq id) (h.children_eq id)

theorem Linked.congr (h : t.Linked top) (hsame : t.SameLinks t') : t'.Linked top where
  lt_size := h.lt_size.trans_le hsame.size_le
  parent_top := (hsame.parent_eq top).trans h.parent_top
  parent id hid child hchild := by
    rw [hsame.children_eq] at hchild
    rw [hsame.parent_eq]
    exact h.parent id (hsame.reaches_iff.mp hid) child hchild
  one_path path path' id hpath hpath' := by
    rw [hsame.follow_eq] at hpath hpath'
    exact h.one_path path path' id hpath hpath'
  proper id hid := hsame.proper (h.proper id (hsame.reaches_iff.mp hid))

end Tree

open Plan

namespace Part

variable {xs : List Part} {path : List Nat} {i : NodeId}

/-- The part that a path leads to. -/
def down (x : Part) : List Nat → Option Part
  | [] => some x
  | k :: path => x.children[k]?.bind fun y => y.down path

variable {t t' : Tree} {up : Option NodeId} {x y : Part}

/-! ## Parts that fit -/

theorem isSequence_node (x : Part) : x.node.isSequence = x.isChain := by
  rcases x with (_ | _ | _ | _ | _ | _) | _ <;> rfl

theorem Fits.isSequence (h : x.Fits t up) : t.isSequence x.id = x.isChain := by
  rw [Tree.isSequence, h.node, isSequence_node]

/-- Parts that are no chains are elements. -/
theorem exists_elements {n : Nat} (h : xs.map isChain = .replicate n false) :
    ∃ ps : List Plan, xs = ps.map element := by
  replace h := List.forall_mem_map.mp (List.eq_replicate_iff.mp h).2
  induction xs with
  | nil => exact ⟨[], rfl⟩
  | cons x xs ih =>
    rw [List.forall_mem_cons] at h
    obtain ⟨ps, rfl⟩ := ih h.2
    cases x with
    | element p => exact ⟨p :: ps, rfl⟩
    | chain cell p rest => cases h.1

/-- At most one part, which is a chain, as a row. -/
theorem exists_row {first : Option NodeId} (hids : xs.map id = first.toList)
    (hchained : xs.map isChain = first.toList.map fun _ => true) :
    ∃ row : Row, xs = ofRow row ∧ nextCell row = first := by
  cases first with
  | none => exact ⟨[], List.map_eq_nil_iff.mp hids, rfl⟩
  | some first =>
    obtain ⟨x, rfl, rfl⟩ := List.map_eq_singleton_iff.mp hids
    cases x with
    | element p => cases hchained
    | chain cell p rest => exact ⟨(cell, p) :: rest, rfl, rfl⟩

/-- A node over parts that are chains where chains have to be is the node of a part. -/
theorem exists_over {node : Node} (hids : xs.map id = node.children)
    (hchained : xs.map isChain = node.chained) (i : NodeId) :
    ∃ x : Part, x.id = i ∧ x.node = node ∧ x.children = xs := by
  cases node with
  | literal text => exact ⟨.element (.literal i text), rfl, rfl, (List.map_eq_nil_iff.mp hids).symm⟩
  | empty => exact ⟨.element (.empty i), rfl, rfl, (List.map_eq_nil_iff.mp hids).symm⟩
  | sequence head tail =>
    obtain ⟨x, xs, rfl, rfl, htail⟩ := List.map_eq_cons_iff.mp hids
    obtain ⟨hx, hxs⟩ := List.cons.inj hchained
    obtain ⟨row, rfl, rfl⟩ := exists_row htail hxs
    cases x with
    | element p => exact ⟨.chain i p row, rfl, rfl, rfl⟩
    | chain cell p rest => cases hx
  | group fence inner =>
    obtain ⟨row, rfl, hrow⟩ := @exists_row _ (some inner) hids hchained
    exact ⟨.element (.group i fence row), rfl, by rw [node, top, hrow]; rfl, rfl⟩
  | script marker operand =>
    obtain ⟨x, rfl, rfl⟩ := List.map_eq_singleton_iff.mp hids
    cases x with
    | element p => exact ⟨.element (.script i marker p), rfl, rfl, rfl⟩
    | chain cell p rest => cases hchained
  | command name parameters =>
    obtain ⟨ps, rfl⟩ := exists_elements hchained
    rw [ids_map_elements] at hids
    exact ⟨.element (.command i name ps), rfl, by rw [node, top, hids]; rfl, rfl⟩
  | block name parameters body =>
    obtain ⟨xs, ys, rfl, hxs, hys⟩ := List.map_eq_append_iff.mp hids
    rw [List.map_append] at hchained
    obtain ⟨hplain, hbody⟩ := List.append_inj hchained (by simp [← hxs])
    obtain ⟨ps, rfl⟩ := exists_elements hplain
    obtain ⟨row, rfl, hrow⟩ := @exists_row _ (some body) hys hbody
    rw [ids_map_elements] at hxs
    exact ⟨.element (.block i name ps row), rfl, by rw [node, top, hrow, hxs]; rfl, rfl⟩

theorem chained_node (h : x.node.children = x.children.map id) :
    x.children.map isChain = x.node.chained := by
  have helements : ∀ ps : List Plan, (ps.map element).map isChain = .replicate ps.length false := by
    simp [List.map_eq_replicate_iff, isChain]
  have hrow : ∀ row, (ofRow row).map isChain = (nextCell row).toList.map fun _ => true := by
    intro row
    cases row <;> rfl
  cases x with
  | chain cell p rest => simp [children, node, Node.chained, hrow, isChain]
  | element p =>
    cases p with
    | literal | empty | script => rfl
    | group n fence inner =>
      rw [children, ids_map_ofRow] at h
      rw [children, hrow, ← h]
      rfl
    | command n name ps => simp [children, node, top, Node.chained, helements]
    | block n name ps body =>
      rw [children, List.map_append, ids_map_elements, ids_map_ofRow] at h
      have hbody := List.append_cancel_left h
      rw [children, List.map_append, helements, hrow, ← hbody]
      simp [node, top, Node.chained]

theorem Fits.map_isSequence (h : ∀ x ∈ xs, ∃ up, x.Fits t up) :
    (xs.map id).map t.isSequence = xs.map isChain := by
  rw [List.map_map]
  refine List.map_congr_left fun x hx => ?_
  obtain ⟨up, hfits⟩ := h x hx
  exact hfits.isSequence

theorem Fits.proper (h : x.Fits t up) : t.ProperChildren x.node := by
  rw [Tree.properChildren_iff, h.node_children, ← chained_node h.node_children]
  exact Fits.map_isSequence fun y hy => ⟨_, h.children y hy⟩

/-- The paths of the store are those of the part. -/
theorem Fits.follow (h : x.Fits t up) (path : List Nat) :
    t.follow x.id path = (x.down path).map id := by
  induction path generalizing x up with
  | nil => rfl
  | cons k path ih =>
    rw [Tree.follow, h.node, h.node_children, List.getElem?_map, Part.down]
    rcases hk : x.children[k]? with _ | y
    · rfl
    · exact ih (h.children y (List.mem_of_getElem? hk))

theorem Fits.down (h : x.Fits t up) (hy : x.down path = some y) : ∃ up', y.Fits t up' := by
  induction path generalizing x up with
  | nil =>
    obtain rfl := Option.some.inj hy
    exact ⟨up, h⟩
  | cons k path ih =>
    rw [Part.down] at hy
    obtain ⟨z, hz, hy⟩ := Option.bind_eq_some_iff.mp hy
    exact ih (h.children z (List.mem_of_getElem? hz)) hy

theorem ids_le_of_down (h : x.down path = some y) : y.ids ≤ x.ids := by
  induction path generalizing x with
  | nil =>
    obtain rfl := Option.some.inj h
    exact le_refl _
  | cons k path ih =>
    rw [Part.down] at h
    obtain ⟨z, hz, hy⟩ := Option.bind_eq_some_iff.mp h
    rw [ids_eq x]
    exact (ih hy).trans ((ids_le_sum (List.mem_of_getElem? hz)).trans
      (Multiset.le_add_left _ _))

/-- The positions of a part are what it reaches. -/
theorem Fits.reaches_iff (h : x.Fits t up) : t.Reaches x.id i ↔ i ∈ x.ids := by
  constructor
  · rintro ⟨path, hpath⟩
    rw [h.follow] at hpath
    obtain ⟨y, hy, rfl⟩ := Option.map_eq_some_iff.mp hpath
    exact Multiset.mem_of_le (ids_le_of_down hy) y.id_mem_ids
  · intro hi
    induction x using Part.induction generalizing up with
    | step x ih =>
      rw [ids_eq, Multiset.mem_add, Multiset.mem_singleton] at hi
      rcases hi with rfl | hi
      · exact Tree.Reaches.refl _
      · obtain ⟨y, hy, hi⟩ := mem_sum_iff.mp hi
        have hchild : y.id ∈ (t.node x.id).children := by
          rw [h.node, h.node_children]
          exact List.mem_map_of_mem hy
        exact (Tree.reaches_child hchild).trans (ih y hy (h.children y hy) hi)

/-! ## Proper links -/

theorem disjoint_of_nodup_sum {k k' : Nat} (hn : (xs.map ids).sum.Nodup) (hx : xs[k]? = some x)
    (hy : xs[k']? = some y) (hne : k ≠ k') : Disjoint x.ids y.ids := by
  induction xs generalizing k k' with
  | nil => cases hx
  | cons z xs ih =>
    rw [List.map_cons, List.sum_cons, Multiset.nodup_add] at hn
    -- The first part shares nothing with a later one.
    have hfirst : ∀ {w : Part} {m : Nat}, xs[m]? = some w → Disjoint z.ids w.ids :=
      fun hw => hn.2.2.mono_right (ids_le_sum (List.mem_of_getElem? hw))
    match k, k' with
    | 0, 0 => exact absurd rfl hne
    | 0, k' + 1 =>
      obtain rfl := Option.some.inj hx
      exact hfirst hy
    | k + 1, 0 =>
      obtain rfl := Option.some.inj hy
      exact (hfirst hx).symm
    | k + 1, k' + 1 => exact ih hn.2.1 hx hy fun heq => hne (congrArg Nat.succ heq)

/-- Where no position occurs twice, a position is reached by one path. -/
theorem path_eq {path' : List Nat} {y' : Part} (hn : x.ids.Nodup) (h : x.down path = some y)
    (h' : x.down path' = some y') (hid : y.id = y'.id) : path = path' := by
  induction path generalizing x path' with
  | nil =>
    obtain rfl := Option.some.inj h
    cases path' with
    | nil => rfl
    | cons k path' =>
      rw [down] at h'
      obtain ⟨z, hz, h'⟩ := Option.bind_eq_some_iff.mp h'
      rw [ids_eq, nodup_cons_iff] at hn
      refine absurd ?_ hn.1
      rw [hid]
      exact Multiset.mem_of_le ((ids_le_of_down h').trans (ids_le_sum (List.mem_of_getElem? hz)))
        y'.id_mem_ids
  | cons k path ih =>
    rw [down] at h
    obtain ⟨z, hz, h⟩ := Option.bind_eq_some_iff.mp h
    rw [ids_eq, nodup_cons_iff] at hn
    cases path' with
    | nil =>
      obtain rfl := Option.some.inj h'
      refine absurd ?_ hn.1
      rw [← hid]
      exact Multiset.mem_of_le ((ids_le_of_down h).trans (ids_le_sum (List.mem_of_getElem? hz)))
        y.id_mem_ids
    | cons k' path' =>
      rw [down] at h'
      obtain ⟨z', hz', h'⟩ := Option.bind_eq_some_iff.mp h'
      by_cases hk : k = k'
      · subst hk
        obtain rfl := Option.some.inj (hz.symm.trans hz')
        rw [ih (Multiset.nodup_of_le (ids_le_sum (List.mem_of_getElem? hz)) hn.2) h h']
      · -- Both children would hold the position.
        refine absurd (Multiset.mem_of_le (ids_le_of_down h') y'.id_mem_ids) ?_
        rw [← hid]
        exact Multiset.disjoint_left.mp (disjoint_of_nodup_sum hn.2 hz hz' hk)
          (Multiset.mem_of_le (ids_le_of_down h) y.id_mem_ids)

/-- The part at a position that is reached. -/
theorem Fits.exists_of_reaches (h : x.Fits t up) (hi : t.Reaches x.id i) :
    ∃ path y up', x.down path = some y ∧ y.id = i ∧ y.Fits t up' := by
  obtain ⟨path, hpath⟩ := hi
  rw [h.follow] at hpath
  obtain ⟨y, hy, rfl⟩ := Option.map_eq_some_iff.mp hpath
  obtain ⟨up', hup'⟩ := h.down hy
  exact ⟨path, y, up', hy, rfl, hup'⟩

/-- A part that hangs under nothing is properly linked. -/
theorem Fits.linked (h : x.Fits t none) (hn : x.ids.Nodup) : t.Linked x.id where
  lt_size := h.lt_size x.id x.id_mem_ids
  parent_top := h.parent
  parent i hi child hchild := by
    obtain ⟨path, y, up', -, rfl, hy⟩ := h.exists_of_reaches hi
    rw [hy.node, hy.node_children] at hchild
    obtain ⟨z, hz, rfl⟩ := List.mem_map.mp hchild
    exact (hy.children z hz).parent
  one_path path path' i hpath hpath' := by
    rw [h.follow] at hpath hpath'
    obtain ⟨y, hy, rfl⟩ := Option.map_eq_some_iff.mp hpath
    obtain ⟨y', hy', hid⟩ := Option.map_eq_some_iff.mp hpath'
    exact path_eq hn hy hy' hid.symm
  proper i hi := by
    obtain ⟨path, y, up', -, rfl, hy⟩ := h.exists_of_reaches hi
    rw [hy.node]
    exact hy.proper

end Part

/-! ## The part of a position -/

namespace Tree

variable {t : Tree} {top : NodeId} {height : Nat} {up : Option NodeId}

/-- All paths from a position are shorter than a bound. -/
def Shallow (t : Tree) (n : Nat) (i : NodeId) : Prop :=
  ∀ path k, t.follow i path = some k → path.length < n

theorem Shallow.child {n : Nat} {child : NodeId} (h : t.Shallow (n + 1) top)
    (hchild : child ∈ (t.node top).children) : t.Shallow n child := by
  intro path i hpath
  obtain ⟨k, hk⟩ := List.getElem?_of_mem hchild
  have hlonger := h (k :: path) i (by rw [follow, hk, Option.bind_some, hpath])
  exact Nat.lt_of_succ_lt_succ hlonger

/-- What is under a position has proper children, and its paths end. -/
structure Ends (t : Tree) (height : Nat) (top : NodeId) : Prop where
  length_lt : ∀ path id, t.follow top path = some id → path.length < height
  proper : ∀ id, t.Reaches top id → t.ProperChildren (t.node id)

theorem Ends.child {child : NodeId} (h : t.Ends (height + 1) top)
    (hchild : child ∈ (t.node top).children) : t.Ends height child where
  length_lt := Shallow.child h.length_lt hchild
  proper i hi := h.proper i ((reaches_child hchild).trans hi)

theorem Linked.ends (h : t.Linked top) : t.Ends t.size top :=
  ⟨fun _ _ hpath => h.length_lt hpath, h.proper⟩

/-- What is under a position is properly linked, and its paths end. -/
structure LinkedBelow (t : Tree) (height : Nat) (up : Option NodeId) (top : NodeId) : Prop extends
    t.Ends height top where
  lt_size : top < t.size
  parent_top : t.parent top = up
  parent : ∀ id, t.Reaches top id → ∀ child ∈ (t.node id).children, t.parent child = some id

theorem LinkedBelow.child {child : NodeId} (h : t.LinkedBelow (height + 1) up top)
    (hchild : child ∈ (t.node top).children) :
    t.LinkedBelow height (some top) child where
  toEnds := h.toEnds.child hchild
  lt_size := lt_size_of_parent (h.parent top (Reaches.refl top) child hchild)
  parent_top := h.parent top (Reaches.refl top) child hchild
  parent i hi := h.parent i ((reaches_child hchild).trans hi)

/-- Parts for all of some positions. -/
theorem exists_parts {is : List NodeId} (h : ∀ i ∈ is, ∃ x : Part, x.id = i ∧ x.Fits t up) :
    ∃ xs : List Part, xs.map Part.id = is ∧ ∀ x ∈ xs, x.Fits t up := by
  induction is with
  | nil => exact ⟨[], rfl, nofun⟩
  | cons i is ih =>
    rw [List.forall_mem_cons] at h
    obtain ⟨⟨x, rfl, hx⟩, hrest⟩ := h
    obtain ⟨xs, rfl, hxs⟩ := ih hrest
    exact ⟨x :: xs, rfl, List.forall_mem_cons.mpr ⟨hx, hxs⟩⟩

theorem LinkedBelow.exists_part (h : t.LinkedBelow height up top) :
    ∃ x : Part, x.id = top ∧ x.Fits t up := by
  induction height generalizing up top with
  | zero => exact absurd (h.length_lt [] top rfl) (Nat.not_lt_zero _)
  | succ height ih =>
    obtain ⟨xs, hids, hfits⟩ := exists_parts fun child hchild => ih (h.child hchild)
    have hchained : xs.map Part.isChain = (t.node top).chained := by
      rw [← Part.Fits.map_isSequence fun x hx => ⟨_, hfits x hx⟩, hids]
      exact properChildren_iff.mp (h.proper top (Reaches.refl top))
    obtain ⟨x, rfl, hnode, rfl⟩ := Part.exists_over hids hchained top
    refine ⟨x, rfl, Part.fits_iff.mpr ⟨by rw [hnode, hids], ?_, hfits⟩⟩
    rw [hnode, look_of_lt h.lt_size, h.parent_top]

end Tree

namespace Part

variable {t : Tree} {up : Option NodeId} {x : Part}

theorem nodup_sum {xs : List Part} (hn : ∀ x ∈ xs, x.ids.Nodup)
    (hdisjoint : ∀ (k k' : Nat) (x y : Part), xs[k]? = some x → xs[k']? = some y → k ≠ k' →
      Disjoint x.ids y.ids) : (xs.map ids).sum.Nodup := by
  induction xs with
  | nil => simp
  | cons x xs ih =>
    rw [List.forall_mem_cons] at hn
    rw [List.map_cons, List.sum_cons, Multiset.nodup_add]
    refine ⟨hn.1, ih hn.2 fun k k' y z hy hz hne => ?_, ?_⟩
    · exact hdisjoint (k + 1) (k' + 1) y z hy hz fun heq => hne (Nat.succ.inj heq)
    · rw [Multiset.disjoint_left]
      intro i hi hmem
      obtain ⟨y, hy, hiy⟩ := mem_sum_iff.mp hmem
      obtain ⟨k, hk⟩ := List.getElem?_of_mem hy
      exact Multiset.disjoint_left.mp (hdisjoint 0 (k + 1) x y rfl hk (Nat.succ_ne_zero k).symm) hi hiy

/-- Where every position is reached by one path, none occurs twice. -/
theorem Fits.nodup (h : x.Fits t up)
    (hone : ∀ path path' i, t.follow x.id path = some i → t.follow x.id path' = some i →
      path = path') : x.ids.Nodup := by
  induction x using Part.induction generalizing up with
  | step x ih =>
    have hchild : ∀ {k : Nat} {y : Part}, x.children[k]? = some y → ∀ path,
        t.follow x.id (k :: path) = t.follow y.id path := by
      intro k y hy path
      rw [Tree.follow, h.node, h.node_children, List.getElem?_map, hy]
      rfl
    have hreach : ∀ {k : Nat} {y : Part}, x.children[k]? = some y → ∀ {i}, i ∈ y.ids →
        ∃ path, t.follow x.id (k :: path) = some i := by
      intro k y hy i hi
      obtain ⟨path, hpath⟩ :=
        (h.children y (List.mem_of_getElem? hy)).reaches_iff.mpr hi
      exact ⟨path, by rw [hchild hy, hpath]⟩
    refine nodup_ids_iff.mpr ⟨fun hmem => ?_, nodup_sum (fun y hy => ?_) fun k k' y z hy hz hne => ?_⟩
    · obtain ⟨y, hy, hi⟩ := mem_sum_iff.mp hmem
      obtain ⟨k, hk⟩ := List.getElem?_of_mem hy
      obtain ⟨path, hpath⟩ := hreach hk hi
      cases hone [] (k :: path) x.id rfl hpath
    · obtain ⟨k, hk⟩ := List.getElem?_of_mem hy
      refine ih y hy (h.children y hy) ?_
      intro path path' i hi hi'
      have heq := hone (k :: path) (k :: path') i (by rw [hchild hk, hi]) (by rw [hchild hk, hi'])
      exact (List.cons.inj heq).2
    · rw [Multiset.disjoint_left]
      intro i hi hi'
      obtain ⟨path, hpath⟩ := hreach hy hi
      obtain ⟨path', hpath'⟩ := hreach hz hi'
      exact hne (List.cons.inj (hone _ _ i hpath hpath')).1

end Part

/-- Everything that is properly linked is a part in which no position occurs twice. -/
theorem Tree.Linked.exists_part {t : Tree} {top : NodeId} (h : t.Linked top) :
    ∃ x : Part, x.id = top ∧ x.Fits t none ∧ x.ids.Nodup := by
  have hbelow : t.LinkedBelow t.size none top :=
    ⟨h.ends, h.lt_size, h.parent_top, h.parent⟩
  obtain ⟨x, rfl, hx⟩ := hbelow.exists_part
  exact ⟨x, rfl, hx, hx.nodup h.one_path⟩

/-- What is properly linked from a cell on is a chain. -/
theorem Tree.Linked.exists_chain {t : Tree} {top : NodeId} (h : t.Linked top)
    (hsequence : t.isSequence top = true) :
    ∃ p rest, RowFits t none ((top, p) :: rest) ∧ (rowIds ((top, p) :: rest)).Nodup := by
  obtain ⟨x, rfl, hx, hn⟩ := h.exists_part
  rw [hx.isSequence] at hsequence
  cases x with
  | element p => cases hsequence
  | chain cell p rest => exact ⟨p, rest, hx, hn⟩

/-- A formula is properly linked from its root on. -/
theorem Tree.Depicts.linked {t : Tree} {fs : List Shape} (h : t.Depicts fs) : t.Linked t.root := by
  obtain ⟨row, hroot, hfits, hn, -⟩ := h
  obtain ⟨p, rest, rfl⟩ := exists_of_nextCell hroot
  have hpart : (Part.chain t.root p rest).Fits t none := hfits
  exact hpart.linked hn

end Formulary
