import Formulary.Proofs.Shape
import Formulary.Proofs.Store
import Mathlib.Algebra.Order.Group.Multiset
import Mathlib.Data.Finset.Card

/-!
# Plans

A plan is a shape that says at which positions of a store it stands: every element has the position
of its node, and the elements of a chain have the positions of their cells. `Plan.Fits` says that a
store follows a plan, nodes, children and parents alike. A plan in which no position occurs twice
is a proper tree, and its positions are its footprint: a change elsewhere leaves it as it is
(`Fits.of_keeps`), so changes of one part of a formula can be looked at alone.

`Tree.Depicts` is the reading of trees that statements use: the tree is properly linked and has the
given elements.
-/

namespace Formulary

variable {cell : NodeId} {fs : List Shape} {s : Multiset NodeId}

/-- An element of a formula and the positions where it stands. -/
inductive Plan where
  | literal (id : NodeId) (text : String)
  | empty (id : NodeId)
  | group (id : NodeId) (fence : Fence) (inner : List (NodeId × Plan))
  | script (id : NodeId) (marker : Marker) (operand : Plan)
  | command (id : NodeId) (name : String) (parameters : List Plan)
  | block (id : NodeId) (name : String) (parameters : List Plan) (body : List (NodeId × Plan))
  deriving Inhabited

/-- A chain: its elements, each with the position of its cell. -/
abbrev Row := List (NodeId × Plan)

namespace Plan

variable {row : Row} {p : Plan} {ps : List Plan} {x : NodeId × Plan} {new : Multiset NodeId}
  {first i : NodeId}

/-- The position of the node of an element. -/
def id : Plan → NodeId
  | .literal id _ => id
  | .empty id => id
  | .group id _ _ => id
  | .script id _ _ => id
  | .command id _ _ => id
  | .block id _ _ _ => id

@[simp] theorem id_literal (id : NodeId) (text : String) : (literal id text).id = id := rfl

@[simp] theorem id_empty (id : NodeId) : (empty id).id = id := rfl

@[simp] theorem id_group (id : NodeId) (fence : Fence) (inner : Row) :
    (group id fence inner).id = id := rfl

@[simp] theorem id_script (id : NodeId) (marker : Marker) (operand : Plan) :
    (script id marker operand).id = id := rfl

@[simp] theorem id_command (id : NodeId) (name : String) (parameters : List Plan) :
    (command id name parameters).id = id := rfl

@[simp] theorem id_block (id : NodeId) (name : String) (parameters : List Plan) (body : Row) :
    (block id name parameters body).id = id := rfl

/-- The position of the first cell of a chain. -/
def nextCell : Row → Option NodeId
  | [] => none
  | (cell, _) :: _ => some cell

@[simp] theorem nextCell_nil : nextCell [] = none := rfl

@[simp] theorem nextCell_cons (x : NodeId × Plan) (row : Row) :
    nextCell (x :: row) = some x.1 := rfl

/-- The positions of the cells of a chain, each with that of its element. -/
def links (row : Row) : List (NodeId × NodeId) := row.map fun x => (x.1, x.2.id)

mutual

/-- What an element says about the formula. -/
def shape : Plan → Shape
  | .literal _ text => .literal text
  | .empty _ => .empty
  | .group _ fence inner => .group fence (rowShapes inner)
  | .script _ marker operand => .script marker operand.shape
  | .command _ name parameters => .command name (shapes parameters)
  | .block _ name parameters body => .block name (shapes parameters) (rowShapes body)

/-- What some elements say about the formula. -/
def shapes : List Plan → List Shape
  | [] => []
  | p :: ps => p.shape :: shapes ps

/-- What the elements of a chain say about the formula. -/
def rowShapes : Row → List Shape
  | [] => []
  | (_, p) :: row => p.shape :: rowShapes row

end

mutual

/-- All positions of an element. -/
def ids : Plan → Multiset NodeId
  | .literal id _ => {id}
  | .empty id => {id}
  | .group id _ inner => {id} + rowIds inner
  | .script id _ operand => {id} + operand.ids
  | .command id _ parameters => {id} + idsOf parameters
  | .block id _ parameters body => {id} + (idsOf parameters + rowIds body)

/-- All positions of some elements. -/
def idsOf : List Plan → Multiset NodeId
  | [] => 0
  | p :: ps => p.ids + idsOf ps

/-- All positions of a chain. -/
def rowIds : Row → Multiset NodeId
  | [] => 0
  | (cell, p) :: row => {cell} + (p.ids + rowIds row)

end

/-- The positions of an element but for that of its own node. -/
def inside : Plan → Multiset NodeId
  | .literal .. | .empty _ => 0
  | .group _ _ inner => rowIds inner
  | .script _ _ operand => operand.ids
  | .command _ _ parameters => idsOf parameters
  | .block _ _ parameters body => idsOf parameters + rowIds body

mutual

/-- Whether the store follows a plan of an element that hangs under `up`. -/
def Fits (t : Tree) (up : Option NodeId) : Plan → Prop
  | .literal id text => t.look id = some (.literal text, up)
  | .empty id => t.look id = some (.empty, up)
  | .group id fence inner =>
    (∃ first, nextCell inner = some first ∧ t.look id = some (.group fence first, up)) ∧
      RowFits t (some id) inner
  | .script id marker operand =>
    t.look id = some (.script marker operand.id, up) ∧ Fits t (some id) operand
  | .command id name parameters =>
    t.look id = some (.command name (parameters.map Plan.id), up) ∧ AllFit t (some id) parameters
  | .block id name parameters body =>
    (∃ first, nextCell body = some first ∧
      t.look id = some (.block name (parameters.map Plan.id) first, up)) ∧
      AllFit t (some id) parameters ∧ RowFits t (some id) body

/-- Whether the store follows the plans of some elements that hang under `up`. -/
def AllFit (t : Tree) (up : Option NodeId) : List Plan → Prop
  | [] => True
  | p :: ps => Fits t up p ∧ AllFit t up ps

/-- Whether the store follows the plan of a chain whose first cell hangs under `up`. -/
def RowFits (t : Tree) (up : Option NodeId) : Row → Prop
  | [] => True
  | (cell, p) :: row =>
    t.look cell = some (.sequence p.id (nextCell row), up) ∧ Fits t (some cell) p ∧
      RowFits t (some cell) row

end

variable {t t' : Tree} {up up' : Option NodeId} {changed : Multiset NodeId}

/-! ## Parts of plans -/

-- As with canonical shapes, the equations are found once for all proofs below.
attribute [local simp] shape ids Fits

@[simp] theorem rowShapes_nil : rowShapes [] = [] := by rw [rowShapes]

@[simp] theorem rowShapes_cons (x : NodeId × Plan) (row : Row) :
    rowShapes (x :: row) = x.2.shape :: rowShapes row := by rw [rowShapes]

@[simp] theorem rowShapes_append (row row' : Row) :
    rowShapes (row ++ row') = rowShapes row ++ rowShapes row' := by
  induction row with
  | nil => simp
  | cons x row ih => simp [ih]

@[simp] theorem rowShapes_eq_nil_iff (row : Row) : rowShapes row = [] ↔ row = [] := by
  cases row <;> simp

@[simp] theorem shapes_nil : shapes [] = [] := by rw [shapes]

@[simp] theorem shapes_cons (p : Plan) (ps : List Plan) :
    shapes (p :: ps) = p.shape :: shapes ps := by rw [shapes]

@[simp] theorem shapes_append (ps qs : List Plan) : shapes (ps ++ qs) = shapes ps ++ shapes qs := by
  induction ps with
  | nil => simp
  | cons p ps ih => simp [ih]

theorem shapes_eq_map (ps : List Plan) : shapes ps = ps.map shape := by
  induction ps with
  | nil => rfl
  | cons p ps ih => rw [shapes_cons, ih, List.map_cons]

theorem rowShapes_eq_map (row : Row) : rowShapes row = row.map fun x => x.2.shape := by
  induction row with
  | nil => rfl
  | cons x row ih => rw [rowShapes_cons, ih, List.map_cons]

theorem rowShapes_eq_shapes (row : Row) : rowShapes row = shapes (row.map Prod.snd) := by
  rw [rowShapes_eq_map, shapes_eq_map, List.map_map]
  rfl

/-- A chain splits where its shapes do. -/
theorem exists_of_rowShapes_eq_append {gs : List Shape} (h : rowShapes row = fs ++ gs) :
    ∃ row₁ row₂, row = row₁ ++ row₂ ∧ rowShapes row₁ = fs ∧ rowShapes row₂ = gs := by
  simp only [rowShapes_eq_map] at h ⊢
  exact List.map_eq_append_iff.mp h

/-- A row with a first shape has a first cell. -/
theorem exists_of_rowShapes_eq_cons {f : Shape} (h : rowShapes row = f :: fs) :
    ∃ cell p rest, row = (cell, p) :: rest ∧ p.shape = f ∧ rowShapes rest = fs := by
  cases row with
  | nil => simp at h
  | cons x row =>
    rw [rowShapes_cons] at h
    exact ⟨x.1, x.2, row, rfl, (List.cons.inj h).1, (List.cons.inj h).2⟩

@[simp] theorem rowIds_nil : rowIds [] = 0 := by rw [rowIds]

@[simp] theorem rowIds_cons (x : NodeId × Plan) (row : Row) :
    rowIds (x :: row) = {x.1} + (x.2.ids + rowIds row) := by rw [rowIds]

@[simp] theorem rowIds_append (row row' : Row) :
    rowIds (row ++ row') = rowIds row + rowIds row' := by
  induction row with
  | nil => simp
  | cons x row ih => simp [ih, add_assoc]

@[simp] theorem idsOf_nil : idsOf [] = 0 := by rw [idsOf]

@[simp] theorem idsOf_cons (p : Plan) (ps : List Plan) : idsOf (p :: ps) = p.ids + idsOf ps := by
  rw [idsOf]

@[simp] theorem idsOf_append (ps qs : List Plan) : idsOf (ps ++ qs) = idsOf ps + idsOf qs := by
  induction ps with
  | nil => simp
  | cons p ps ih => simp [ih, add_assoc]

@[simp] theorem links_cons (x : NodeId × Plan) (row : Row) :
    links (x :: row) = (x.1, x.2.id) :: links row := rfl

@[simp] theorem links_append (row row' : Row) : links (row ++ row') = links row ++ links row' :=
  List.map_append

theorem nodup_cons_iff : ({i} + s).Nodup ↔ i ∉ s ∧ s.Nodup := by
  rw [Multiset.singleton_add, Multiset.nodup_cons]

/-- The positions of an element are its own and those inside. -/
theorem ids_eq (p : Plan) : p.ids = {p.id} + p.inside := by
  cases p <;> simp [ids, Plan.id, inside]

theorem id_mem_ids (p : Plan) : p.id ∈ p.ids := by
  rw [ids_eq]
  simp

/-- What is inside of an element is among its positions. -/
theorem inside_le (p : Plan) : p.inside ≤ p.ids := by
  rw [ids_eq]
  exact Multiset.le_add_left _ _

theorem exists_of_nextCell (h : nextCell row = some first) :
    ∃ p rest, row = (first, p) :: rest := by
  cases row with
  | nil => cases h
  | cons x rest =>
    obtain rfl := Option.some.inj h
    exact ⟨x.2, rest, rfl⟩

theorem nextCell_mem_rowIds (h : nextCell row = some first) : first ∈ rowIds row := by
  obtain ⟨p, rest, rfl⟩ := exists_of_nextCell h
  simp

theorem mem_idsOf_iff : i ∈ idsOf ps ↔ ∃ p ∈ ps, i ∈ p.ids := by
  induction ps with
  | nil => simp
  | cons p ps ih => simp [ih]

theorem cell_mem_rowIds (h : x ∈ row) : x.1 ∈ rowIds row := by
  obtain ⟨pre, post, rfl⟩ := List.append_of_mem h
  simp

theorem ids_le_rowIds (h : x ∈ row) : x.2.ids ≤ rowIds row := by
  obtain ⟨pre, post, rfl⟩ := List.append_of_mem h
  rw [rowIds_append, rowIds_cons]
  exact (Multiset.le_add_right _ _).trans ((Multiset.le_add_left _ _).trans
    (Multiset.le_add_left _ _))

theorem ids_le_idsOf (h : p ∈ ps) : p.ids ≤ idsOf ps := by
  obtain ⟨pre, post, rfl⟩ := List.append_of_mem h
  rw [idsOf_append, idsOf_cons]
  exact (Multiset.le_add_right _ _).trans (Multiset.le_add_left _ _)

/-! ## Fitting -/

@[simp] theorem rowFits_nil : RowFits t up [] := by simp [RowFits]

/-- A chain fits cell by cell. -/
theorem rowFits_cons :
    RowFits t up (x :: row) ↔
      t.look x.1 = some (.sequence x.2.id (nextCell row), up) ∧ x.2.Fits t (some x.1) ∧
        RowFits t (some x.1) row := by
  rw [RowFits]

/-- The same for a cell and an element that have names of their own. -/
theorem rowFits_pair :
    RowFits t up ((cell, p) :: row) ↔
      t.look cell = some (.sequence p.id (nextCell row), up) ∧ p.Fits t (some cell) ∧
        RowFits t (some cell) row :=
  rowFits_cons

@[simp] theorem allFit_nil : AllFit t up [] := by simp [AllFit]

@[simp] theorem allFit_cons : AllFit t up (p :: ps) ↔ p.Fits t up ∧ AllFit t up ps := by
  rw [AllFit]

theorem allFit_iff : AllFit t up ps ↔ ∀ p ∈ ps, p.Fits t up := by
  induction ps with
  | nil => simp
  | cons p ps ih => simp [ih]

/-- The node that an element stands for. -/
def top : Plan → Node
  | .literal _ text => .literal text
  | .empty _ => .empty
  | .group _ fence inner => .group fence ((nextCell inner).getD 0)
  | .script _ marker operand => .script marker operand.id
  | .command _ name parameters => .command name (parameters.map Plan.id)
  | .block _ name parameters body =>
    .block name (parameters.map Plan.id) ((nextCell body).getD 0)

end Plan

/-! ## Parts -/

open Plan

/-- A part of a formula in a store: an element, or a chain from one of its cells on. -/
inductive Part where
  | element (p : Plan)
  | chain (cell : NodeId) (p : Plan) (rest : Row)

namespace Part

/-- The position of a part. -/
def id : Part → NodeId
  | .element p => p.id
  | .chain cell _ _ => cell

/-- All positions of a part. -/
def ids : Part → Multiset NodeId
  | .element p => p.ids
  | .chain cell p rest => rowIds ((cell, p) :: rest)

/-- Whether the store follows a part that hangs under `up`. -/
def Fits (t : Tree) (up : Option NodeId) : Part → Prop
  | .element p => p.Fits t up
  | .chain cell p rest => RowFits t up ((cell, p) :: rest)

/-- Whether a part is a chain. -/
def isChain : Part → Bool
  | .element _ => false
  | .chain .. => true

/-- The chain of a row, if it has cells. -/
def ofRow : Row → List Part
  | [] => []
  | (cell, p) :: rest => [.chain cell p rest]

/-- The parts right under a part. -/
def children : Part → List Part
  | .element (.literal ..) | .element (.empty _) => []
  | .element (.group _ _ inner) => ofRow inner
  | .element (.script _ _ operand) => [.element operand]
  | .element (.command _ _ parameters) => parameters.map .element
  | .element (.block _ _ parameters body) => parameters.map .element ++ ofRow body
  | .chain _ p rest => .element p :: ofRow rest

/-- The node that a part stands for. -/
def node : Part → Node
  | .element p => p.top
  | .chain _ p rest => .sequence p.id (nextCell rest)

variable {t t' : Tree} {up up' : Option NodeId} {x y : Part} {xs : List Part} {i : NodeId}
  {row : Row} {ps : List Plan}

theorem ids_ofRow (row : Row) : ((ofRow row).map ids).sum = rowIds row := by
  cases row with
  | nil => simp [ofRow]
  | cons x row => simp [ofRow, ids]

theorem ids_elements (ps : List Plan) : ((ps.map element).map ids).sum = idsOf ps := by
  induction ps with
  | nil => rfl
  | cons p ps ih =>
    rw [List.map_cons, List.map_cons, List.sum_cons, ih, idsOf_cons]
    rfl

/-- The positions of a part are its own and those of the parts under it. -/
theorem ids_eq (x : Part) : x.ids = {x.id} + (x.children.map ids).sum := by
  cases x with
  | chain cell p rest =>
    rw [children, List.map_cons, List.sum_cons, ids_ofRow]
    exact rowIds_cons (cell, p) rest
  | element p =>
    cases p with
    | literal | empty | script => simp [ids, id, Plan.ids, children]
    | group n fence inner => rw [children, ids_ofRow, ids, Plan.ids, id, id_group]
    | command n name ps => rw [children, ids_elements, ids, Plan.ids, id, id_command]
    | block n name ps body =>
      rw [children, List.map_append, List.sum_append, ids_elements, ids_ofRow, ids, Plan.ids, id,
        id_block]

theorem id_mem_ids (x : Part) : x.id ∈ x.ids := by
  rw [ids_eq]
  simp

theorem ids_le_sum (h : y ∈ xs) : y.ids ≤ (xs.map ids).sum := by
  obtain ⟨before, after, rfl⟩ := List.append_of_mem h
  rw [List.map_append, List.map_cons, List.sum_append, List.sum_cons]
  exact (Multiset.le_add_right _ _).trans (Multiset.le_add_left _ _)

theorem mem_sum_iff : i ∈ (xs.map ids).sum ↔ ∃ x ∈ xs, i ∈ x.ids := by
  induction xs with
  | nil => simp
  | cons x xs ih => simp [ih]

/-- Positions of a child are positions of the part. -/
theorem mem_ids_of_child (hy : y ∈ x.children) (hi : i ∈ y.ids) : i ∈ x.ids := by
  rw [ids_eq, Multiset.mem_add]
  exact Or.inr (mem_sum_iff.mpr ⟨y, hy, hi⟩)

/-- Where no position occurs twice, that of a part is in none of the parts under it. -/
theorem nodup_ids_iff : x.ids.Nodup ↔ x.id ∉ (x.children.map ids).sum ∧
    (x.children.map ids).sum.Nodup := by
  rw [ids_eq, nodup_cons_iff]

/-- A child has fewer positions than the part. -/
theorem card_lt_of_mem_children (h : y ∈ x.children) : Multiset.card y.ids < Multiset.card x.ids := by
  rw [ids_eq x, Multiset.card_add, Multiset.card_singleton]
  have hle := Multiset.card_le_card (ids_le_sum h)
  omega

/-- What goes up from the parts right under a part holds of all parts. -/
@[elab_as_elim]
theorem induction {motive : Part → Prop}
    (step : ∀ x : Part, (∀ y ∈ x.children, motive y) → motive x) (x : Part) : motive x := by
  induction hcard : Multiset.card x.ids using Nat.strong_induction_on generalizing x with
  | _ n ih => exact step x fun y hy => ih _ (hcard ▸ card_lt_of_mem_children hy) y rfl

theorem ids_map_ofRow (row : Row) : (ofRow row).map id = (nextCell row).toList := by
  cases row <;> rfl

theorem ids_map_elements (ps : List Plan) : (ps.map element).map id = ps.map Plan.id := by
  rw [List.map_map]
  rfl

/-- A chain fits as a part just if it fits as a row. -/
theorem forall_ofRow : (∀ y ∈ ofRow row, y.Fits t up) ↔ RowFits t up row := by
  cases row <;> simp [ofRow, Fits]

theorem forall_elements : (∀ y ∈ ps.map element, y.Fits t up) ↔ AllFit t up ps := by
  simp [allFit_iff, Fits]

/-- A part fits if its node is there, has the right children and everything under it fits. -/
theorem fits_iff : x.Fits t up ↔ x.node.children = x.children.map id ∧
    t.look x.id = some (x.node, up) ∧ ∀ y ∈ x.children, y.Fits t (some x.id) := by
  cases x with
  | chain cell p rest =>
    rw [Fits, rowFits_pair, children, List.forall_mem_cons, forall_ofRow, List.map_cons,
      ids_map_ofRow]
    exact (and_iff_right rfl).symm
  | element p =>
    rw [Fits]
    cases p with
    | literal | empty => simp [Plan.Fits, children, node, top, Node.children, id]
    | group n fence inner =>
      rw [Plan.Fits, children, forall_ofRow, ids_map_ofRow, node, top]
      cases nextCell inner <;> simp [Node.children, id]
    | script n marker operand =>
      rw [Plan.Fits, children, List.forall_mem_singleton]
      exact (and_iff_right rfl).symm
    | command n name ps =>
      rw [Plan.Fits, children, forall_elements, ids_map_elements]
      exact (and_iff_right rfl).symm
    | block n name ps body =>
      rw [Plan.Fits, children, List.forall_mem_append, forall_elements, forall_ofRow,
        List.map_append, ids_map_elements, ids_map_ofRow, node, top]
      cases nextCell body <;> simp [Node.children, id]

theorem Fits.node_children (h : x.Fits t up) : x.node.children = x.children.map id :=
  (fits_iff.mp h).1

theorem Fits.look (h : x.Fits t up) : t.look x.id = some (x.node, up) := (fits_iff.mp h).2.1

theorem Fits.children (h : x.Fits t up) : ∀ y ∈ x.children, y.Fits t (some x.id) :=
  (fits_iff.mp h).2.2

theorem Fits.node (h : x.Fits t up) : t.node x.id = x.node := Tree.node_of_look h.look

theorem Fits.parent (h : x.Fits t up) : t.parent x.id = up := Tree.parent_of_look h.look

/-- Every position of a part was given out. -/
theorem Fits.lt_size (h : x.Fits t up) : ∀ i ∈ x.ids, i < t.size := by
  induction x using Part.induction generalizing up with
  | step x ih =>
    intro i hi
    rw [ids_eq, Multiset.mem_add, Multiset.mem_singleton] at hi
    rcases hi with rfl | hi
    · exact Tree.lt_of_look h.look
    · obtain ⟨y, hy, hi⟩ := mem_sum_iff.mp hi
      exact ih y hy (h.children y hy) i hi

/-- A part looks at its own positions only. -/
theorem Fits.congr (h : x.Fits t up) (heq : ∀ i ∈ x.ids, t'.look i = t.look i) :
    x.Fits t' up := by
  induction x using Part.induction generalizing up with
  | step x ih =>
    refine fits_iff.mpr ⟨h.node_children, (heq _ x.id_mem_ids).trans h.look, fun y hy => ?_⟩
    exact ih y hy (h.children y hy) fun i hi => heq i (mem_ids_of_child hy hi)

/-- A part is hung under something else by changing what is recorded at its own position. -/
theorem Fits.rehang (h : x.Fits t up) (hn : x.ids.Nodup)
    (hroot : ∀ node, t.look x.id = some (node, up) → t'.look x.id = some (node, up'))
    (hstays : ∀ i ∈ x.ids, i ≠ x.id → t'.look i = t.look i) : x.Fits t' up' := by
  refine fits_iff.mpr ⟨h.node_children, hroot _ h.look, fun y hy => ?_⟩
  refine (h.children y hy).congr fun i hi => hstays i (mem_ids_of_child hy hi) ?_
  rintro rfl
  exact (nodup_ids_iff.mp hn).1 (mem_sum_iff.mpr ⟨y, hy, hi⟩)

theorem ofRow_inj {row' : Row} : ofRow row = ofRow row' ↔ row = row' := by
  cases row <;> cases row' <;> simp [ofRow, Prod.ext_iff, and_assoc]

theorem elements_inj {qs : List Plan} : ps.map element = qs.map element ↔ ps = qs :=
  (List.map_injective_iff.mpr fun _ _ => Part.element.inj).eq_iff

/-- A part is what its node says, over the parts right under it. -/
theorem eq_of_node (hid : x.id = y.id) (hnode : x.node = y.node)
    (hchildren : x.children = y.children) : x = y := by
  rcases x with p | ⟨cell, p, rest⟩ <;> rcases y with q | ⟨cell', q, rest'⟩
  · cases p <;> cases q <;> simp_all [node, top, id, children, ofRow_inj, elements_inj]
    rename_i n name ps body n' name' qs body'
    have hlength := congrArg List.length hnode.2.1
    rw [List.length_map, List.length_map] at hlength
    obtain ⟨hps, hbody⟩ := List.append_inj hchildren (by simpa using hlength)
    exact ⟨elements_inj.mp hps, ofRow_inj.mp hbody⟩
  · cases p <;> cases hnode
  · cases q <;> cases hnode
  · simp_all [id, children, ofRow_inj]

/-- What is the same of parts at the same positions is the same of lists of them. -/
theorem map_eq_map {β : Type} {ys : List Part} {f g : Part → β} (hids : xs.map id = ys.map id)
    (h : ∀ x ∈ xs, ∀ y ∈ ys, x.id = y.id → f x = g y) : xs.map f = ys.map g := by
  induction xs generalizing ys with
  | nil => rw [List.map_eq_nil_iff.mp hids.symm, List.map_nil, List.map_nil]
  | cons x xs ih =>
    obtain ⟨y, ys, rfl, hid, htail⟩ := List.map_eq_cons_iff.mp hids.symm
    rw [List.forall_mem_cons] at h
    rw [List.map_cons, List.map_cons, h.1 y List.mem_cons_self hid.symm,
      ih htail.symm fun z hz w hw => h.2 z hz w (List.mem_cons_of_mem _ hw)]

/-- At a position the store follows at most one part. -/
theorem Fits.unique (hx : x.Fits t up) (hy : y.Fits t up') (hid : x.id = y.id) : x = y := by
  induction x using Part.induction generalizing y up up' with
  | step x ih =>
    have hnode : x.node = y.node := by rw [← hx.node, ← hy.node, hid]
    have hids : x.children.map id = y.children.map id := by
      rw [← hx.node_children, ← hy.node_children, hnode]
    have hsame : (x.children.map fun z => z) = y.children.map fun w => w :=
      map_eq_map hids fun z hz w hw heq => ih z hz (hx.children z hz) (hy.children w hw) heq
    rw [List.map_id', List.map_id'] at hsame
    exact eq_of_node hid hnode hsame

end Part

namespace Plan

variable {row : Row} {p : Plan} {ps : List Plan} {x : NodeId × Plan} {new : Multiset NodeId}
  {t t' : Tree} {up up' : Option NodeId} {changed : Multiset NodeId} {id : NodeId} {name : String}

theorem Fits.look (h : p.Fits t up) : t.look p.id = some (p.top, up) :=
  Part.Fits.look (x := .element p) h

theorem Fits.node (h : p.Fits t up) : t.node p.id = p.top :=
  Tree.node_of_look h.look

theorem Fits.parent (h : p.Fits t up) : t.parent p.id = up :=
  Tree.parent_of_look h.look

theorem Fits.of_group {fence : Fence} {inner : Row} (h : (group id fence inner).Fits t up) :
    RowFits t (some id) inner := by
  rw [Fits] at h
  exact h.2

theorem Fits.of_script {marker : Marker} {operand : Plan} (h : (script id marker operand).Fits t up) :
    operand.Fits t (some id) := by
  rw [Fits] at h
  exact h.2

theorem Fits.of_command (h : (command id name ps).Fits t up) : AllFit t (some id) ps := by
  rw [Fits] at h
  exact h.2

theorem Fits.of_block {body : Row} (h : (block id name ps body).Fits t up) :
    AllFit t (some id) ps ∧ RowFits t (some id) body := by
  rw [Fits] at h
  exact h.2

theorem RowFits.node (h : RowFits t up ((cell, p) :: row)) :
    t.node cell = .sequence p.id (nextCell row) :=
  Tree.node_of_look (rowFits_pair.mp h).1

/-- A chain that fits is a chain along its cells. -/
theorem RowFits.of_append {pre post : Row} (h : RowFits t up (pre ++ post)) :
    ∃ up', RowFits t up' post := by
  induction pre generalizing up with
  | nil => exact ⟨up, h⟩
  | cons x pre ih =>
    obtain ⟨cell, p⟩ := x
    rw [List.cons_append, rowFits_cons] at h
    exact ih h.2.2

/-- Everything that fits stands in the store. -/
theorem Fits.lt_size (h : p.Fits t up) : ∀ i ∈ p.ids, i < t.size :=
  Part.Fits.lt_size (x := .element p) h

theorem AllFit.lt_size (h : AllFit t up ps) : ∀ i ∈ idsOf ps, i < t.size := by
  intro i hi
  obtain ⟨p, hp, hi⟩ := mem_idsOf_iff.mp hi
  exact (allFit_iff.mp h p hp).lt_size i hi

theorem RowFits.lt_size (h : RowFits t up row) : ∀ i ∈ rowIds row, i < t.size := by
  cases row with
  | nil => simp
  | cons x row => exact Part.Fits.lt_size (x := .chain x.1 x.2 row) h

/-! ## Frames

A plan looks at its own positions only. -/

/-- What fits a store fits every store with the same nodes there. -/
theorem Fits.congr (h : p.Fits t up) (heq : ∀ i ∈ p.ids, t'.look i = t.look i) : p.Fits t' up :=
  Part.Fits.congr (x := .element p) h heq

theorem AllFit.congr (h : AllFit t up ps) (heq : ∀ i ∈ idsOf ps, t'.look i = t.look i) :
    AllFit t' up ps :=
  allFit_iff.mpr fun p hp => (allFit_iff.mp h p hp).congr fun i hi =>
    heq i (mem_idsOf_iff.mpr ⟨p, hp, hi⟩)

theorem RowFits.congr (h : RowFits t up row) (heq : ∀ i ∈ rowIds row, t'.look i = t.look i) :
    RowFits t' up row := by
  cases row with
  | nil => exact rowFits_nil
  | cons x row => exact Part.Fits.congr (x := .chain x.1 x.2 row) h heq

/-- What fits still does after a change elsewhere. -/
theorem Fits.of_keeps (h : p.Fits t up) (hk : t.Keeps t' changed) (hd : ∀ i ∈ p.ids, i ∉ changed) :
    p.Fits t' up :=
  h.congr fun i hi => hk.look_eq i (h.lt_size i hi) (hd i hi)

theorem AllFit.of_keeps (h : AllFit t up ps) (hk : t.Keeps t' changed)
    (hd : ∀ i ∈ idsOf ps, i ∉ changed) : AllFit t' up ps :=
  h.congr fun i hi => hk.look_eq i (h.lt_size i hi) (hd i hi)

theorem RowFits.of_keeps (h : RowFits t up row) (hk : t.Keeps t' changed)
    (hd : ∀ i ∈ rowIds row, i ∉ changed) : RowFits t' up row :=
  h.congr fun i hi => hk.look_eq i (h.lt_size i hi) (hd i hi)

theorem Fits.of_trades (h : p.Fits t up) (ht : t.Trades t' changed new)
    (hn : (changed + p.ids).Nodup) : p.Fits t' up :=
  h.of_keeps ht.keeps fun _ hi hmem =>
    Multiset.disjoint_left.mp (Multiset.nodup_add.mp hn).2.2 hmem hi

/-- A chain fits after a trade of other positions. -/
theorem RowFits.of_trades (h : RowFits t up row) (ht : t.Trades t' changed new)
    (hn : (changed + rowIds row).Nodup) : RowFits t' up row :=
  h.of_keeps ht.keeps fun _ hi hmem =>
    Multiset.disjoint_left.mp (Multiset.nodup_add.mp hn).2.2 hmem hi

/-- Plans that the store follows, wherever each of them hangs. -/
def Loose (t : Tree) (ps : List Plan) : Prop := ∀ p ∈ ps, ∃ up, p.Fits t up

theorem AllFit.loose (h : AllFit t up ps) : Loose t ps :=
  fun p hp => ⟨up, allFit_iff.mp h p hp⟩

theorem RowFits.loose (h : RowFits t up row) : Loose t (row.map Prod.snd) := by
  induction row generalizing up with
  | nil => simp [Loose]
  | cons x row ih =>
    obtain ⟨-, hp, hrow⟩ := rowFits_cons.mp h
    rw [List.map_cons]
    exact List.forall_mem_cons.mpr ⟨⟨_, hp⟩, ih hrow⟩

theorem Loose.tail (h : Loose t (p :: ps)) : Loose t ps :=
  fun q hq => h q (List.mem_cons_of_mem _ hq)

theorem Loose.lt_size (h : Loose t ps) : ∀ i ∈ idsOf ps, i < t.size := by
  intro i hi
  obtain ⟨p, hp, hi⟩ := mem_idsOf_iff.mp hi
  obtain ⟨up, hfits⟩ := h p hp
  exact hfits.lt_size i hi

/-- Loose elements stay so after a change elsewhere. -/
theorem Loose.of_keeps (h : Loose t ps) (hk : t.Keeps t' changed)
    (hd : ∀ i ∈ idsOf ps, i ∉ changed) : Loose t' ps := by
  intro p hp
  obtain ⟨up, hfits⟩ := h p hp
  exact ⟨up, hfits.of_keeps hk fun i hi => hd i (mem_idsOf_iff.mpr ⟨p, hp, hi⟩)⟩

theorem Loose.of_trades (h : Loose t ps) (ht : t.Trades t' changed new)
    (hn : (changed + idsOf ps).Nodup) : Loose t' ps :=
  h.of_keeps ht.keeps fun _ hi hmem =>
    Multiset.disjoint_left.mp (Multiset.nodup_add.mp hn).2.2 hmem hi

/-- An element is hung under something else by changing what is recorded at its own position. -/
theorem Fits.rehang (h : p.Fits t up) (hn : p.ids.Nodup)
    (hroot : ∀ node, t.look p.id = some (node, up) → t'.look p.id = some (node, up'))
    (hstays : ∀ i ∈ p.ids, i ≠ p.id → t'.look i = t.look i) : p.Fits t' up' :=
  Part.Fits.rehang (x := .element p) h hn hroot hstays

/-- A chain is hung under something else by changing what is recorded at its first cell. -/
theorem RowFits.rehang (h : RowFits t up row) (hn : (rowIds row).Nodup)
    (hroot : ∀ first node, nextCell row = some first → t.look first = some (node, up) →
      t'.look first = some (node, up'))
    (hstays : ∀ i ∈ rowIds row, nextCell row ≠ some i → t'.look i = t.look i) :
    RowFits t' up' row := by
  cases row with
  | nil => exact rowFits_nil
  | cons x row =>
    exact Part.Fits.rehang (x := .chain x.1 x.2 row) h hn (fun node => hroot x.1 node rfl)
      fun i hi hne => hstays i hi fun heq => hne (Option.some.inj heq).symm

/-- From a cell on the store follows at most one chain. -/
theorem RowFits.unique {row' : Row} (h : RowFits t up row) (h' : RowFits t up' row')
    (hnext : nextCell row = nextCell row') : row = row' := by
  cases row with
  | nil =>
    cases row' with
    | nil => rfl
    | cons y row' => cases hnext
  | cons x row =>
    cases row' with
    | nil => cases hnext
    | cons y row' =>
      have hsame := Part.Fits.unique (x := .chain x.1 x.2 row) (y := .chain y.1 y.2 row') h h'
        (Option.some.inj hnext)
      exact Part.ofRow_inj.mp (congrArg (fun z => [z]) hsame)

/-- A chain with cells hangs in one place. -/
theorem RowFits.up_eq (h : RowFits t up (x :: row)) (h' : RowFits t up' (x :: row)) : up = up' := by
  have hlook := (rowFits_cons.mp h).1
  rw [(rowFits_cons.mp h').1] at hlook
  exact (Prod.mk.inj (Option.some.inj hlook)).2.symm

/-! ## Room

Positions that do not repeat are at most as many as the store has. -/

theorem card_le_of_lt {n : Nat} (hs : s.Nodup) (h : ∀ i ∈ s, i < n) : Multiset.card s ≤ n := by
  have hsub : (⟨s, hs⟩ : Finset NodeId) ⊆ Finset.range n := by
    intro i hi
    exact Finset.mem_range.mpr (h i hi)
  simpa using Finset.card_le_card hsub

/-- A chain has at most as many positions as the store. -/
theorem RowFits.card_le (h : RowFits t up row) (hn : (rowIds row).Nodup) :
    Multiset.card (rowIds row) ≤ t.size :=
  card_le_of_lt hn h.lt_size

theorem Fits.card_le (h : p.Fits t up) (hn : p.ids.Nodup) : Multiset.card p.ids ≤ t.size :=
  card_le_of_lt hn h.lt_size

end Plan

/-- The tree is properly linked, without sharing, and has the given elements. -/
def Tree.Depicts (t : Tree) (fs : List Shape) : Prop :=
  ∃ row, Plan.nextCell row = some t.root ∧ Plan.RowFits t none row ∧ (Plan.rowIds row).Nodup ∧
    Plan.rowShapes row = fs

/-- A tree has its elements and no others. -/
theorem Tree.Depicts.unique {t : Tree} {gs : List Shape} (h : t.Depicts fs) (h' : t.Depicts gs) :
    fs = gs := by
  obtain ⟨row, hfirst, hfits, -, rfl⟩ := h
  obtain ⟨row', hfirst', hfits', -, rfl⟩ := h'
  rw [hfits.unique hfits' (hfirst.trans hfirst'.symm)]

end Formulary
