import Formulary.Proofs.Plan
import Formulary.Tree.Printer
import Formulary.Tree.Visit

/-!
# What is seen of a tree

The readers of a tree go down from a node with a bound on how far. On a store that follows a plan
the bound never shows, and each of them answers what can be read off the plan: the cells of a chain
(`RowFits.cells`), the text of a node (`Fits.nodeText`), and the nodes that a visit shows, in its
order and with their depths (`descends_visitBelow`). They all go down in the same way (`Descends`).
What is collected in a visit is gathered from the elements that it shows (`Gathers`).
-/

namespace Formulary

namespace Plan

variable {row : Row} {first cell : NodeId} {p : Plan} {t : Tree} {up : Option NodeId}

/-! ## Chains -/

theorem length_le_card (row : Row) : row.length ≤ Multiset.card (rowIds row) := by
  induction row with
  | nil => simp
  | cons x row ih =>
    rw [rowIds_cons, Multiset.card_add, Multiset.card_add, Multiset.card_singleton,
      List.length_cons]
    omega

theorem RowFits.cellsUpTo {limit : NodeId} (h : RowFits t up row)
    (hfirst : nextCell row = some first) (hlimit : row.length ≤ limit) :
    t.cellsUpTo limit first = links row := by
  induction row generalizing up first limit with
  | nil => cases hfirst
  | cons x row ih =>
    obtain rfl := Option.some.inj hfirst
    obtain ⟨hlook, -, hrow⟩ := rowFits_cons.mp h
    cases limit with
    | zero => simp at hlimit
    | succ limit =>
      rw [Tree.cellsUpTo, Tree.node_of_look hlook]
      cases row with
      | nil => rfl
      | cons y row => simp [ih hrow rfl (Nat.le_of_succ_le_succ hlimit)]

/-- The cells of a chain are those of its plan. -/
theorem RowFits.cells (h : RowFits t up row) (hn : (rowIds row).Nodup)
    (hfirst : nextCell row = some first) : t.cells first = links row :=
  h.cellsUpTo hfirst ((length_le_card row).trans (h.card_le hn))

theorem RowFits.elements (h : RowFits t up row) (hn : (rowIds row).Nodup)
    (hfirst : nextCell row = some first) :
    t.elements first = row.map fun x => x.2.id := by
  rw [Tree.elements, h.cells hn hfirst, links, List.map_map]
  rfl

/-- The node of an element is no cell. -/
theorem Fits.isSequence (h : p.Fits t up) : t.isSequence p.id = false := by
  rw [Tree.isSequence, h.node]
  cases p <;> rfl

theorem Fits.elements (h : p.Fits t up) : t.elements p.id = [] := by
  have hcells : ∀ limit, t.cellsUpTo limit p.id = [] := by
    intro limit
    cases limit with
    | zero => rfl
    | succ limit =>
      rw [Tree.cellsUpTo, h.node]
      cases p <;> rfl
  rw [Tree.elements, Tree.cells, hcells]
  rfl

theorem RowFits.isSequence (h : RowFits t up ((cell, p) :: row)) : t.isSequence cell = true := by
  simp [Tree.isSequence, h.node, Node.isSequence]

theorem RowFits.isSequence_first (h : RowFits t up row) (hfirst : nextCell row = some first) :
    t.isSequence first = true := by
  obtain ⟨p, rest, rfl⟩ := exists_of_nextCell hfirst
  exact h.isSequence

theorem RowFits.head (h : RowFits t up ((cell, p) :: row)) : t.head cell = some p.id := by
  simp [Tree.head, h.node]

theorem RowFits.tail (h : RowFits t up ((cell, p) :: row)) : t.tail cell = nextCell row := by
  simp [Tree.tail, h.node]

/-- The cell of an element of a chain. -/
theorem RowFits.owningCell (h : RowFits t up ((cell, p) :: row)) :
    t.owningCell p.id = some cell := by
  have hp := (rowFits_cons.mp h).2.1
  simp [Tree.owningCell, hp.isSequence, hp.parent, h.head]

theorem RowFits.owningCell_cell (h : RowFits t up ((cell, p) :: row)) :
    t.owningCell cell = some cell := by
  rw [Tree.owningCell, if_pos h.isSequence]

theorem Fits.operand {id : NodeId} {marker : Marker} {operand : Plan}
    (h : (script id marker operand).Fits t up) : t.operand id = some operand.id := by
  rw [Fits] at h
  rw [Tree.operand, Tree.node_of_look h.1]

/-- What is under a position that is no cell is in no cell. -/
theorem Fits.owningCell_alone {n : NodeId} (h : p.Fits t (some n)) (hn : t.isSequence n = false) :
    t.owningCell p.id = none := by
  have hhead : t.head n = none := by
    rw [Tree.isSequence] at hn
    rw [Tree.head]
    cases hnode : t.node n <;> simp_all [Node.isSequence]
  simp [Tree.owningCell, h.isSequence, h.parent, hhead]

/-- No cell holds an operand. -/
theorem Fits.owningCell_operand {id : NodeId} {marker : Marker} {operand : Plan}
    (h : (script id marker operand).Fits t up) : t.owningCell operand.id = none :=
  h.of_script.owningCell_alone h.isSequence

/-- The only element of a group. -/
theorem Fits.soleElement (h : p.Fits t up) (fence : Fence) :
    (t.soleElement fence p.id = none ∧ p.shape.soleElement fence = none) ∨
      ∃ n cell q, p = .group n fence [(cell, q)] ∧ t.soleElement fence p.id = some q.id ∧
        p.shape.soleElement fence = some q.shape := by
  have hnode := h.node
  cases p with
  | literal | empty | script | command | block =>
    simp only [Tree.soleElement, hnode, top]
    simp [shape, Shape.soleElement]
  | group n found inner =>
    rw [Fits] at h
    obtain ⟨⟨first, hfirst, hlook⟩, hinner⟩ := h
    obtain ⟨q, rest, rfl⟩ := exists_of_nextCell hfirst
    have hcell := hinner.node
    by_cases hfence : found = fence
    · cases rest with
      | nil =>
        subst hfence
        right
        refine ⟨n, first, q, rfl, ?_, ?_⟩
        · simp [Tree.soleElement, Tree.node_of_look hlook, Tree.singleHead, hcell]
        · simp [shape, Shape.soleElement]
      | cons y rest =>
        left
        simp [Tree.soleElement, Tree.node_of_look hlook, Tree.singleHead, hcell, shape,
          Shape.soleElement]
    · left
      constructor
      · simp [Tree.soleElement, Tree.node_of_look hlook, hfence]
      · rw [shape]
        unfold Shape.soleElement
        split
        · rename_i heq
          obtain ⟨rfl, -⟩ := Shape.group.inj heq
          rw [if_neg hfence]
        · rfl

/-- The node of an element is a literal when the element is. -/
theorem Fits.literal? (h : p.Fits t up) :
    (t.node p.id).literal? = match p.shape with
      | .literal text => some text
      | _ => none := by
  rw [h.node]
  cases p <;> simp [top, Node.literal?, shape]

theorem Fits.soleText (h : p.Fits t up) (fence : Fence) :
    t.soleText fence p.id = p.shape.soleText fence := by
  rw [Tree.soleText, Shape.soleText]
  rcases h.soleElement fence with ⟨htree, hshape⟩ | ⟨n, cell, q, rfl, htree, hshape⟩
  · rw [htree, hshape]
    rfl
  · rw [Fits] at h
    have hq := (rowFits_pair.mp h.2).2.1
    rw [htree, hshape, Option.bind_some, hq.literal?]
    split <;> simp_all

end Plan

/-! ## What parts say -/

/-- What a node says over what is said under it. -/
def Node.shapesOver (under : List Shape) : Node → List Shape
  | .literal text => [.literal text]
  | .empty => [.empty]
  | .sequence .. => under
  | .group fence _ => [.group fence under]
  | .script marker _ => under.map (.script marker)
  | .command name _ => [.command name under]
  | .block name parameters _ =>
    [.block name (under.take parameters.length) (under.drop parameters.length)]

namespace Part

open Plan

/-- The elements that a part says. -/
def shapes : Part → List Shape
  | .element p => [p.shape]
  | .chain _ p rest => p.shape :: rowShapes rest

theorem shapes_ofRow (row : Row) : (ofRow row).flatMap shapes = rowShapes row := by
  cases row with
  | nil => simp [ofRow]
  | cons x row => simp [ofRow, shapes]

theorem shapes_elements (ps : List Plan) : (ps.map element).flatMap shapes = Plan.shapes ps := by
  rw [List.flatMap_map, shapes_eq_map]
  exact List.flatMap_pure_eq_map ..

/-- A part says what its node does, over what the parts under it say. -/
theorem shapes_eq (x : Part) : x.shapes = x.node.shapesOver (x.children.flatMap shapes) := by
  cases x with
  | chain cell p rest =>
    rw [children, List.flatMap_cons, shapes_ofRow]
    rfl
  | element p =>
    cases p with
    | literal | empty | script => simp [shapes, shape, node, top, Node.shapesOver, children]
    | group n fence inner =>
      rw [children, shapes_ofRow, shapes, shape]
      rfl
    | command n name ps =>
      rw [children, shapes_elements, shapes, shape]
      rfl
    | block n name ps body =>
      rw [children, List.flatMap_append, shapes_elements, shapes_ofRow, shapes, shape]
      simp [node, top, Node.shapesOver, shapes_eq_map]

end Part

namespace Plan

variable {row : Row} {first cell : NodeId} {p : Plan} {t : Tree} {up : Option NodeId}

/-! ## Going down -/

/-- What is told of elements, of parameters and of chains by telling it of what is below them first.
Each of them takes one step of the bound. -/
structure Descends (t : Tree) (P : Nat → Plan → Prop) (Q : Nat → List Plan → Prop)
    (R : Nat → NodeId → Row → Prop) : Prop where
  literal : ∀ n id text, t.node id = .literal text → P (n + 1) (.literal id text)
  empty : ∀ n id, t.node id = .empty → P (n + 1) (.empty id)
  group : ∀ n id fence inner first, t.node id = .group fence first → nextCell inner = some first →
    R n first inner → P (n + 1) (.group id fence inner)
  script : ∀ n id marker operand, t.node id = .script marker operand.id → P n operand →
    P (n + 1) (.script id marker operand)
  command : ∀ n id name ps, t.node id = .command name (ps.map Plan.id) → Q n ps →
    P (n + 1) (.command id name ps)
  block : ∀ n id name ps body first, t.node id = .block name (ps.map Plan.id) first →
    nextCell body = some first → Q n ps → R n first body → P (n + 1) (.block id name ps body)
  nil : ∀ n, Q n []
  cons : ∀ n p ps, P n p → Q n ps → Q n (p :: ps)
  last : ∀ n cell p, t.node cell = .sequence p.id none → P n p → R (n + 1) cell [(cell, p)]
  next : ∀ n cell p cell' q row, t.node cell = .sequence p.id (some cell') → P n p →
    R n cell' ((cell', q) :: row) → R (n + 1) cell ((cell, p) :: (cell', q) :: row)

section

variable {P : Nat → Plan → Prop} {Q : Nat → List Plan → Prop} {R : Nat → NodeId → Row → Prop}

mutual

/-- A bound as large as the number of positions is enough. -/
theorem Descends.element (hd : Descends t P Q R) : ∀ {p : Plan} {up : Option NodeId} {n : Nat},
    p.Fits t up → Multiset.card p.ids ≤ n → P n p
  | p, _, 0, _, hcard => by
    rw [ids_eq, Multiset.card_add, Multiset.card_singleton] at hcard
    omega
  | .literal id text, _, n + 1, h, _ => hd.literal n id text h.node
  | .empty id, _, n + 1, h, _ => hd.empty n id h.node
  | .group id fence inner, _, n + 1, h, hcard => by
    rw [Fits] at h
    obtain ⟨⟨first, hfirst, hlook⟩, hrow⟩ := h
    rw [ids, Multiset.card_add, Multiset.card_singleton] at hcard
    exact hd.group n id fence inner first (Tree.node_of_look hlook) hfirst
      (hd.chain hrow hfirst (by omega))
  | .script id marker operand, _, n + 1, h, hcard => by
    rw [ids, Multiset.card_add, Multiset.card_singleton] at hcard
    have hnode := h.node
    rw [Fits] at h
    exact hd.script n id marker operand hnode (hd.element h.2 (by omega))
  | .command id name ps, _, n + 1, h, hcard => by
    rw [ids, Multiset.card_add, Multiset.card_singleton] at hcard
    have hnode := h.node
    rw [Fits] at h
    exact hd.command n id name ps hnode (hd.all h.2 (by omega))
  | .block id name ps body, _, n + 1, h, hcard => by
    rw [Fits] at h
    obtain ⟨⟨first, hfirst, hlook⟩, hall, hrow⟩ := h
    rw [ids, Multiset.card_add, Multiset.card_add, Multiset.card_singleton] at hcard
    exact hd.block n id name ps body first (Tree.node_of_look hlook) hfirst
      (hd.all hall (by omega)) (hd.chain hrow hfirst (by omega))

theorem Descends.all (hd : Descends t P Q R) : ∀ {ps : List Plan} {up : Option NodeId} {n : Nat},
    AllFit t up ps → Multiset.card (idsOf ps) ≤ n → Q n ps
  | [], _, n, _, _ => hd.nil n
  | p :: ps, _, n, h, hcard => by
    rw [allFit_cons] at h
    rw [idsOf_cons, Multiset.card_add] at hcard
    exact hd.cons n p ps (hd.element h.1 (by omega)) (hd.all h.2 (by omega))

/-- What holds on the way down holds of a chain. -/
theorem Descends.chain (hd : Descends t P Q R) : ∀ {row : Row} {up : Option NodeId} {first : NodeId}
    {n : Nat}, RowFits t up row → nextCell row = some first → Multiset.card (rowIds row) ≤ n →
    R n first row
  | [], _, _, _, _, hfirst, _ => by cases hfirst
  | x :: row, _, _, 0, _, _, hcard => by
    rw [rowIds_cons, Multiset.card_add, Multiset.card_singleton] at hcard
    omega
  | (cell, p) :: row, _, _, n + 1, h, hfirst, hcard => by
    obtain rfl := Option.some.inj hfirst
    obtain ⟨hlook, hp, hrow⟩ := rowFits_pair.mp h
    simp only [rowIds_cons, Multiset.card_add, Multiset.card_singleton] at hcard
    have helement := hd.element hp (n := n) (by omega)
    match row with
    | [] => exact hd.last n cell p (Tree.node_of_look hlook) helement
    | (cell', q) :: row =>
      exact hd.next n cell p cell' q row (Tree.node_of_look hlook) helement
        (hd.chain hrow rfl (by omega))

end

end

/-! ## Text -/

theorem descends_textUpTo (t : Tree) : Descends t
    (fun n p => (t.textUpTo n p.id).toList = p.shape.chars)
    (fun n ps => (ps.map fun p => t.textUpTo n p.id).flatMap String.toList =
      Shape.charsOf (shapes ps))
    (fun n first row => (t.textUpTo n first).toList = Shape.charsOf (rowShapes row)) where
  literal n id text hnode := by simp [Tree.textUpTo, hnode, shape, Shape.chars]
  empty n id hnode := by simp [Tree.textUpTo, hnode, shape, Shape.chars]
  group n id fence inner first hnode hfirst ih := by
    simp [Tree.textUpTo, hnode, shape, Shape.chars, ih, Symbol.text]
  script n id marker operand hnode ih := by
    simp [Tree.textUpTo, hnode, shape, Shape.chars, ih, Symbol.text, Marker.char]
  command n id name ps hnode ih := by
    simp [Tree.textUpTo, hnode, shape, Shape.chars, ← ih, Symbol.char, Function.comp_def]
  block n id name ps body first hnode hfirst ih ih' := by
    simp [Tree.textUpTo, hnode, shape, Shape.chars, ← ih, ih', Shape.delimiterChars,
      Delimiting.command, Fence.opening, Fence.closing, Symbol.char, Function.comp_def]
  nil n := rfl
  cons n p ps ih ih' := by
    rw [List.map_cons, List.flatMap_cons, ih, ih', shapes_cons, Shape.charsOf_cons]
  last n cell p hnode ih := by simp [Tree.textUpTo, hnode, ih]
  next n cell p cell' q row hnode ih ih' := by simp [Tree.textUpTo, hnode, ih, ih']

/-- The text of a node is that of its element. -/
theorem Fits.nodeText (h : p.Fits t up) (hn : p.ids.Nodup) :
    (t.nodeText p.id).toList = p.shape.chars :=
  (descends_textUpTo t).element h (h.card_le hn)

theorem RowFits.nodeText (h : RowFits t up row) (hn : (rowIds row).Nodup)
    (hfirst : nextCell row = some first) :
    (t.nodeText first).toList = Shape.charsOf (rowShapes row) :=
  (descends_textUpTo t).chain h hfirst (h.card_le hn)

end Plan

/-- The text of a tree is that of its elements. -/
theorem Tree.Depicts.text {t : Tree} {fs : List Shape} (h : t.Depicts fs) :
    t.text.toList = Shape.charsOf fs := by
  obtain ⟨row, hfirst, hfits, hn, rfl⟩ := h
  exact hfits.nodeText hn hfirst

namespace Plan

variable {t : Tree} {up : Option NodeId}

/-! ## Visits -/

mutual

/-- What a visit shows below an element that is at a depth. -/
def visits (depth : Nat) : Plan → List (Nat × NodeId)
  | .literal .. | .empty _ => []
  | .group _ _ inner => ((nextCell inner).toList.map ((depth + 1), ·)) ++ rowVisits (depth + 1) inner
  | .script _ _ operand => (depth, operand.id) :: visits depth operand
  | .command _ _ parameters => visitsOf (depth + 1) parameters
  | .block _ _ parameters body =>
    visitsOf depth parameters ++ (((nextCell body).toList.map (depth, ·)) ++ rowVisits depth body)

/-- What a visit shows of some elements that are at a depth. -/
def visitsOf (depth : Nat) : List Plan → List (Nat × NodeId)
  | [] => []
  | p :: ps => (depth, p.id) :: (visits depth p ++ visitsOf depth ps)

/-- What a visit shows below the first cell of a chain that is at a depth. -/
def rowVisits (depth : Nat) : Row → List (Nat × NodeId)
  | [] => []
  | (_, p) :: row => (depth, p.id) :: (visits depth p ++ rowVisits depth row)

end

theorem descends_visitBelow {m : Type → Type} [Monad m] [LawfulMonad m] (t : Tree)
    (enter : Nat → NodeId → m Unit) : Descends t
    (fun n p => ∀ d, t.visitBelow enter n d p.id = forM (visits d p) fun x => enter x.1 x.2)
    (fun n ps => ∀ d, (forM ps fun p => do
      enter d p.id
      t.visitBelow enter n d p.id) = forM (visitsOf d ps) fun x => enter x.1 x.2)
    (fun n first row => ∀ d,
      t.visitBelow enter n d first = forM (rowVisits d row) fun x => enter x.1 x.2) where
  literal n id text hnode d := by simp [Tree.visitBelow, hnode, visits]
  empty n id hnode d := by simp [Tree.visitBelow, hnode, visits]
  group n id fence inner first hnode hfirst ih d := by
    simp [Tree.visitBelow, hnode, visits, hfirst, ih]
  script n id marker operand hnode ih d := by simp [Tree.visitBelow, hnode, visits, ih]
  command n id name ps hnode ih d := by simp [Tree.visitBelow, hnode, visits, ih]
  block n id name ps body first hnode hfirst ih ih' d := by
    simp [Tree.visitBelow, hnode, visits, hfirst, ih, ih']
  nil n d := by simp [visitsOf]
  cons n p ps ih ih' d := by simp [visitsOf, ih, ih']
  last n cell p hnode ih d := by simp [Tree.visitBelow, hnode, ih, rowVisits]
  next n cell p cell' q row hnode ih ih' d := by simp [Tree.visitBelow, hnode, ih, ih', rowVisits]

mutual

/-- A visit shows no position more often than the plan has it. -/
theorem visits_le : ∀ (d : Nat) (p : Plan),
    (↑(p.id :: (visits d p).map Prod.snd) : Multiset NodeId) ≤ p.ids
  | _, .literal .. | _, .empty _ => by simp [visits, ids]
  | d, .group _ _ inner => by
    rw [visits, ids, ← Multiset.cons_coe, ← Multiset.singleton_add, id_group]
    exact add_le_add le_rfl (by simpa using rowVisits_le (d + 1) inner)
  | d, .script _ _ operand => by
    rw [visits, ids, ← Multiset.cons_coe, ← Multiset.singleton_add]
    exact add_le_add le_rfl (visits_le d operand)
  | d, .command _ _ parameters => by
    rw [visits, ids, ← Multiset.cons_coe, ← Multiset.singleton_add]
    exact add_le_add le_rfl (visitsOf_le (d + 1) parameters)
  | d, .block _ _ parameters body => by
    rw [visits, ids, ← Multiset.cons_coe, ← Multiset.singleton_add, List.map_append,
      ← Multiset.coe_add]
    exact add_le_add le_rfl
      (add_le_add (visitsOf_le d parameters) (by simpa using rowVisits_le d body))

theorem visitsOf_le : ∀ (d : Nat) (ps : List Plan),
    (↑((visitsOf d ps).map Prod.snd) : Multiset NodeId) ≤ idsOf ps
  | _, [] => by simp [visitsOf]
  | d, p :: ps => by
    rw [visitsOf, idsOf_cons, List.map_cons, List.map_append, ← List.cons_append,
      ← Multiset.coe_add]
    exact add_le_add (visits_le d p) (visitsOf_le d ps)

theorem rowVisits_le : ∀ (d : Nat) (row : Row),
    (↑((nextCell row).toList ++ (rowVisits d row).map Prod.snd) : Multiset NodeId) ≤ rowIds row
  | _, [] => by simp [rowVisits]
  | d, (cell, p) :: row => by
    have hrow := (Multiset.coe_le.mpr (List.sublist_append_right _ _).subperm).trans
      (rowVisits_le d row)
    rw [rowVisits, rowIds_cons, List.map_cons, List.map_append, ← List.cons_append,
      ← Multiset.coe_add, ← Multiset.coe_add]
    exact add_le_add le_rfl (add_le_add (visits_le d p) hrow)

end

theorem nodup_rowVisits {row : Row} (hn : (rowIds row).Nodup) (d : Nat) :
    ((nextCell row).toList ++ (rowVisits d row).map Prod.snd).Nodup :=
  Multiset.coe_nodup.mp (Multiset.nodup_of_le (rowVisits_le d row) hn)

/-! ## Gathering -/

section

variable {α : Type} (own : Plan → List α)

mutual

/-- What the elements below an element give, in the order of a visit. -/
def gather : Plan → List α
  | .literal .. | .empty _ => []
  | .group _ _ inner => gatherRow inner
  | .script _ _ operand => own operand ++ gather operand
  | .command _ _ parameters => gatherAll parameters
  | .block _ _ parameters body => gatherAll parameters ++ gatherRow body

/-- What some elements give and those below them. -/
def gatherAll : List Plan → List α
  | [] => []
  | p :: ps => own p ++ (gather p ++ gatherAll ps)

/-- What the elements of a chain give and those below them. -/
def gatherRow : Row → List α
  | [] => []
  | (_, p) :: row => own p ++ (gather p ++ gatherRow row)

end

@[simp] theorem gatherAll_nil : gatherAll own [] = [] := by rw [gatherAll]

@[simp] theorem gatherAll_cons (p : Plan) (ps : List Plan) :
    gatherAll own (p :: ps) = own p ++ (gather own p ++ gatherAll own ps) := by
  rw [gatherAll]

@[simp] theorem gatherAll_append (ps qs : List Plan) :
    gatherAll own (ps ++ qs) = gatherAll own ps ++ gatherAll own qs := by
  induction ps with
  | nil => simp
  | cons p ps ih => simp [ih]

@[simp] theorem gatherRow_nil : gatherRow own [] = [] := by rw [gatherRow]

@[simp] theorem gatherRow_cons (x : NodeId × Plan) (row : Row) :
    gatherRow own (x :: row) = own x.2 ++ (gather own x.2 ++ gatherRow own row) := by
  rw [gatherRow]

theorem gatherRow_eq (row : Row) : gatherRow own row = gatherAll own (row.map Prod.snd) := by
  induction row with
  | nil => simp
  | cons x row ih => rw [gatherRow_cons, List.map_cons, gatherAll_cons, ih]

@[simp] theorem gatherRow_append (row row' : Row) :
    gatherRow own (row ++ row') = gatherRow own row ++ gatherRow own row' := by
  simp [gatherRow_eq]

end

/-- A relation between visits and what is gathered in them, which goes from the elements and cells
that are shown to the whole. -/
structure Gathers {α : Type} (t : Tree) (own : Plan → List α)
    (R : List (Nat × NodeId) → List α → Prop) : Prop where
  nil : R [] []
  append : ∀ {xs ys as bs}, R xs as → R ys bs → R (xs ++ ys) (as ++ bs)
  element : ∀ {p : Plan} {up : Option NodeId} (d : Nat), p.Fits t up → R [(d, p.id)] (own p)
  cell : ∀ {cell : NodeId} (d : Nat), t.isSequence cell = true → R [(d, cell)] []

section

variable {α : Type} {own : Plan → List α} {R : List (Nat × NodeId) → List α → Prop}
  {xs : List (Nat × NodeId)} {as : List α} {row : Row}

/-- The first cell of a chain is shown and gives nothing. -/
theorem Gathers.first (hg : Gathers t own R) (h : RowFits t up row) (d : Nat) (hrow : R xs as) :
    R ((nextCell row).toList.map (d, ·) ++ xs) as := by
  cases row with
  | nil => exact hrow
  | cons x row => exact hg.append (hg.cell d h.isSequence) hrow

mutual

theorem Gathers.below (hg : Gathers t own R) : ∀ {p : Plan} {up : Option NodeId} {d : Nat},
    p.Fits t up → R (visits d p) (gather own p)
  | .literal .., _, _, _ | .empty _, _, _, _ => hg.nil
  | .group _ _ inner, _, d, h => by
    rw [Fits] at h
    rw [visits, gather]
    exact hg.first h.2 _ (hg.chain h.2)
  | .script _ _ operand, _, d, h => by
    rw [Fits] at h
    rw [visits, gather]
    exact hg.append (hg.element d h.2) (hg.below h.2)
  | .command _ _ parameters, _, d, h => by
    rw [Fits] at h
    rw [visits, gather]
    exact hg.all h.2
  | .block _ _ parameters body, _, d, h => by
    rw [Fits] at h
    rw [visits, gather]
    exact hg.append (hg.all h.2.1) (hg.first h.2.2 _ (hg.chain h.2.2))

theorem Gathers.all (hg : Gathers t own R) : ∀ {ps : List Plan} {up : Option NodeId} {d : Nat},
    AllFit t up ps → R (visitsOf d ps) (gatherAll own ps)
  | [], _, _, _ => by
    rw [visitsOf, gatherAll]
    exact hg.nil
  | p :: ps, _, d, h => by
    rw [allFit_cons] at h
    rw [visitsOf, gatherAll]
    exact hg.append (hg.element d h.1) (hg.append (hg.below h.1) (hg.all h.2))

/-- What is gathered from a chain. -/
theorem Gathers.chain (hg : Gathers t own R) : ∀ {row : Row} {up : Option NodeId} {d : Nat},
    RowFits t up row → R (rowVisits d row) (gatherRow own row)
  | [], _, _, _ => by
    rw [rowVisits, gatherRow]
    exact hg.nil
  | (cell, p) :: row, _, d, h => by
    obtain ⟨-, hp, hrow⟩ := rowFits_pair.mp h
    rw [rowVisits, gatherRow]
    exact hg.append (hg.element d hp) (hg.append (hg.below hp) (hg.chain hrow))

end

end

end Plan

end Formulary
