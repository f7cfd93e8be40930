import Formulary.Proofs.Footprint

/-!
# What was left behind

A store holds more than its formulas: cells that were pulled away, commands that became a block, and
whatever was cut out. Nobody looks after these nodes any more, and they may share what hangs under
them with a formula. But they can be copied like any other, so something has to be true of them too:
`Tree.Grounded` says that all children in the store are proper and that no path comes back.

Every change of the store is a change of one node, and it is harmless if none of the new children
reaches that node (`Grounded.change`). Where a child comes from below the node, as in most of
surgery, this is so because no path came back before.
-/

namespace Formulary

namespace Tree

variable {node : Node} {span : Span} {cell head old new child i j : NodeId} {tail : Option NodeId}
  {t t' : Tree} {id : NodeId} {r : Except SurgeryError NodeId}

/-- All children in the store are proper, and no path comes back to where it started. -/
structure Grounded (t : Tree) : Prop where
  lt_size : ∀ i, ∀ child ∈ (t.node i).children, child < t.size
  proper : ∀ i, t.ProperChildren (t.node i)
  acyclic : ∀ i path, t.follow i path = some i → path = []

namespace Grounded

variable {id : NodeId}

/-- A child of what a node reaches does not reach the node. -/
theorem not_reaches_of_below {up : NodeId} (h : t.Grounded) (hup : t.Reaches id up)
    (hchild : child ∈ (t.node up).children) : ¬t.Reaches child id := by
  obtain ⟨path, hpath⟩ := hup
  obtain ⟨k, hk⟩ := List.getElem?_of_mem hchild
  rintro ⟨path', hback⟩
  have hround := h.acyclic id (path ++ k :: path') (by
    rw [follow_append, hpath, Option.bind_some, follow, hk, Option.bind_some, hback])
  cases path <;> cases hround

theorem not_reaches_of_child (h : t.Grounded) (hchild : child ∈ (t.node id).children) :
    ¬t.Reaches child id :=
  h.not_reaches_of_below (Reaches.refl id) hchild

theorem lt_size_of_reaches (h : t.Grounded) (hid : id < t.size) (hi : t.Reaches id i) :
    i < t.size := by
  rcases hi.cases with rfl | ⟨up, -, hmem⟩
  · exact hid
  · exact h.lt_size up i hmem

theorem ends (h : t.Grounded) (hid : id < t.size) : t.Ends t.size id where
  length_lt _ _ hpath :=
    length_lt_of_acyclic (fun _ => h.lt_size_of_reaches hid) (fun i path _ => h.acyclic i path) hpath
  proper i _ := h.proper i

end Grounded

/-! ## Changing one node -/

section

variable {place i : NodeId}

/-- Paths up to the node that changed are as before. -/
theorem reaches_place (hnode : ∀ j, j ≠ place → t'.node j = t.node j) (h : t'.Reaches i place) :
    t.Reaches i place := by
  obtain ⟨path, hpath⟩ := h
  induction path generalizing i with
  | nil =>
    obtain rfl := Option.some.inj hpath
    exact Reaches.refl i
  | cons k path ih =>
    by_cases hi : i = place
    · rw [hi]
      exact Reaches.refl place
    · rw [follow, hnode i hi] at hpath
      obtain ⟨child, hk, hpath⟩ := Option.bind_eq_some_iff.mp hpath
      exact (reaches_child (List.mem_of_getElem? hk)).trans (ih hpath)

/-- Paths that do not pass the node that changed are as before. -/
theorem follow_of_not_reaches (hnode : ∀ j, j ≠ place → t'.node j = t.node j)
    (hi : ¬t.Reaches i place) (path : List Nat) : t'.follow i path = t.follow i path := by
  induction path generalizing i with
  | nil => rfl
  | cons k path ih =>
    have hne : i ≠ place := by
      rintro rfl
      exact hi (Reaches.refl i)
    rw [follow, follow, hnode i hne]
    rcases hk : (t.node i).children[k]? with _ | child
    · rfl
    · exact ih fun hchild => hi ((reaches_child (List.mem_of_getElem? hk)).trans hchild)

theorem reaches_of_not_reaches (hnode : ∀ j, j ≠ place → t'.node j = t.node j)
    (hi : ¬t.Reaches i place) (h : t'.Reaches i j) : t.Reaches i j := by
  obtain ⟨path, hpath⟩ := h
  exact ⟨path, by rw [← follow_of_not_reaches hnode hi, hpath]⟩

/-- A path is as before, or it passes the node that changed. -/
theorem follow_cases (hnode : ∀ j, j ≠ place → t'.node j = t.node j) {path : List Nat}
    (h : t'.follow i path = some j) :
    t.follow i path = some j ∨ ∃ path₁ path₂, path = path₁ ++ path₂ ∧
      t'.follow i path₁ = some place ∧ t'.follow place path₂ = some j := by
  induction path generalizing i with
  | nil => exact Or.inl h
  | cons k path ih =>
    by_cases hi : i = place
    · rw [hi] at h ⊢
      exact Or.inr ⟨[], k :: path, rfl, rfl, h⟩
    · rw [follow, hnode i hi] at h
      obtain ⟨child, hk, hpath⟩ := Option.bind_eq_some_iff.mp h
      rcases ih hpath with hsame | ⟨path₁, path₂, rfl, hto, hfrom⟩
      · left
        rw [follow, hk, Option.bind_some, hsame]
      · refine Or.inr ⟨k :: path₁, path₂, rfl, ?_, hfrom⟩
        rw [follow, hnode i hi, hk, Option.bind_some, hto]

/-- One node may change, or be new, if none of its children reaches it. -/
theorem Grounded.change (h : t.Grounded) (place : NodeId) (hsize : t.size ≤ t'.size)
    (hnode : ∀ j, j ≠ place → t'.node j = t.node j)
    (hsequence : ∀ j < t.size, t'.isSequence j = t.isSequence j)
    (hproper : t'.ProperChildren (t'.node place))
    (hlt : ∀ child ∈ (t'.node place).children, child < t'.size)
    (hback : ∀ child ∈ (t'.node place).children, ¬t.Reaches child place) : t'.Grounded where
  lt_size i child hchild := by
    by_cases hi : i = place
    · exact hlt child (hi ▸ hchild)
    · rw [hnode i hi] at hchild
      exact (h.lt_size i child hchild).trans_le hsize
  proper i := by
    by_cases hi : i = place
    · rw [hi]
      exact hproper
    · rw [hnode i hi]
      exact (h.proper i).of_isSequence fun j hj => hsequence j (h.lt_size i j hj)
  acyclic i path hpath := by
    have hplace : ∀ path, t'.follow place path = some place → path = [] := by
      intro path hpath
      cases path with
      | nil => rfl
      | cons k path =>
        rw [follow] at hpath
        obtain ⟨child, hk, hpath⟩ := Option.bind_eq_some_iff.mp hpath
        exact absurd (reaches_place hnode ⟨path, hpath⟩) (hback child (List.mem_of_getElem? hk))
    rcases follow_cases hnode hpath with hpath | ⟨path₁, path₂, rfl, hto, hfrom⟩
    · exact h.acyclic i path hpath
    · have hround := hplace (path₂ ++ path₁) (by rw [follow_append, hfrom, Option.bind_some, hto])
      rw [List.append_eq_nil_iff] at hround
      rw [hround.1, hround.2]
      rfl

theorem Grounded.of_node_eq (h : t.Grounded) (hsize : t'.size = t.size)
    (hnode : ∀ j, t'.node j = t.node j) : t'.Grounded := by
  have hout : t.node t.size = .empty := by
    rw [node_eq_look, look_eq_none_iff.mpr (Nat.le_refl _)]
    rfl
  refine h.change t.size hsize.ge (fun j _ => hnode j)
    (fun j _ => by rw [isSequence, hnode, isSequence]) ?_ ?_ ?_
  · rw [hnode, hout]
    trivial
  · rw [hnode, hout]
    simp [Node.children]
  · rw [hnode, hout]
    simp [Node.children]

theorem Grounded.of_sameLinks (h : t.Grounded) (hsame : t.SameLinks t') : t'.Grounded where
  lt_size i child hchild := by
    rw [hsame.children_eq] at hchild
    exact (h.lt_size i child hchild).trans_le hsame.size_le
  proper i := hsame.proper (h.proper i)
  acyclic i path hpath := by
    rw [hsame.follow_eq] at hpath
    exact h.acyclic i path hpath

end

/-! ## Primitives -/

theorem node_adopt (parent : NodeId) (children : List NodeId) (j : NodeId) :
    (t.adopt parent children).node j = t.node j := by
  induction children generalizing t with
  | nil => rfl
  | cons child children ih => rw [adopt_cons, ih, node_setParent]

theorem isSequence_setParent (i j : NodeId) (up : Option NodeId) :
    (t.setParent i up).isSequence j = t.isSequence j := by
  rw [isSequence, node_setParent, isSequence]

theorem Grounded.setParent (h : t.Grounded) (i : NodeId) (up : Option NodeId) :
    (t.setParent i up).Grounded :=
  h.of_node_eq (size_setParent i) (node_setParent i)

theorem node_grown (j : NodeId) (hj : j ≠ t.size) : (t.grown node span).node j = t.node j := by
  rw [grown, run_alloc, node_adopt, Tree.node, Tree.node, slot, slot, Array.getD_eq_getD_getElem?,
    Array.getD_eq_getD_getElem?, Array.getElem?_push,
    if_neg (show j ≠ t.slots.size from hj)]

theorem node_grown_size : (t.grown node span).node t.size = node := by
  rw [grown, run_alloc, node_adopt, Tree.node, slot, Array.getD_eq_getD_getElem?,
    Array.getElem?_push, if_pos (show t.size = t.slots.size from rfl)]
  rfl

/-- The next free position is reached from nowhere. -/
theorem Grounded.not_reaches_size (h : t.Grounded) (hi : i < t.size) :
    ¬t.Reaches i t.size := fun hreach => Nat.lt_irrefl _ (h.lt_size_of_reaches hi hreach)

theorem Grounded.grown (h : t.Grounded) (hproper : t.ProperChildren node)
    (hlt : ∀ child ∈ node.children, child < t.size) (span : Span) :
    (t.grown node span).Grounded := by
  have hsequence : ∀ j < t.size, (t.grown node span).isSequence j = t.isSequence j := by
    intro j hj
    rw [isSequence, node_grown j (Nat.ne_of_lt hj), isSequence]
  refine h.change t.size (by simp) node_grown hsequence ?_ ?_ ?_
  · rw [node_grown_size]
    exact hproper.of_isSequence fun i hi => hsequence i (hlt i hi)
  · rw [node_grown_size, size_grown]
    exact fun child hchild => Nat.lt_succ_of_lt (hlt child hchild)
  · rw [node_grown_size]
    exact fun child hchild => h.not_reaches_size (hlt child hchild)

/-- A cell may get another element and another next cell, if neither reaches it. -/
theorem Grounded.relink (h : t.Grounded) (hsize : t'.size = t.size)
    (hnode : ∀ j, j ≠ cell → t'.node j = t.node j) (hcell : t'.node cell = .sequence head tail)
    (hsequence : t.isSequence cell = true) (hproper : t.ProperChildren (.sequence head tail))
    (hlt : head < t.size) (hback : ∀ child ∈ head :: tail.toList, ¬t.Reaches child cell) :
    t'.Grounded := by
  have hsame : ∀ j, t'.isSequence j = t.isSequence j := by
    intro j
    by_cases hj : j = cell
    · rw [hj, hsequence, isSequence, hcell]
      rfl
    · rw [isSequence, hnode j hj, isSequence]
  refine h.change cell hsize.ge hnode (fun j _ => hsame j) ?_ ?_ ?_
  · rw [hcell]
    exact hproper.of_isSequence fun i _ => hsame i
  · rw [hcell, hsize]
    intro child hchild
    rcases List.mem_cons.mp hchild with rfl | hchild
    · exact hlt
    · exact lt_size_of_isSequence (hproper.2 child (Option.mem_toList.mp hchild))
  · rw [hcell]
    exact hback

theorem node_setCell (h : t.isSequence cell = true) (j : NodeId) :
    (t.setCell cell head tail).node j = if cell = j then .sequence head tail else t.node j := by
  rw [setCell, node_adopt, node_setNode (lt_size_of_isSequence h)]

theorem Grounded.setCell (h : t.Grounded) (hsequence : t.isSequence cell = true)
    (hproper : t.ProperChildren (.sequence head tail)) (hlt : head < t.size)
    (hback : ∀ child ∈ head :: tail.toList, ¬t.Reaches child cell) :
    (t.setCell cell head tail).Grounded := by
  refine h.relink (size_setCell _ _ _) (fun j hj => ?_) ?_ hsequence hproper hlt hback
  · rw [node_setCell hsequence, if_neg (Ne.symm hj)]
  · rw [node_setCell hsequence, if_pos rfl]

theorem node_setTail {old : Option NodeId} (h : t.node cell = .sequence head old) (j : NodeId) :
    (t.setTail cell tail).node j = if cell = j then .sequence head tail else t.node j := by
  have hlt := lt_size_of_isSequence (isSequence_of_head (head_of_node h))
  simp only [setTail, h]
  rw [node_adopt, node_setNode hlt]

theorem Grounded.setTail {old : Option NodeId} (h : t.Grounded)
    (hcell : t.node cell = .sequence head old) (htail : ∀ next ∈ tail, t.isSequence next = true)
    (hback : ∀ next ∈ tail, ¬t.Reaches next cell) : (t.setTail cell tail).Grounded := by
  have hsequence := isSequence_of_head (head_of_node hcell)
  have hmem : head ∈ (t.node cell).children := by
    rw [hcell]
    exact List.mem_cons_self
  have hproper := h.proper cell
  rw [hcell] at hproper
  refine h.relink (size_setTail _ _) (fun j hj => ?_) ?_ hsequence ⟨hproper.1, htail⟩
    (h.lt_size cell head hmem) fun child hchild => ?_
  · rw [node_setTail hcell, if_neg (Ne.symm hj)]
  · rw [node_setTail hcell, if_pos rfl]
  · rcases List.mem_cons.mp hchild with rfl | hchild
    · exact h.not_reaches_of_child hmem
    · exact hback child (Option.mem_toList.mp hchild)

/-! ## Surgery -/

/-- A new cell reaches no old one but through its element and its next cell. -/
theorem Grounded.not_reaches_grown (h : t.Grounded) (hlt : ∀ child ∈ node.children, child < t.size)
    (hcell : cell < t.size) (hback : ∀ child ∈ node.children, ¬t.Reaches child cell) :
    ¬(t.grown node span).Reaches t.size cell := by
  rintro ⟨path, hpath⟩
  cases path with
  | nil => exact Nat.ne_of_gt hcell (Option.some.inj hpath)
  | cons k path =>
    rw [follow, node_grown_size] at hpath
    obtain ⟨child, hk, hpath⟩ := Option.bind_eq_some_iff.mp hpath
    have hmem := List.mem_of_getElem? hk
    exact hback child hmem
      (reaches_of_not_reaches node_grown (h.not_reaches_size (hlt child hmem)) ⟨path, hpath⟩)

/-- The next cell of a cell is pulled into it. -/
theorem Grounded.pull {next : NodeId} (h : t.Grounded)
    (hnode : t.node cell = .sequence old (some next)) (hnext : t.node next = .sequence new tail) :
    (t.setCell cell new tail).Grounded := by
  have hmem : next ∈ (t.node cell).children := by
    rw [hnode]
    simp [Node.children]
  have hchildren : ∀ child ∈ new :: tail.toList, child ∈ (t.node next).children := by
    rw [hnext]
    exact fun child hchild => hchild
  have hproper := h.proper next
  rw [hnext] at hproper
  exact h.setCell (isSequence_of_head (head_of_node hnode)) hproper
    (h.lt_size next new (hchildren new List.mem_cons_self)) fun child hchild =>
      h.not_reaches_of_below (reaches_child hmem) (hchildren child hchild)

/-- A cell gets an empty element and no next cell. -/
theorem Grounded.clear (h : t.Grounded) (hcell : t.isSequence cell = true) (span : Span) :
    ((t.grown .empty span).setCell cell t.size none).Grounded := by
  have hlt := lt_size_of_isSequence hcell
  have hproper : t.ProperChildren .empty := trivial
  have hgrown := h.grown hproper (by simp [Node.children]) span
  refine hgrown.setCell ?_ ⟨?_, by simp⟩ (by simp) fun child hchild => ?_
  · rw [isSequence, node_grown cell (Nat.ne_of_lt hlt)]
    exact hcell
  · rw [isSequence, node_grown_size]
    rfl
  · rw [List.mem_singleton.mp hchild]
    exact h.not_reaches_grown (by simp [Node.children]) hlt (by simp [Node.children])

theorem Grounded.delete (h : t.Grounded) (hrun : (delete id).run.run t = (r, t')) :
    t'.Grounded := by
  cases deletion_of_run hrun with
  | misused => exact h
  | broken hcell hnode hnext => exact h.setParent _ none
  | last hcell hnode =>
    rename_i cell old
    have hsequence := isSequence_of_owningCell hcell
    rw [← isSequence_setParent old cell none] at hsequence
    have hclear := (h.setParent old none).clear hsequence ((t.span cell).take 0)
    rwa [size_setParent] at hclear
  | pulled hcell hnode hnext =>
    rename_i cell old next new tail
    exact ((h.setParent old none).pull (by rw [node_setParent, hnode])
      (by rw [node_setParent, hnext])).setParent next none

/-- An element comes into a new cell after a cell. -/
theorem Grounded.putAfter {node : NodeId} (h : t.Grounded)
    (hcell : t.node cell = .sequence head tail) (hnode : t.isSequence node = false)
    (hlt : node < t.size) (hback : ¬t.Reaches node cell) (span : Span) :
    ((t.grown (.sequence node tail) span).setTail cell (some t.size)).Grounded := by
  have hproper := h.proper cell
  rw [hcell] at hproper
  have hsequence := isSequence_of_head (head_of_node hcell)
  have hmem : ∀ next ∈ tail, next ∈ (t.node cell).children := by
    intro next hnext
    rw [hcell]
    exact List.mem_cons_of_mem _ (Option.mem_toList.mpr hnext)
  have hlt' : ∀ child ∈ (Node.sequence node tail).children, child < t.size := by
    intro child hchild
    rcases List.mem_cons.mp hchild with rfl | hchild
    · exact hlt
    · exact h.lt_size cell child (hmem child (Option.mem_toList.mp hchild))
  have hproper' : t.ProperChildren (.sequence node tail) := ⟨hnode, hproper.2⟩
  have hcell' : (t.grown (.sequence node tail) span).node cell = .sequence head tail := by
    rw [node_grown cell (Nat.ne_of_lt (lt_size_of_isSequence hsequence)), hcell]
  refine (h.grown hproper' hlt' span).setTail hcell' ?_ ?_
  · intro next hnext
    rw [← Option.some.inj hnext, isSequence, node_grown_size]
    rfl
  · intro next hnext
    rw [← Option.some.inj hnext]
    refine h.not_reaches_grown hlt' (lt_size_of_isSequence hsequence) fun child hchild => ?_
    rcases List.mem_cons.mp hchild with rfl | hchild
    · exact hback
    · exact h.not_reaches_of_child (hmem child (Option.mem_toList.mp hchild))

theorem Grounded.insertAfter {node : NodeId} (h : t.Grounded) (hlt : node < t.size)
    (hback : ¬t.Reaches node cell) (hrun : (insertAfter cell node).run.run t = (r, t')) :
    t'.Grounded := by
  rcases insertAfter_cases hrun with ⟨-, rfl⟩ | ⟨-, hcell, hnode, rfl⟩
  · exact h
  · obtain ⟨head, tail, hsequence⟩ := exists_of_isSequence hcell
    rw [tail_of_node hsequence]
    exact h.putAfter hsequence hnode hlt hback _

theorem Grounded.insertBefore {node : NodeId} (h : t.Grounded) (hlt : node < t.size)
    (hback : ¬t.Reaches node cell) (hrun : (insertBefore cell node).run.run t = (r, t')) :
    t'.Grounded := by
  rcases insertBefore_cases hrun with ⟨-, rfl⟩ | ⟨head, tail, -, hcell, hnode, rfl⟩
  · exact h
  · have hsequence := isSequence_of_head (head_of_node hcell)
    have hchildren : (Node.sequence head tail).children = (t.node cell).children := by rw [hcell]
    have hproper := h.proper cell
    rw [hcell] at hproper
    have hlt' : ∀ child ∈ (Node.sequence head tail).children, child < t.size := by
      rw [hchildren]
      exact h.lt_size cell
    have hold : ∀ j, j ≠ t.size →
        (t.grown (.sequence head tail) (t.span cell)).node j = t.node j := node_grown
    refine (h.grown hproper hlt' (t.span cell)).setCell ?_ ⟨?_, ?_⟩ ?_ fun child hchild => ?_
    · rw [isSequence, hold cell (Nat.ne_of_lt (lt_size_of_isSequence hsequence))]
      exact hsequence
    · rw [isSequence, hold node (Nat.ne_of_lt hlt)]
      exact hnode
    · intro next hnext
      rw [← Option.some.inj hnext, isSequence, node_grown_size]
      rfl
    · rw [size_grown]
      exact Nat.lt_succ_of_lt hlt
    · rcases List.mem_cons.mp hchild with rfl | hchild
      · exact fun hreach => hback (reaches_of_not_reaches hold (h.not_reaches_size hlt) hreach)
      · rw [List.mem_singleton.mp hchild]
        refine h.not_reaches_grown hlt' (lt_size_of_isSequence hsequence) ?_
        rw [hchildren]
        exact fun child => h.not_reaches_of_child

/-- The cells of a chain are cells, and reached from its first. -/
theorem reaches_of_mem_cells {limit : NodeId} {x : NodeId × NodeId} (h : x ∈ t.cellsUpTo limit id) :
    t.Reaches id x.1 ∧ t.isSequence x.1 = true := by
  induction limit generalizing id with
  | zero => cases h
  | succ limit ih =>
    cases hnode : t.node id with
    | literal | empty | group | script | command | block =>
      rw [cellsUpTo, hnode] at h
      cases h
    | sequence head tail =>
      have hsequence := isSequence_of_head (head_of_node hnode)
      cases tail with
      | none =>
        rw [cellsUpTo, hnode] at h
        rw [List.mem_singleton.mp h]
        exact ⟨Reaches.refl id, hsequence⟩
      | some next =>
        rw [cellsUpTo, hnode] at h
        rcases List.mem_cons.mp h with rfl | h
        · exact ⟨Reaches.refl id, hsequence⟩
        · have hnext : next ∈ (t.node id).children := by
            rw [hnode]
            simp [Node.children]
          exact ⟨(reaches_child hnext).trans (ih h).1, (ih h).2⟩

theorem reaches_lastCell (h : t.isSequence id = true) :
    t.Reaches id (t.lastCell id) ∧ t.isSequence (t.lastCell id) = true := by
  rw [lastCell]
  cases hlast : (t.cells id).getLast? with
  | none => exact ⟨Reaches.refl id, h⟩
  | some x => exact reaches_of_mem_cells (List.mem_of_getLast? hlast)

section

variable {cell chain old new : NodeId} {tail tail' : Option NodeId}

/-- A cell gets the element of another, and the cells after that one. -/
theorem Grounded.overwrite (h : t.Grounded) (hcell : t.isSequence cell = true)
    (hchain : t.node chain = .sequence new tail') (hback : ¬t.Reaches chain cell) :
    (t.setCell cell new tail').Grounded := by
  have hmem : ∀ child ∈ new :: tail'.toList, child ∈ (t.node chain).children := by
    rw [hchain]
    exact fun child hchild => hchild
  have hproper := h.proper chain
  rw [hchain] at hproper
  exact h.setCell hcell hproper (h.lt_size chain new (hmem new List.mem_cons_self))
    fun child hchild hreach => hback ((reaches_child (hmem child hchild)).trans hreach)

/-- What came after the cell comes after the last of its new cells. -/
theorem Grounded.append {next last : NodeId} (h : t.Grounded)
    (hcell : t.node cell = .sequence old (some next)) (hchain : t.node chain = .sequence new tail')
    (hlast : t.Reaches chain last) (hsequence : t.isSequence last = true)
    (hapart : ∀ i, t.Reaches chain i → ¬t.Reaches cell i) :
    ((t.setCell cell new tail').setTail (if last = chain then cell else last)
      (some next)).Grounded := by
  have hcell' := isSequence_of_head (head_of_node hcell)
  have hback : ¬t.Reaches chain cell := fun hreach => hapart cell hreach (Reaches.refl cell)
  have hset := h.overwrite hcell' hchain hback
  have hnode : ∀ j, j ≠ cell → (t.setCell cell new tail').node j = t.node j := by
    intro j hj
    rw [node_setCell hcell', if_neg (Ne.symm hj)]
  have hmem : next ∈ (t.node cell).children := by
    rw [hcell]
    simp [Node.children]
  have hproper := h.proper cell
  rw [hcell] at hproper
  have hnext : ∀ i ∈ some next, (t.setCell cell new tail').isSequence i = true := by
    intro i hi
    have hne : i ≠ cell := by
      rintro rfl
      exact h.not_reaches_of_child hmem (Option.some.inj hi ▸ Reaches.refl _)
    rw [isSequence, hnode i hne]
    exact hproper.2 i hi
  -- The next cell does not reach the old one, so it reaches what it did.
  have hreach : ∀ {i}, (t.setCell cell new tail').Reaches next i → t.Reaches next i :=
    reaches_of_not_reaches hnode (h.not_reaches_of_child hmem)
  split
  · refine hset.setTail (by rw [node_setCell hcell', if_pos rfl]) hnext fun i hi hback => ?_
    obtain rfl := Option.some.inj hi
    exact h.not_reaches_of_child hmem (hreach hback)
  · obtain ⟨head, tail, hnode'⟩ := exists_of_isSequence hsequence
    have hne : last ≠ cell := by
      rintro rfl
      exact hback hlast
    refine hset.setTail ((hnode last hne).trans hnode') hnext fun i hi hback => ?_
    obtain rfl := Option.some.inj hi
    exact hapart last hlast ((reaches_child hmem).trans (hreach hback))

theorem reaches_setParent {k : NodeId} {up : Option NodeId} :
    (t.setParent k up).Reaches i j ↔ t.Reaches i j := by
  have hfollow : ∀ i path, (t.setParent k up).follow i path = t.follow i path := by
    intro i path
    induction path generalizing i with
    | nil => rfl
    | cons k path ih => simp only [follow, node_setParent, ih]
  simp only [Reaches, hfollow]

/-- A chain may come into the place of a cell that shares nothing with it. -/
theorem Grounded.replaceCell {r : Except SurgeryError Unit} (h : t.Grounded)
    (hcell : t.isSequence cell = true) (hchain : t.isSequence chain = true)
    (hapart : ∀ i, t.Reaches chain i → ¬t.Reaches cell i)
    (hrun : (replaceCell cell chain).run.run t = (r, t')) : t'.Grounded := by
  obtain ⟨old, tail, hnode⟩ := exists_of_isSequence hcell
  obtain ⟨new, tail', hnode'⟩ := exists_of_isSequence hchain
  obtain ⟨hlast, hsequence⟩ := reaches_lastCell hchain
  have hloose := h.setParent old none
  have hnew : (t.setParent old none).node chain = .sequence new tail' := by
    rw [node_setParent, hnode']
  rcases replaceCell_cases hnode hnode' hrun with ⟨-, rfl⟩ | ⟨next, rfl, rfl⟩
  · refine hloose.overwrite ((isSequence_setParent _ _ _).trans hcell) hnew ?_
    rw [reaches_setParent]
    exact fun hreach => hapart cell hreach (Reaches.refl cell)
  · refine hloose.append (by rw [node_setParent, hnode]) hnew ?_
      ((isSequence_setParent _ _ _).trans hsequence) ?_
    · rwa [reaches_setParent]
    · simpa only [reaches_setParent] using hapart

end

/-- An element in the place of another of the same kind keeps the children proper. -/
theorem ProperChildren.swap (h : t.ProperChildren node) (hold : t.isSequence old = false)
    (hnew : t.isSequence new = false) :
    t.ProperChildren (node.swap old new) := by
  have hswap : ∀ i, t.isSequence (if i = old then new else i) = t.isSequence i := by
    intro i
    split
    · rename_i heq
      rw [heq, hold, hnew]
    · rfl
  cases node with
  | literal | empty => trivial
  | sequence head tail => exact ⟨(hswap head).trans h.1, h.2⟩
  | group fence inner => exact (hswap inner).trans h
  | script marker operand => exact (hswap operand).trans h
  | command name parameters =>
    intro p hp
    obtain ⟨i, hi, rfl⟩ := List.mem_map.mp hp
    exact (hswap i).trans (h i hi)
  | block name parameters body =>
    refine ⟨fun p hp => ?_, (hswap body).trans h.2⟩
    obtain ⟨i, hi, rfl⟩ := List.mem_map.mp hp
    exact (hswap i).trans (h.1 i hi)

theorem mem_children_swap (h : child ∈ (node.swap old new).children) :
    child = new ∨ child ∈ node.children := by
  have hswap : ∀ i ∈ node.children, child = (if i = old then new else i) →
      child = new ∨ child ∈ node.children := by
    intro i hi heq
    split at heq
    · exact Or.inl heq
    · exact Or.inr (heq ▸ hi)
  cases node with
  | literal | empty => cases h
  | sequence head tail =>
    rcases List.mem_cons.mp h with h | h
    · exact hswap head List.mem_cons_self h
    · exact Or.inr (List.mem_cons_of_mem _ h)
  | group _ inner | script _ inner =>
    exact hswap inner List.mem_cons_self (List.mem_singleton.mp h)
  | command name parameters =>
    obtain ⟨i, hi, heq⟩ := List.mem_map.mp h
    exact hswap i hi heq.symm
  | block name parameters body =>
    rcases List.mem_append.mp h with h | h
    · obtain ⟨i, hi, heq⟩ := List.mem_map.mp h
      exact hswap i (List.mem_append_left _ hi) heq.symm
    · exact hswap body (List.mem_append_right _ List.mem_cons_self) (List.mem_singleton.mp h)

theorem Grounded.replaceElement {r : Except SurgeryError Unit} (h : t.Grounded)
    (hold : t.isSequence old = false) (hnew : t.isSequence new = false) (hlt : new < t.size)
    (hparent : ∀ parent, t.parent old = some parent → parent < t.size ∧ ¬t.Reaches new parent)
    (hrun : (replaceElement old new).run.run t = (r, t')) : t'.Grounded := by
  rcases replaceElement_cases hrun with ⟨-, rfl⟩ | ⟨parent, hup, rfl⟩
  · exact h
  · obtain ⟨hin, hback⟩ := hparent parent hup
    have hsame := fun j hj => (alters_redirect parent old new).isSequence_eq (t := t) (i := j) hj
    refine Grounded.setParent (Grounded.setParent ?_ _ _) _ _
    rcases t.redirect_eq parent old new with ⟨heq, -⟩ | heq
    · rw [heq]
      exact h
    · rw [heq] at hsame ⊢
      have hnode : (t.setNode parent ((t.node parent).swap old new)).node parent =
          (t.node parent).swap old new := by
        rw [node_setNode hin, if_pos rfl]
      refine h.change parent (by simp) (fun j hj => ?_) hsame ?_ ?_ ?_
      · rw [node_setNode hin, if_neg (Ne.symm hj)]
      · rw [hnode]
        refine ((h.proper parent).swap hold hnew).of_isSequence fun i hi => hsame i ?_
        rcases mem_children_swap hi with rfl | hi
        · exact hlt
        · exact h.lt_size parent i hi
      · rw [hnode, size_setNode]
        intro child hchild
        rcases mem_children_swap hchild with rfl | hchild
        · exact hlt
        · exact h.lt_size parent child hchild
      · rw [hnode]
        intro child hchild
        rcases mem_children_swap hchild with rfl | hchild
        · exact hback
        · exact h.not_reaches_of_child hchild

end Tree

end Formulary
