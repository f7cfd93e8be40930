import Formulary.Tree.Surgery
import Mathlib.Data.Multiset.AddSub
import Mathlib.Data.Multiset.UnionInter

/-!
# Reading the store after a change

What can be told of a position of the store, spans aside, is `Tree.look`: nothing for a position
that was never given out, and otherwise the node there and what it hangs under. Every change of a
tree is described here by what `look` answers afterwards, so that later proofs never open the
array of slots again.

* `look_setNode`, `look_setParent`, `look_adopt`, `look_setCell`, `look_setTail`: the changes in
  place, position by position.
* `look_grown`: growth gives out the next position and touches nothing but what the new node adopts.
* `Tree.Keeps`: all positions outside a set read as before. Such statements compose, and they are
  all that a proof about one part of a formula needs to know of work done on another part.
* `Tree.Trades`: such a change together with the positions that are in use afterwards. It does not
  mind what else is there (`Trades.frame`).
-/

namespace Formulary.Tree

/-! ## Looking -/

/-- The node at a position and what it hangs under, if the position was given out. -/
def look (t : Tree) (id : NodeId) : Option (Node × Option NodeId) :=
  t.slots[id]?.map fun slot => (slot.node, slot.parent)

variable {t t' : Tree} {id : NodeId} {node : Node} {up : Option NodeId}

theorem lt_of_look (h : t.look id = some (node, up)) : id < t.size := by
  obtain ⟨slot, hslot, -⟩ := Option.map_eq_some_iff.mp h
  exact (Array.getElem?_eq_some_iff.mp hslot).1

/-- Looking fails past the end of the store only. -/
theorem look_eq_none_iff : t.look id = none ↔ t.size ≤ id := by
  simp [look, size]

theorem slot_of_look (h : t.look id = some (node, up)) :
    (t.slot id).node = node ∧ (t.slot id).parent = up := by
  obtain ⟨slot, hslot, heq⟩ := Option.map_eq_some_iff.mp h
  have hget : t.slot id = slot := by
    simp [Tree.slot, Array.getD_eq_getD_getElem?, hslot]
  obtain ⟨rfl, rfl⟩ := Prod.mk.inj heq
  rw [hget]
  exact ⟨rfl, rfl⟩

theorem node_of_look (h : t.look id = some (node, up)) : t.node id = node :=
  (slot_of_look h).1

theorem parent_of_look (h : t.look id = some (node, up)) : t.parent id = up :=
  (slot_of_look h).2

theorem node_eq_look (t : Tree) (id : NodeId) :
    t.node id = ((t.look id).map Prod.fst).getD .empty := by
  rw [node, slot, look, Array.getD_eq_getD_getElem?]
  cases t.slots[id]? <;> rfl

theorem parent_eq_look (t : Tree) (id : NodeId) : t.parent id = (t.look id).bind Prod.snd := by
  rw [parent, slot, look, Array.getD_eq_getD_getElem?]
  cases t.slots[id]? <;> rfl

theorem look_of_lt (h : id < t.size) : t.look id = some (t.node id, t.parent id) := by
  rcases hlook : t.look id with _ | ⟨node, up⟩
  · exact absurd (look_eq_none_iff.mp hlook) (Nat.not_le_of_lt h)
  · rw [node_of_look hlook, parent_of_look hlook]

/-! ## Changes in place -/

/-- A change of one slot is seen there only. -/
theorem look_modifySlot (f : Slot → Slot) (i j : NodeId) :
    (t.modifySlot i f).look j =
      if i = j then t.slots[j]?.map (fun slot => ((f slot).node, (f slot).parent))
      else t.look j := by
  unfold look modifySlot
  rw [Array.getElem?_modify]
  split <;> simp [Function.comp_def]

@[simp] theorem look_setNode (i j : NodeId) :
    (t.setNode i node).look j =
      if i = j then (t.look j).map (fun p => (node, p.2)) else t.look j := by
  rw [setNode, look_modifySlot]
  simp [look, Function.comp_def]

@[simp] theorem look_setParent (i j : NodeId) :
    (t.setParent i up).look j =
      if i = j then (t.look j).map (fun p => (p.1, up)) else t.look j := by
  rw [setParent, look_modifySlot]
  simp [look, Function.comp_def]

theorem node_setNode (h : id < t.size) (j : NodeId) :
    (t.setNode id node).node j = if id = j then node else t.node j := by
  rw [node_eq_look, look_setNode]
  split
  · rename_i heq
    rw [← heq, look_of_lt h]
    rfl
  · rw [← node_eq_look]

@[simp] theorem parent_setNode (i j : NodeId) : (t.setNode i node).parent j = t.parent j := by
  rw [parent_eq_look, look_setNode, parent_eq_look]
  split
  · cases t.look j <;> rfl
  · rfl

@[simp] theorem node_setParent (i j : NodeId) : (t.setParent i up).node j = t.node j := by
  rw [node_eq_look, look_setParent, node_eq_look]
  split
  · cases t.look j <;> rfl
  · rfl

@[simp] theorem size_setNode (i : NodeId) : (t.setNode i node).size = t.size := by
  simp [setNode, modifySlot, size]

@[simp] theorem size_setParent (i : NodeId) : (t.setParent i up).size = t.size := by
  simp [setParent, modifySlot, size]

@[simp] theorem root_setNode (i : NodeId) : (t.setNode i node).root = t.root := rfl

@[simp] theorem root_setParent (i : NodeId) : (t.setParent i up).root = t.root := rfl

theorem adopt_cons (parent child : NodeId) (children : List NodeId) :
    t.adopt parent (child :: children) =
      (t.setParent child (some parent)).adopt parent children := rfl

@[simp] theorem size_adopt (parent : NodeId) (children : List NodeId) :
    (t.adopt parent children).size = t.size := by
  induction children generalizing t with
  | nil => rfl
  | cons child children ih => rw [adopt_cons, ih, size_setParent]

@[simp] theorem root_adopt (parent : NodeId) (children : List NodeId) :
    (t.adopt parent children).root = t.root := by
  induction children generalizing t with
  | nil => rfl
  | cons child children ih => rw [adopt_cons, ih, root_setParent]

/-- Adopted nodes have the parent, and the others are as they were. -/
@[simp] theorem look_adopt (parent : NodeId) (children : List NodeId) (j : NodeId) :
    (t.adopt parent children).look j =
      if j ∈ children then (t.look j).map (fun p => (p.1, some parent)) else t.look j := by
  induction children generalizing t with
  | nil => rfl
  | cons child children ih =>
    rw [adopt_cons, ih, look_setParent]
    by_cases hj : child = j
    · subst hj
      simp [Function.comp_def]
    · simp [hj, Ne.symm hj]

@[simp] theorem size_setCell (cell head : NodeId) (tail : Option NodeId) :
    (t.setCell cell head tail).size = t.size := by
  simp [setCell]

@[simp] theorem root_setCell (cell head : NodeId) (tail : Option NodeId) :
    (t.setCell cell head tail).root = t.root := by
  simp [setCell]

/-- A cell gets its node, and what it links to gets a parent. -/
theorem look_setCell (cell head : NodeId) (tail : Option NodeId) (j : NodeId) :
    (t.setCell cell head tail).look j =
      if j = head ∨ tail = some j then
        (t.look j).map fun p => (if cell = j then .sequence head tail else p.1, some cell)
      else if cell = j then (t.look j).map fun p => (.sequence head tail, p.2)
      else t.look j := by
  simp only [setCell, look_adopt, look_setNode, List.mem_cons, Option.mem_toList]
  by_cases hcell : cell = j <;> simp [hcell, Function.comp_def]

@[simp] theorem size_setTail (cell : NodeId) (tail : Option NodeId) :
    (t.setTail cell tail).size = t.size := by
  unfold setTail
  split <;> simp

@[simp] theorem root_setTail (cell : NodeId) (tail : Option NodeId) :
    (t.setTail cell tail).root = t.root := by
  unfold setTail
  split <;> simp

/-- Only for a position that holds a cell: elsewhere the next cell has nowhere to go. -/
theorem look_setTail {cell head : NodeId} {old : Option NodeId}
    (h : t.look cell = some (.sequence head old, up)) (tail : Option NodeId) (j : NodeId) :
    (t.setTail cell tail).look j =
      if tail = some j then
        (t.look j).map fun p => (if cell = j then .sequence head tail else p.1, some cell)
      else if cell = j then some (.sequence head tail, up)
      else t.look j := by
  simp only [setTail, node_of_look h, look_adopt, look_setNode, Option.mem_toList]
  by_cases hcell : cell = j
  · subst hcell
    simp [h]
  · simp [hcell]

/-! ## Growth -/

theorem run_alloc (node : Node) (span : Span) (t : Tree) :
    (alloc node span).run t =
      (t.size,
        { t with slots := t.slots.push ⟨node, none, span⟩ }.adopt t.size node.children) := rfl

/-- The store after a node was put at the next free position. -/
def grown (t : Tree) (node : Node) (span : Span) : Tree := ((alloc node span).run t).2

/-- Allocation gives the next position out. -/
theorem run_alloc_eq (node : Node) (span : Span) (t : Tree) :
    (alloc node span).run t = (t.size, t.grown node span) := rfl

@[simp] theorem size_grown (span : Span) : (t.grown node span).size = t.size + 1 := by
  rw [grown, run_alloc, size_adopt]
  simp [size]

@[simp] theorem root_grown (span : Span) : (t.grown node span).root = t.root := by
  rw [grown, run_alloc, root_adopt]

/-- What every position holds after a node was added. -/
theorem look_grown (h : ∀ child ∈ node.children, child < t.size) (span : Span) (j : NodeId) :
    (t.grown node span).look j =
      if j = t.size then some (node, none)
      else if j ∈ node.children then (t.look j).map fun p => (p.1, some t.size)
      else t.look j := by
  rw [grown, run_alloc, look_adopt]
  have hpush : look { t with slots := t.slots.push ⟨node, none, span⟩ } j =
      if j = t.size then some (node, none) else t.look j := by
    unfold look size
    rw [Array.getElem?_push]
    split <;> simp
  rw [hpush]
  by_cases hj : j = t.size
  · subst hj
    have hnot : t.size ∉ node.children := fun hmem => Nat.lt_irrefl _ (h _ hmem)
    simp [hnot]
  · simp [hj]

/-! ## What stays -/

/-- Outside of `changed` all that was there before still reads as it did, and the formula has the
same root. -/
structure Keeps (t t' : Tree) (changed : Multiset NodeId) : Prop where
  size_le : t.size ≤ t'.size
  root_eq : t'.root = t.root
  look_eq : ∀ id < t.size, id ∉ changed → t'.look id = t.look id

namespace Keeps

variable {changed changed' : Multiset NodeId} {t'' : Tree}

theorem refl (t : Tree) (changed : Multiset NodeId) : t.Keeps t changed :=
  ⟨Nat.le_refl _, rfl, fun _ _ _ => rfl⟩

theorem mono (h : t.Keeps t' changed) (hsub : changed ⊆ changed') : t.Keeps t' changed' :=
  ⟨h.size_le, h.root_eq, fun id hid hout => h.look_eq id hid fun hin => hout (hsub hin)⟩

/-- The second change may also touch what is new since the first. -/
theorem trans (h : t.Keeps t' changed) (h' : t'.Keeps t'' changed')
    (hsub : ∀ id ∈ changed', id ∈ changed ∨ t.size ≤ id) : t.Keeps t'' changed := by
  refine ⟨h.size_le.trans h'.size_le, h'.root_eq.trans h.root_eq, ?_⟩
  intro id hid hout
  have hout' : id ∉ changed' := by
    intro hin
    rcases hsub id hin with hmem | hle
    · exact hout hmem
    · omega
  rw [h'.look_eq id (Nat.lt_of_lt_of_le hid h.size_le) hout', h.look_eq id hid hout]

theorem look_of_look (h : t.Keeps t' changed) (hlook : t.look id = some (node, up))
    (hout : id ∉ changed) : t'.look id = some (node, up) := by
  rw [h.look_eq id (lt_of_look hlook) hout, hlook]

end Keeps

theorem keeps_setParent (i : NodeId) (up : Option NodeId) : t.Keeps (t.setParent i up) {i} := by
  refine ⟨by simp, by simp, fun j _ hj => ?_⟩
  rw [look_setParent, if_neg fun heq => hj (Multiset.mem_singleton.mpr heq.symm)]

/-- Positions were traded for others: nothing else changed, and what is there now was there before
or is new. -/
structure Trades (t t' : Tree) (old new : Multiset NodeId) : Prop where
  keeps : t.Keeps t' old
  nodup : new.Nodup
  lt_size : ∀ i ∈ new, i < t'.size
  fresh : ∀ i ∈ new, i ∈ old ∨ t.size ≤ i

theorem lt_size_add {s u : Multiset NodeId} (hs : ∀ i ∈ s, i < t.size) (hu : ∀ i ∈ u, i < t.size) :
    ∀ i ∈ s + u, i < t.size := fun i hi => (Multiset.mem_add.mp hi).elim (hs i) (hu i)

namespace Trades

variable {s s' s'' u : Multiset NodeId} {t'' : Tree} {r : Multiset NodeId}

theorem refl (t : Tree) (hn : s.Nodup) (hlt : ∀ i ∈ s, i < t.size) : t.Trades t s s :=
  ⟨Keeps.refl t s, hn, hlt, fun _ hi => Or.inl hi⟩

/-- A change in place. -/
theorem of_keeps (h : t.Keeps t' s) (hn : s.Nodup) (hlt : ∀ i ∈ s, i < t.size) : t.Trades t' s s :=
  ⟨h, hn, fun i hi => Nat.lt_of_lt_of_le (hlt i hi) h.size_le, fun _ hi => Or.inl hi⟩

theorem congr (h : t.Trades t' s s') {v v' : Multiset NodeId} (hs : s = v) (hs' : s' = v') :
    t.Trades t' v v' :=
  hs ▸ hs' ▸ h

/-- Trades may be made one after the other. -/
theorem trans (h : t.Trades t' s s') (h' : t'.Trades t'' s' s'') : t.Trades t'' s s'' := by
  refine ⟨h.keeps.trans h'.keeps h.fresh, h'.nodup, h'.lt_size, fun i hi => ?_⟩
  rcases h'.fresh i hi with hi | hi
  · exact h.fresh i hi
  · exact Or.inr (h.keeps.size_le.trans hi)

/-- A trade leaves positions beside it alone. -/
theorem frame (h : t.Trades t' s s') (hn : (s + u).Nodup) (hlt : ∀ i ∈ u, i < t.size) :
    t.Trades t' (s + u) (s' + u) := by
  obtain ⟨-, hnu, hdisj⟩ := Multiset.nodup_add.mp hn
  refine ⟨h.keeps.mono fun i hi => Multiset.mem_add.mpr (Or.inl hi), ?_, ?_, ?_⟩
  · refine Multiset.nodup_add.mpr ⟨h.nodup, hnu, Multiset.disjoint_left.mpr fun hi hu => ?_⟩
    rcases h.fresh _ hi with hi | hi
    · exact Multiset.disjoint_left.mp hdisj hi hu
    · exact Nat.not_le_of_lt (hlt _ hu) hi
  · exact lt_size_add h.lt_size fun i hi => Nat.lt_of_lt_of_le (hlt i hi) h.keeps.size_le
  · intro i hi
    rcases Multiset.mem_add.mp hi with hi | hi
    · exact (h.fresh i hi).imp_left fun hi => Multiset.mem_add.mpr (Or.inl hi)
    · exact Or.inl (Multiset.mem_add.mpr (Or.inr hi))

/-- A trade below a node. -/
theorem below {n : NodeId} (h : t.Trades t' s s') (hlook : t.look n = some (node, up))
    (hn : ({n} + s).Nodup) : t.Trades t' ({n} + s) ({n} + s') := by
  rw [Multiset.add_comm] at hn
  refine (h.frame hn fun i hi => ?_).congr (Multiset.add_comm _ _) (Multiset.add_comm _ _)
  rw [Multiset.mem_singleton.mp hi]
  exact lt_of_look hlook

/-- The next of several trades, which leaves part of what is there alone. -/
theorem step (h : t.Trades t' s r) (heq : r = s' + u) (h' : t'.Trades t'' s' s'') :
    t.Trades t'' s (s'' + u) := by
  subst heq
  exact h.trans (h'.frame h.nodup fun i hi => h.lt_size i (Multiset.mem_add.mpr (Or.inr hi)))

/-- Some of what is there is given up. -/
theorem shrink (h : t.Trades t' s r) (hle : s' ≤ r) : t.Trades t' s s' :=
  ⟨h.keeps, Multiset.nodup_of_le hle h.nodup, fun i hi => h.lt_size i (Multiset.mem_of_le hle hi),
    fun i hi => h.fresh i (Multiset.mem_of_le hle hi)⟩

/-- Positions that are no longer wanted may be left out of a trade. -/
theorem drop (h : t.Trades t' s r) (heq : r = s' + u) : t.Trades t' s s' :=
  h.shrink (heq ▸ Multiset.le_add_right _ _)

/-- All of what was there is given up for what is new. -/
theorem of_new (h : t.Trades t' 0 s') : t.Trades t' s s' :=
  ⟨h.keeps.mono (Multiset.zero_subset _), h.nodup, h.lt_size, fun i hi =>
    Or.inr ((h.fresh i hi).resolve_left (Multiset.notMem_zero i))⟩

/-- What is not part of the next trade. -/
theorem apart (h : t.Trades t' s r) (heq : r = s' + u) : ∀ i ∈ u, i ∉ s' := by
  subst heq
  exact fun i hi hmem => Multiset.disjoint_left.mp (Multiset.nodup_add.mp h.nodup).2.2 hmem hi

/-- A node is added on top of what it adopts. -/
theorem of_grown {span : Span} (h : t.Keeps (t.grown node span) s) (hn : s.Nodup)
    (hlt : ∀ i ∈ s, i < t.size) : t.Trades (t.grown node span) s ({t.size} + s) := by
  refine ⟨h, ?_, fun i hi => ?_, fun i hi => ?_⟩
  · rw [Multiset.singleton_add, Multiset.nodup_cons]
    exact ⟨fun hmem => Nat.lt_irrefl _ (hlt _ hmem), hn⟩
  · rw [size_grown]
    rcases Multiset.mem_add.mp hi with hi | hi
    · rw [Multiset.mem_singleton.mp hi]
      exact Nat.lt_succ_self _
    · exact Nat.lt_succ_of_lt (hlt i hi)
  · rcases Multiset.mem_add.mp hi with hi | hi
    · exact Or.inr (Multiset.mem_singleton.mp hi ▸ Nat.le_refl _)
    · exact Or.inl hi

end Trades

/-! ## Programs -/

/-- Runs a program up to its first step. -/
theorem run_bind_of_run {α β : Type} {x : StateM Tree α} {f : α → StateM Tree β} {a : α}
    (h : x.run t = (a, t')) : (x >>= f).run t = (f a).run t' := by
  rw [StateT.run_bind, h]
  rfl

theorem run_get_bind {β : Type} (f : Tree → StateM Tree β) : (get >>= f).run t = (f t).run t := rfl

end Formulary.Tree
