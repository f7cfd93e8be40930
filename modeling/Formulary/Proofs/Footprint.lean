import Formulary.Proofs.Copying
import Formulary.Proofs.Exchange

/-!
# Which nodes a program changes

`Tree.Alters` names the positions whose node may be another afterwards. Everywhere else the node is
the same; all positions keep their kind and their span, the store only grows, and the root stays.
This holds of every run, whether or not it fails and whatever the store is like, so it is read off
the programs alone.

What a node hangs under is not looked at here. `Tree.Keeps` does so, where the store is in order.
-/

namespace Formulary

namespace Tree

variable {cell id head node old new : NodeId} {α β : Type} {tail : Option NodeId}
  {r : Except SurgeryError NodeId} {t t' t'' : Tree} {changed : List NodeId}

/-- Only the nodes at some positions changed. -/
structure Alters (t t' : Tree) (changed : List NodeId) : Prop where
  size_le : t.size ≤ t'.size
  root_eq : t'.root = t.root
  span_eq : ∀ i < t.size, t'.span i = t.span i
  kind_eq : ∀ i < t.size, t'.kind i = t.kind i
  node_eq : ∀ i < t.size, i ∉ changed → t'.node i = t.node i

/-- Spans that are known, of the nodes of a store and maybe of others. -/
def SpansIn (t : Tree) (σ : NodeId → Span) : Prop := ∀ i < t.size, σ i = t.span i

namespace Alters

theorem refl (t : Tree) (changed : List NodeId) : t.Alters t changed :=
  ⟨Nat.le_refl _, rfl, fun _ _ => rfl, fun _ _ => rfl, fun _ _ _ => rfl⟩

theorem trans (h : t.Alters t' changed) (h' : t'.Alters t'' changed) : t.Alters t'' changed where
  size_le := h.size_le.trans h'.size_le
  root_eq := h'.root_eq.trans h.root_eq
  span_eq i hi := (h'.span_eq i (hi.trans_le h.size_le)).trans (h.span_eq i hi)
  kind_eq i hi := (h'.kind_eq i (hi.trans_le h.size_le)).trans (h.kind_eq i hi)
  node_eq i hi hout :=
    (h'.node_eq i (hi.trans_le h.size_le) hout).trans (h.node_eq i hi hout)

theorem mono {changed' : List NodeId} (h : t.Alters t' changed) (hsub : changed ⊆ changed') :
    t.Alters t' changed' :=
  ⟨h.size_le, h.root_eq, h.span_eq, h.kind_eq,
    fun i hi hout => h.node_eq i hi fun hin => hout (hsub hin)⟩

/-- What two steps change is changed by doing one after the other. -/
theorem append {changed' : List NodeId} (h : t.Alters t' changed) (h' : t'.Alters t'' changed') :
    t.Alters t'' (changed ++ changed') :=
  (h.mono (List.subset_append_left _ _)).trans (h'.mono (List.subset_append_right _ _))

/-- Spans known after a change were known before. -/
theorem spansIn {σ : NodeId → Span} (h : t.Alters t' changed) (hσ : t'.SpansIn σ) : t.SpansIn σ :=
  fun i hi => (hσ i (hi.trans_le h.size_le)).trans (h.span_eq i hi)

theorem isSequence_eq (h : t.Alters t' changed) {i : NodeId} (hi : i < t.size) :
    t'.isSequence i = t.isSequence i := by
  rw [Bool.eq_iff_iff, isSequence_iff, isSequence_iff, h.kind_eq i hi]

end Alters

/-! ## Changes in place -/

theorem slot_modifySlot (f : Slot → Slot) (i j : NodeId) :
    (t.modifySlot i f).slot j = if i = j ∧ j < t.size then f (t.slot j) else t.slot j := by
  rw [slot, slot, modifySlot, Array.getD_eq_getD_getElem?, Array.getD_eq_getD_getElem?,
    Array.getElem?_modify]
  by_cases hlt : j < t.size
  · have hslot : t.slots[j]? = some t.slots[j] := Array.getElem?_eq_getElem hlt
    rw [hslot]
    by_cases hij : i = j <;> simp [hij, hlt]
  · have hslot : t.slots[j]? = none := Array.getElem?_eq_none (Nat.le_of_not_lt hlt)
    rw [hslot]
    simp [hlt]

theorem alters_modifySlot {f : Slot → Slot} {i : NodeId} (hspan : ∀ slot, (f slot).span = slot.span)
    (hkind : (f (t.slot i)).node.kind = t.kind i) : t.Alters (t.modifySlot i f) [i] where
  size_le := by simp [modifySlot, size]
  root_eq := rfl
  span_eq j _ := by
    rw [span, slot_modifySlot]
    split
    · exact hspan _
    · rfl
  kind_eq j _ := by
    rw [kind, node, slot_modifySlot]
    split
    · rename_i heq
      rw [← heq.1]
      exact hkind
    · rfl
  node_eq j _ hout := by
    rw [List.mem_singleton] at hout
    rw [node, slot_modifySlot, if_neg fun heq => hout heq.1.symm]
    rfl

/-- A node may become another of its kind. -/
theorem alters_setNode {i : NodeId} {node : Node} (h : node.kind = t.kind i) :
    t.Alters (t.setNode i node) [i] :=
  alters_modifySlot (fun _ => rfl) h

theorem alters_setParent (i : NodeId) (up : Option NodeId) : t.Alters (t.setParent i up) [] := by
  have h : t.Alters (t.setParent i up) [i] := alters_modifySlot (fun _ => rfl) rfl
  exact ⟨h.size_le, h.root_eq, h.span_eq, h.kind_eq, fun j _ _ => node_setParent i j⟩

/-- Adopting changes no node. -/
theorem alters_adopt (parent : NodeId) (children : List NodeId) :
    t.Alters (t.adopt parent children) [] := by
  induction children generalizing t with
  | nil => exact Alters.refl t []
  | cons child children ih => exact (alters_setParent child (some parent)).trans ih

theorem alters_setCell (h : t.isSequence cell = true) (head : NodeId) (tail : Option NodeId) :
    t.Alters (t.setCell cell head tail) [cell] := by
  have hnode : t.Alters (t.setNode cell (.sequence head tail)) [cell] :=
    alters_setNode (isSequence_iff.mp h).symm
  exact hnode.trans ((alters_adopt cell _).mono (List.nil_subset _))

/-- Nothing but a cell gets another tail. -/
theorem alters_setTail (cell : NodeId) (tail : Option NodeId) :
    t.Alters (t.setTail cell tail) [cell] := by
  rw [setTail]
  split
  · rename_i head old hnode
    have hset : t.Alters (t.setNode cell (.sequence head tail)) [cell] :=
      alters_setNode (by rw [kind, hnode]; rfl)
    exact hset.trans ((alters_adopt cell _).mono (List.nil_subset _))
  · exact (alters_adopt cell _).mono (List.nil_subset _)

/-- Redirecting a link changes the node it goes out from. -/
theorem alters_redirect (parent old new : NodeId) :
    t.Alters (t.redirect parent old new) [parent] := by
  rcases t.redirect_eq parent old new with ⟨heq, -⟩ | heq
  · rw [heq]
    exact Alters.refl t _
  · rw [heq]
    exact alters_setNode (Node.kind_swap old new (t.node parent))

theorem alters_rename (id : NodeId) (name : String) : t.Alters (t.rename id name) [id] := by
  rw [rename]
  split
  · rename_i hnode
    exact alters_setNode (by rw [kind, hnode]; rfl)
  · rename_i hnode
    exact alters_setNode (by rw [kind, hnode]; rfl)
  · exact Alters.refl t _

theorem alters_setText (id : NodeId) (text : String) : t.Alters (t.setText id text) [id] := by
  rw [setText]
  split
  · rename_i hnode
    exact alters_setNode (by rw [kind, hnode]; rfl)
  · exact Alters.refl t _

/-! ## Growth -/

/-- A new node changes none that was there. -/
theorem alters_grown (node : Node) (span : Span) : t.Alters (t.grown node span) [] := by
  have hslot : ∀ i < t.size,
      slot { t with slots := t.slots.push ⟨node, none, span⟩ } i = t.slot i := by
    intro i hi
    rw [slot, slot, Array.getD_eq_getD_getElem?, Array.getD_eq_getD_getElem?,
      Array.getElem?_push_lt hi, Array.getElem?_eq_getElem hi]
  have hpush : t.Alters { t with slots := t.slots.push ⟨node, none, span⟩ } [] :=
    ⟨by simp [size], rfl, fun i hi => congrArg Slot.span (hslot i hi),
      fun i hi => congrArg (fun s => s.node.kind) (hslot i hi),
      fun i hi _ => congrArg Slot.node (hslot i hi)⟩
  exact hpush.trans (alters_adopt t.size node.children)

/-- Adopted nodes get the parent, and the others keep theirs. -/
theorem slot_adopt (parent : NodeId) (children : List NodeId) (j : NodeId) :
    (t.adopt parent children).slot j =
      if j ∈ children ∧ j < t.size then { t.slot j with parent := some parent } else t.slot j := by
  induction children generalizing t with
  | nil => simp [adopt]
  | cons child children ih =>
    rw [adopt_cons, ih, size_setParent, setParent, slot_modifySlot]
    by_cases hj : j = child
    · subst hj
      by_cases hmem : j ∈ children <;> by_cases hlt : j < t.size <;> simp [hmem, hlt]
    · simp [hj, Ne.symm hj]

theorem span_grown (node : Node) (span : Span) : (t.grown node span).span t.size = span := by
  have hpush : slot { t with slots := t.slots.push ⟨node, none, span⟩ } t.size =
      ⟨node, none, span⟩ := by simp [slot, size]
  rw [Tree.span, grown, run_alloc, slot_adopt]
  split <;> rw [hpush]

/-- Every slot after a node was added: its own, those under it, and the others. -/
theorem slot_grown {node : Node} (h : ∀ child ∈ node.children, child < t.size) (span : Span)
    (j : NodeId) :
    (t.grown node span).slot j =
      if j = t.size then ⟨node, none, span⟩
      else if j ∈ node.children then { t.slot j with parent := some t.size }
      else t.slot j := by
  have hpush : slot { t with slots := t.slots.push ⟨node, none, span⟩ } j =
      if j = t.size then ⟨node, none, span⟩ else t.slot j := by
    rw [slot, Array.getD_eq_getD_getElem?, Array.getElem?_push]
    by_cases hj : j = t.slots.size
    · simp [size, hj]
    · simp [size, hj, slot, Array.getD_eq_getD_getElem?]
  have hsize : size { t with slots := t.slots.push ⟨node, none, span⟩ } = t.size + 1 := by
    simp [size]
  rw [grown, run_alloc, slot_adopt, hpush, hsize]
  by_cases hj : j = t.size
  · have hnot : j ∉ node.children := fun hmem => Nat.lt_irrefl _ (hj ▸ h j hmem)
    simp [hj, hj ▸ hnot]
  · by_cases hmem : j ∈ node.children
    · simp [hj, hmem, Nat.lt_succ_of_lt (h j hmem)]
    · simp [hj, hmem]

/-- A program that changes no node that is there. -/
def Grows {α : Type} (x : StateM Tree α) : Prop := ∀ t : Tree, t.Alters (x.run t).2 []

/-- A program that only grows the store changes no node. -/
theorem Grows.alters {x : StateM Tree α} {a : α} (h : Grows x) (hrun : x.run t = (a, t')) :
    t.Alters t' [] := by
  have halters := h t
  rwa [hrun] at halters

theorem grows_alloc (node : Node) (span : Span) : Grows (alloc node span) :=
  fun _ => alters_grown node span

theorem Grows.bind {x : StateM Tree α} {f : α → StateM Tree β} (hx : Grows x)
    (hf : ∀ a, Grows (f a)) : Grows (x >>= f) := by
  intro t
  rw [StateT.run_bind]
  exact (hx t).trans (hf _ _)

theorem grows_get_bind {f : Tree → StateM Tree β} (hf : ∀ t, Grows (f t)) :
    Grows (get >>= f) := fun t => hf t t

/-- Growing for every element of a list grows the store only. -/
theorem grows_mapM {f : α → StateM Tree β} (hf : ∀ a, Grows (f a)) (as : List α) :
    Grows (as.mapM f) := by
  induction as with
  | nil => exact fun t => Alters.refl t []
  | cons a as ih =>
    rw [List.mapM_cons]
    apply (hf a).bind
    intro b
    apply ih.bind
    intro bs t
    exact Alters.refl t []

theorem grows_chain (fallback : Span) (elements : List NodeId) : Grows (chain fallback elements) := by
  induction elements with
  | nil =>
    rw [chain]
    apply (grows_alloc _ _).bind
    intro empty
    exact grows_alloc _ _
  | cons head rest ih =>
    cases rest with
    | nil =>
      rw [chain]
      apply grows_get_bind
      intro t
      exact grows_alloc _ _
    | cons next rest =>
      rw [chain]
      · apply ih.bind
        intro tail
        apply grows_get_bind
        intro t
        exact grows_alloc _ _
      · exact List.cons_ne_nil _ _

/-- Copying only grows the store, however deep it goes. -/
theorem grows_copyUpTo (source : Tree) (place : Option Span) (depth : Nat) (id : NodeId) :
    Grows (source.copyUpTo place depth id) := by
  induction depth generalizing id with
  | zero =>
    rw [copyUpTo]
    exact grows_alloc _ _
  | succ depth ih =>
    rw [copyUpTo_succ]
    exact (grows_mapM ih _).bind fun _ => grows_alloc _ _

theorem grows_graft (source : Tree) (place : Option Span) : Grows (graft source place) :=
  grows_copyUpTo source place _ _

theorem grows_deepCopy (id : NodeId) : Grows (deepCopy id) := by
  rw [deepCopy]
  apply grows_get_bind
  intro t
  exact grows_graft _ _

/-! ## Surgery -/

theorem lt_size_of_isSequence (h : t.isSequence id = true) : id < t.size := by
  by_contra hle
  rw [isSequence, node_eq_look, look_eq_none_iff.mpr (Nat.le_of_not_lt hle)] at h
  cases h

theorem isSequence_of_head (h : t.head id = some head) : t.isSequence id = true := by
  rw [Tree.head] at h
  split at h
  · rename_i hnode
    rw [isSequence, hnode]
    rfl
  · cases h

/-- The owner of an element is a cell. -/
theorem isSequence_of_owningCell (h : t.owningCell id = some cell) : t.isSequence cell = true := by
  rw [owningCell] at h
  split at h
  · rename_i hid
    rwa [← Option.some.inj h]
  · obtain ⟨-, hhead⟩ := Option.filter_eq_some_iff.mp h
    exact isSequence_of_head (beq_iff_eq.mp hhead)

theorem exists_of_isSequence (h : t.isSequence id = true) :
    ∃ head tail, t.node id = .sequence head tail := by
  rw [isSequence] at h
  cases hnode : t.node id with
  | sequence head tail => exact ⟨head, tail, rfl⟩
  | literal | empty | group | script | command | block =>
    rw [hnode] at h
    cases h

theorem head_of_node (h : t.node cell = .sequence head tail) :
    t.head cell = some head := by rw [Tree.head, h]

theorem tail_of_node (h : t.node cell = .sequence head tail) :
    t.tail cell = tail := by rw [Tree.tail, h]

theorem exists_of_tail {next : NodeId} (h : t.tail cell = some next) :
    ∃ head, t.node cell = .sequence head (some next) := by
  cases hnode : t.node cell with
  | sequence head tail =>
    rw [tail_of_node hnode] at h
    exact ⟨head, by rw [h]⟩
  | literal | empty | group | script | command | block =>
    rw [Tree.tail, hnode] at h
    cases h

/-- What taking out an element can do to the store. -/
inductive Deletion (t : Tree) (id : NodeId) : Tree → Prop
  | misused : Deletion t id t
  | last {cell old : NodeId} (hcell : t.owningCell id = some cell)
      (hnode : t.node cell = .sequence old none) :
    Deletion t id
      (((t.setParent old none).grown .empty ((t.span cell).take 0)).setCell cell t.size none)
  | broken {cell old next : NodeId} (hcell : t.owningCell id = some cell)
      (hnode : t.node cell = .sequence old (some next)) (hnext : t.head next = none) :
    Deletion t id (t.setParent old none)
  | pulled {cell old next new : NodeId} {tail : Option NodeId} (hcell : t.owningCell id = some cell)
      (hnode : t.node cell = .sequence old (some next)) (hnext : t.node next = .sequence new tail) :
    Deletion t id (((t.setParent old none).setCell cell new tail).setParent next none)

/-- A deletion took one of its ways, and the store shows which. -/
theorem deletion_of_run (hrun : (delete id).run.run t = (r, t')) : t.Deletion id t' := by
  rw [delete, Edit.run_get_bind] at hrun
  cases hcell : t.owningCell id with
  | none =>
    rw [hcell] at hrun
    obtain rfl : t = t' := (Prod.mk.inj hrun).2
    exact .misused
  | some cell =>
    obtain ⟨old, tail, hnode⟩ := exists_of_isSequence (isSequence_of_owningCell hcell)
    simp only [hcell, head_of_node hnode, tail_of_node hnode] at hrun
    cases tail with
    | none =>
      obtain rfl := (Prod.mk.inj hrun).2
      have hlast := Deletion.last hcell hnode
      rwa [← size_setParent old] at hlast
    | some next =>
      dsimp only at hrun
      cases hhead : t.head next with
      | none =>
        rw [hhead] at hrun
        obtain rfl := (Prod.mk.inj hrun).2
        exact .broken hcell hnode hhead
      | some new =>
        obtain ⟨head, tail, hnext⟩ := exists_of_isSequence (isSequence_of_head hhead)
        obtain rfl := Option.some.inj ((head_of_node hnext).symm.trans hhead)
        have hnext' : (t.setParent old none).node next = .sequence head tail := by
          rw [node_setParent, hnext]
        rw [hhead] at hrun
        obtain rfl := (Prod.mk.inj hrun).2
        have hpulled := Deletion.pulled hcell hnode hnext
        rwa [← tail_of_node hnext'] at hpulled

/-- Taking out changes the cell of the element at most. -/
theorem alters_delete (hrun : (delete id).run.run t = (r, t')) :
    t.Alters t' (t.owningCell id).toList := by
  have hfirst : ∀ cell old, t.Alters (t.setParent old none) [cell] := fun cell old =>
    (alters_setParent old none).mono (List.nil_subset _)
  cases deletion_of_run hrun with
  | misused => exact Alters.refl t _
  | last hcell hnode =>
    rename_i cell old
    have hsequence := isSequence_of_owningCell hcell
    have hgrown := (hfirst cell old).trans
      ((alters_grown .empty ((t.span cell).take 0)).mono (List.nil_subset _))
    rw [hcell]
    exact hgrown.trans (alters_setCell
      ((hgrown.isSequence_eq (lt_size_of_isSequence hsequence)).trans hsequence) _ none)
  | broken hcell hnode hnext =>
    rw [hcell]
    exact hfirst _ _
  | pulled hcell hnode hnext =>
    rename_i cell old next new tail
    have hsequence := isSequence_of_owningCell hcell
    have hset := (hfirst cell old).trans (alters_setCell
      (((hfirst cell old).isSequence_eq (lt_size_of_isSequence hsequence)).trans hsequence) new tail)
    rw [hcell]
    exact hset.trans ((alters_setParent next none).mono (List.nil_subset _))

/-- What has to hold for an element to be put beside another. -/
theorem insertionError?_eq_none (h : t.insertionError? cell node = none) :
    t.isSequence cell = true ∧ t.isSequence node = false ∧ t.parent node = none := by
  rw [insertionError?] at h
  cases hcell : t.isSequence cell <;> cases hnode : t.isSequence node <;>
    cases hparent : t.parent node <;> simp [hcell, hnode, hparent] at h ⊢

/-- Inserting fails and changes nothing, or puts a new cell after the given one. -/
theorem insertAfter_cases (hrun : (insertAfter cell node).run.run t = (r, t')) :
    (∃ e, r = .error e) ∧ t' = t ∨
      r = .ok t.size ∧ t.isSequence cell = true ∧ t.isSequence node = false ∧
        t' = (t.grown (.sequence node (t.tail cell)) (t.span node)).setTail cell (some t.size) := by
  rw [insertAfter, Edit.run_get_bind] at hrun
  cases herror : t.insertionError? cell node with
  | some e =>
    rw [herror] at hrun
    obtain ⟨rfl, rfl⟩ := Prod.mk.inj hrun
    exact Or.inl ⟨⟨e, rfl⟩, rfl⟩
  | none =>
    obtain ⟨hcell, hnode, -⟩ := insertionError?_eq_none herror
    rw [herror] at hrun
    obtain ⟨rfl, rfl⟩ := Prod.mk.inj hrun
    exact Or.inr ⟨rfl, hcell, hnode, rfl⟩

/-- Inserting fails and changes nothing, or moves what the cell holds to a new one. -/
theorem insertBefore_cases (hrun : (insertBefore cell node).run.run t = (r, t')) :
    (∃ e, r = .error e) ∧ t' = t ∨
      ∃ head tail, r = .ok t.size ∧ t.node cell = .sequence head tail ∧ t.isSequence node = false ∧
        t' = (t.grown (.sequence head tail) (t.span cell)).setCell cell node (some t.size) := by
  rw [insertBefore, Edit.run_get_bind] at hrun
  cases herror : t.insertionError? cell node with
  | some e =>
    rw [herror] at hrun
    obtain ⟨rfl, rfl⟩ := Prod.mk.inj hrun
    exact Or.inl ⟨⟨e, rfl⟩, rfl⟩
  | none =>
    obtain ⟨hcell, hnode, -⟩ := insertionError?_eq_none herror
    obtain ⟨head, tail, hsequence⟩ := exists_of_isSequence hcell
    rw [herror, head_of_node hsequence, tail_of_node hsequence] at hrun
    obtain ⟨rfl, rfl⟩ := Prod.mk.inj hrun
    exact Or.inr ⟨head, tail, rfl, hsequence, hnode, rfl⟩

theorem alters_insertAfter (hrun : (insertAfter cell node).run.run t = (r, t')) :
    t.Alters t' [cell] := by
  rcases insertAfter_cases hrun with ⟨-, rfl⟩ | ⟨-, -, -, rfl⟩
  · exact Alters.refl _ _
  · exact ((alters_grown _ _).mono (List.nil_subset _)).trans (alters_setTail cell _)

theorem alters_insertBefore (hrun : (insertBefore cell node).run.run t = (r, t')) :
    t.Alters t' [cell] := by
  rcases insertBefore_cases hrun with ⟨-, rfl⟩ | ⟨head, tail, -, hnode, -, rfl⟩
  · exact Alters.refl _ _
  · have hsequence := isSequence_of_head (head_of_node hnode)
    have hgrown : t.Alters (t.grown (.sequence head tail) (t.span cell)) [cell] :=
      (alters_grown _ _).mono (List.nil_subset _)
    exact hgrown.trans (alters_setCell
      ((hgrown.isSequence_eq (lt_size_of_isSequence hsequence)).trans hsequence) _ _)

/-- What putting a chain in the place of a cell does, where both are cells. -/
theorem replaceCell_cases {chain : NodeId} {tail' : Option NodeId} {r : Except SurgeryError Unit}
    (hcell : t.node cell = .sequence old tail) (hchain : t.node chain = .sequence new tail')
    (hrun : (replaceCell cell chain).run.run t = (r, t')) :
    tail = none ∧ t' = (t.setParent old none).setCell cell new tail' ∨
      ∃ next, tail = some next ∧ t' = ((t.setParent old none).setCell cell new tail').setTail
        (if t.lastCell chain = chain then cell else t.lastCell chain) (some next) := by
  rw [replaceCell, Edit.run_get_bind] at hrun
  simp only [head_of_node hcell, tail_of_node hcell, head_of_node hchain, tail_of_node hchain] at hrun
  cases tail with
  | none =>
    obtain rfl := (Prod.mk.inj hrun).2
    exact Or.inl ⟨rfl, rfl⟩
  | some next =>
    obtain rfl := (Prod.mk.inj hrun).2
    exact Or.inr ⟨next, rfl, rfl⟩

/-- A chain in place of a cell changes the cell and the end of the chain. -/
theorem alters_replaceCell {chain : NodeId} {r : Except SurgeryError Unit}
    (hcell : t.isSequence cell = true) (hchain : t.isSequence chain = true)
    (hrun : (replaceCell cell chain).run.run t = (r, t')) :
    t.Alters t' [cell, t.lastCell chain] := by
  obtain ⟨old, tail, hnode⟩ := exists_of_isSequence hcell
  obtain ⟨new, tail', hnode'⟩ := exists_of_isSequence hchain
  have hfirst : t.Alters (t.setParent old none) [cell, t.lastCell chain] :=
    (alters_setParent old none).mono (List.nil_subset _)
  have hset := hfirst.trans ((alters_setCell
    ((hfirst.isSequence_eq (lt_size_of_isSequence hcell)).trans hcell) new tail').mono
      (List.cons_subset_cons cell (List.nil_subset [t.lastCell chain])))
  rcases replaceCell_cases hnode hnode' hrun with ⟨-, rfl⟩ | ⟨next, -, rfl⟩
  · exact hset
  · refine hset.trans ((alters_setTail _ (some next)).mono ?_)
    split <;> simp

/-- Replacing fails and changes nothing, or gives the parent another child. -/
theorem replaceElement_cases {r : Except SurgeryError Unit}
    (hrun : (replaceElement old new).run.run t = (r, t')) :
    (∃ e, r = .error e) ∧ t' = t ∨ ∃ parent, t.parent old = some parent ∧
      t' = ((t.redirect parent old new).setParent new (some parent)).setParent old none := by
  rw [replaceElement, Edit.run_get_bind] at hrun
  cases hparent : t.parent old with
  | none =>
    rw [hparent] at hrun
    obtain ⟨rfl, rfl⟩ := Prod.mk.inj hrun
    exact Or.inl ⟨⟨_, rfl⟩, rfl⟩
  | some parent =>
    rw [hparent] at hrun
    obtain rfl := (Prod.mk.inj hrun).2
    exact Or.inr ⟨parent, rfl, rfl⟩

/-- Replacing an element changes its parent at most. -/
theorem alters_replaceElement {r : Except SurgeryError Unit}
    (hrun : (replaceElement old new).run.run t = (r, t')) :
    t.Alters t' (t.parent old).toList := by
  rcases replaceElement_cases hrun with ⟨-, rfl⟩ | ⟨parent, hparent, rfl⟩
  · exact Alters.refl _ _
  · have hparents : ∀ u : Tree,
        u.Alters ((u.setParent new (some parent)).setParent old none) [parent] := fun u =>
      ((alters_setParent new _).trans (alters_setParent old none)).mono (List.nil_subset _)
    rw [hparent]
    exact (alters_redirect parent old new).trans (hparents _)

theorem alters_replace_of_element {r : Except SurgeryError Unit} (hold : t.isSequence old = false)
    (hrun : (replace old new).run.run t = (r, t')) :
    t.Alters t' (t.parent old).toList := by
  rw [replace, Edit.run_get_bind, hold] at hrun
  split at hrun
  · obtain rfl := (Prod.mk.inj hrun).2
    exact Alters.refl t _
  · cases hnew : t.isSequence new with
    | true =>
      rw [hnew] at hrun
      obtain rfl := (Prod.mk.inj hrun).2
      exact Alters.refl t _
    | false =>
      rw [hnew] at hrun
      exact alters_replaceElement hrun

end Tree

end Formulary
