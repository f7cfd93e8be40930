import Formulary.Proofs.Visiting

/-!
# Two ways through a formula

A visit goes through a formula that stays as it is. A walk goes through one that its visitor may
change, and looks again after every step. Where the visitor goes into everything and leaves all
links as they are, there is nothing new to be seen when the walk looks again, and it is the visit
(`Tree.Linked.walks_as_visit`): it does the same with the same nodes in the same order. Names and
texts may change on the way.

What both show is the formula in the order of its text (`Tree.shownBelow`), a node before what hangs
under it, without the later cells of chains.
-/

namespace Formulary

namespace Tree

variable {t t' : Tree} {id : NodeId}

/-! ## What links decide -/

theorem SameLinks.head_eq (h : t.SameLinks t') (id : NodeId) : t'.head id = t.head id := by
  have halike := h.alike id
  rw [head, head]
  generalize t.node id = node, t'.node id = node' at halike ⊢
  cases halike <;> rfl

theorem SameLinks.tail_eq (h : t.SameLinks t') (id : NodeId) : t'.tail id = t.tail id := by
  have halike := h.alike id
  rw [tail, tail]
  generalize t.node id = node, t'.node id = node' at halike ⊢
  cases halike <;> rfl

theorem SameLinks.operand_eq (h : t.SameLinks t') (id : NodeId) : t'.operand id = t.operand id := by
  have halike := h.alike id
  rw [operand, operand]
  generalize t.node id = node, t'.node id = node' at halike ⊢
  cases halike <;> rfl

theorem SameLinks.parameter_eq (h : t.SameLinks t') (id : NodeId) (k : Nat) :
    t'.parameter id k = t.parameter id k := by
  have halike := h.alike id
  rw [parameter, parameter]
  generalize t.node id = node, t'.node id = node' at halike ⊢
  cases halike <;> rfl

end Tree

/-! ## What is shown -/

namespace Tree

variable {t : Tree} {id top : NodeId}

/-- What a visit shows below a node, at most `limit` nodes down. -/
def shownBelow (t : Tree) : Nat → NodeId → List NodeId
  | 0, _ => []
  | limit + 1, id =>
    match t.node id with
    | .sequence head (some next) => (head :: t.shownBelow limit head) ++ t.shownBelow limit next
    | node => node.children.flatMap fun child => child :: t.shownBelow limit child

theorem visitBelow_eq_forM {m : Type → Type} [Monad m] [LawfulMonad m] (t : Tree)
    (f : NodeId → m Unit) (limit depth : Nat) (id : NodeId) :
    t.visitBelow (fun _ => f) limit depth id = forM (t.shownBelow limit id) f := by
  induction limit generalizing depth id with
  | zero => rfl
  | succ limit ih =>
    have hall : ∀ is : List NodeId,
        (forM is fun child => do f child; forM (t.shownBelow limit child) f) =
          forM (is.flatMap fun child => child :: t.shownBelow limit child) f := by
      intro is
      induction is with
      | nil => rfl
      | cons i is ihis => simp [ihis]
    rw [visitBelow, shownBelow]
    cases t.node id with
    | literal | empty => rfl
    | sequence head tail => cases tail <;> simp [ih, Node.children]
    | group | script => simp [ih, Node.children]
    | command | block => simp [ih, hall, Node.children]

theorem run_push (is seen : List NodeId) :
    (forM is fun i => modify (i :: ·) : StateM (List NodeId) Unit).run seen =
      ((), is.reverse ++ seen) := by
  induction is generalizing seen with
  | nil => rfl
  | cons i is ih =>
    rw [List.reverse_cons, List.append_assoc, List.singleton_append]
    exact ih (i :: seen)

theorem visited_eq (t : Tree) (id : NodeId) : t.visited id = id :: t.shownBelow t.size id := by
  have hrun : (t.visit (fun _ node => modify (node :: ·)) id : StateM (List NodeId) Unit).run [] =
      (forM (id :: t.shownBelow t.size id) fun i => modify (i :: ·) : StateM (List NodeId) Unit).run
        [] := by
    rw [visit, visitBelow_eq_forM]
    rfl
  rw [visited, hrun, run_push, List.append_nil, List.reverse_reverse]

end Tree

/-! ## Walks that keep all links -/

section

variable {σ ε : Type} {t : Tree} {id : NodeId}

/-- The visitor goes into every node, and keeps all links. -/
def Visitor.Steady (visitor : Visitor σ ε) : Prop :=
  ∀ id t s, ∃ t' s', (visitor id).run.run (t, s) = some (.ok .into, t', s') ∧ t.SameLinks t'

/-- What is done with a node, with no regard to where the walk goes on. -/
def Visitor.enter (visitor : Visitor σ ε) (id : NodeId) : Walk σ ε Unit := do
  let _ ← visitor id

/-- In every tree with the links of `t` the walk ends well and keeps all links, and what it does is
what is done with some nodes, one after the other. -/
def Tree.Presents (t : Tree) (visitor : Visitor σ ε) (walk : Nat → Walk σ ε Unit)
    (is : List NodeId) : Prop :=
  ∀ t₀ s₀, t.SameLinks t₀ → ∃ t₁ s₁, t.SameLinks t₁ ∧
    (forM is visitor.enter).run.run (t₀, s₀) = some (.ok (), t₁, s₁) ∧
      Walk.Leads walk (t₀, s₀) (t₁, s₁)

variable {visitor : Visitor σ ε} {walk walk₁ walk₂ : Nat → Walk σ ε Unit} {is js : List NodeId}

namespace Tree.Presents

theorem nil (t : Tree) (visitor : Visitor σ ε) : t.Presents visitor (fun _ => pure ()) [] :=
  fun t₀ s₀ hsame => ⟨t₀, s₀, hsame, rfl, 0, fun _ _ => rfl⟩

/-- A walk that goes one way and then another. -/
theorem after (h : t.Presents visitor walk₁ is) (h' : t.Presents visitor walk₂ js)
    (hwalk : ∀ {t₀ t₁ : Tree} {s₀ s₁ : σ} {x : Tree × σ}, t.SameLinks t₀ → t.SameLinks t₁ →
      Walk.Leads walk₁ (t₀, s₀) (t₁, s₁) → Walk.Leads walk₂ (t₁, s₁) x →
        Walk.Leads walk (t₀, s₀) x) : t.Presents visitor walk (is ++ js) := by
  intro t₀ s₀ hsame
  obtain ⟨t₁, s₁, hsame₁, hrun, hleads⟩ := h t₀ s₀ hsame
  obtain ⟨t₂, s₂, hsame₂, hrun', hleads'⟩ := h' t₁ s₁ hsame₁
  refine ⟨t₂, s₂, hsame₂, ?_, hwalk hsame hsame₁ hleads hleads'⟩
  rw [List.forM_append, run_bind_of_ok hrun, hrun']

/-- A walk that is led where another one is led. -/
theorem imp (h : t.Presents visitor walk₁ is)
    (hwalk : ∀ {t₀ t₁ : Tree} {s₀ s₁ : σ}, t.SameLinks t₀ → t.SameLinks t₁ →
      Walk.Leads walk₁ (t₀, s₀) (t₁, s₁) → Walk.Leads walk (t₀, s₀) (t₁, s₁)) :
    t.Presents visitor walk is := by
  intro t₀ s₀ hsame
  obtain ⟨t₁, s₁, hsame₁, hrun, hleads⟩ := h t₀ s₀ hsame
  exact ⟨t₁, s₁, hsame₁, hrun, hwalk hsame hsame₁ hleads⟩

/-- Showing a node comes first, and then what is below it. -/
theorem through (hv : visitor.Steady)
    (h : t.Presents visitor (fun n => Walk.below visitor n id (t.node id)) is) :
    t.Presents visitor (fun n => Walk.through visitor n id) (id :: is) := by
  intro t₀ s₀ hsame
  obtain ⟨t₁, s₁, hrun, hsame₁⟩ := hv id t₀ s₀
  obtain ⟨t₂, s₂, hsame₂, hrun', hleads⟩ := h t₁ s₁ (hsame.trans hsame₁)
  have henter : (visitor.enter id).run.run (t₀, s₀) = some (.ok (), t₁, s₁) := by
    rw [Visitor.enter, run_bind_of_ok hrun]
    rfl
  refine ⟨t₂, s₂, hsame₂, ?_, .through_into hrun (hleads.congr fun n => ?_)⟩
  · rw [List.forM_cons, run_bind_of_ok henter, hrun']
  · -- Where a walk goes below a node is decided by links.
    have halike := (hsame.trans hsame₁).alike id
    generalize t.node id = node, t₁.node id = node' at halike
    cases halike <;> rfl

theorem toParameters {before rest : List NodeId} {shown : NodeId → List NodeId}
    (hparameters : (t.node id).parameters = before ++ rest)
    (h : ∀ p ∈ rest, t.Presents visitor (fun n => Walk.through visitor n p) (shown p)) :
    t.Presents visitor (fun n => Walk.toParameters visitor n id before.length)
      (rest.flatMap shown) := by
  induction rest generalizing before with
  | nil =>
    refine (nil t visitor).imp fun hsame _ hdone => ?_
    have hnone : t.parameter id before.length = none := by
      rw [Tree.parameter, hparameters, List.append_nil, List.getElem?_eq_none (Nat.le_refl _)]
    obtain ⟨enough, hrun⟩ := hdone
    obtain ⟨rfl, rfl⟩ := Prod.mk.inj (Prod.mk.inj (Option.some.inj (hrun enough (Nat.le_refl _)))).2
    exact .toParameters_nil (by rw [hsame.parameter_eq, hnone])
  | cons p rest ih =>
    have hsome : t.parameter id before.length = some p := by
      rw [Tree.parameter, hparameters, List.getElem?_append_right (Nat.le_refl _), Nat.sub_self]
      rfl
    have hrest : (t.node id).parameters = (before ++ [p]) ++ rest := by
      rw [hparameters, List.append_assoc, List.singleton_append]
    rw [List.forall_mem_cons] at h
    have hothers := ih hrest h.2
    rw [List.length_append] at hothers
    exact h.1.after hothers fun hsame _ hfirst hnext =>
      hfirst.toParameters_cons (by rw [hsame.parameter_eq, hsome]) hnext

theorem alongChain {head : NodeId} {tail : Option NodeId} (hnode : t.node id = .sequence head tail)
    (h : t.Presents visitor (fun n => Walk.through visitor n head) is)
    (htail : t.Presents visitor
      (fun n => tail.forM fun next => Walk.alongChain visitor n next) js) :
    t.Presents visitor (fun n => Walk.alongChain visitor n id) (is ++ js) := by
  refine h.after htail fun hsame hsame' hfirst hnext => ?_
  have hhead : t.head id = some head := Tree.head_of_node hnode
  exact hfirst.alongChain_next (by rw [hsame.head_eq, hhead]) (by rw [hsame'.head_eq, hhead])
    (by rw [hsame'.tail_eq, Tree.tail_of_node hnode]) hnext

end Tree.Presents

/-- A walk that keeps all links goes below a node as a visit does. -/
theorem Tree.Ends.presents (hv : visitor.Steady) {limit : Nat} (h : t.Ends limit id) :
    (t.isSequence id = true → t.Presents visitor (fun n => Walk.alongChain visitor n id)
      (t.shownBelow limit id)) ∧
    t.Presents visitor (fun n => Walk.through visitor n id) (id :: t.shownBelow limit id) := by
  induction limit generalizing id with
  | zero => exact absurd (h.length_lt [] id rfl) (Nat.not_lt_zero _)
  | succ limit ih =>
    have hchild : ∀ child ∈ (t.node id).children,
        t.Presents visitor (fun n => Walk.through visitor n child)
          (child :: t.shownBelow limit child) := fun child hmem => (ih (h.child hmem)).2
    have hproper := h.proper id (Tree.Reaches.refl id)
    have hchain : t.isSequence id = true → t.Presents visitor
        (fun n => Walk.alongChain visitor n id) (t.shownBelow (limit + 1) id) := by
      intro hsequence
      obtain ⟨head, tail, hnode⟩ := Tree.exists_of_isSequence hsequence
      rw [Tree.shownBelow, hnode]
      cases tail with
      | none =>
        rw [hnode] at hchild
        exact .alongChain hnode (hchild head List.mem_cons_self) (.nil t visitor)
      | some next =>
        have hnext : next ∈ (t.node id).children := by
          rw [hnode]
          simp [Node.children]
        rw [hnode] at hchild hproper
        exact .alongChain hnode (hchild head List.mem_cons_self)
          ((ih (h.child hnext)).1 (hproper.2 next rfl))
    refine ⟨hchain, Tree.Presents.through hv ?_⟩
    cases hnode : t.node id with
    | sequence head tail => exact hchain (by rw [Tree.isSequence, hnode]; rfl)
    | literal | empty =>
      rw [Tree.shownBelow, hnode]
      exact .nil t visitor
    | group fence inner =>
      rw [hnode] at hchild
      rw [Tree.shownBelow, hnode]
      dsimp only [Node.children]
      rw [List.flatMap_singleton]
      exact hchild inner List.mem_cons_self
    | script marker operand =>
      rw [hnode] at hchild
      rw [Tree.shownBelow, hnode]
      have hoperand : t.operand id = some operand := by rw [Tree.operand, hnode]
      dsimp only [Node.children]
      rw [List.flatMap_singleton]
      exact (hchild operand List.mem_cons_self).imp fun hsame hsame' hshown =>
        hshown.toOperand (by rw [hsame.operand_eq, hoperand]) (by rw [hsame'.operand_eq, hoperand])
    | command name parameters =>
      rw [hnode] at hchild
      rw [Tree.shownBelow, hnode]
      have hparameters : (t.node id).parameters = [] ++ parameters := by rw [hnode]; rfl
      exact .toParameters hparameters hchild
    | block name parameters body =>
      rw [hnode] at hchild
      rw [Tree.shownBelow, hnode]
      have hparameters : (t.node id).parameters = [] ++ parameters := by rw [hnode]; rfl
      have hall := Tree.Presents.toParameters hparameters fun p hp =>
        hchild p (List.mem_append_left _ hp)
      dsimp only [Node.children]
      rw [List.flatMap_append, List.flatMap_singleton]
      refine hall.after (hchild body (by simp [Node.children])) fun _ hsame hparts hbody => ?_
      have halike := hsame.alike id
      rw [hnode] at halike
      generalize hnode' : Tree.node _ id = node at halike
      cases halike
      exact hparts.below_block hnode' hbody

/-- A walk that keeps all links does with the nodes of a visit what its visitor does with them. -/
theorem Tree.Linked.walks_as_visit {top : NodeId} (h : t.Linked top) (hv : visitor.Steady) (s : σ) :
    ∃ t' s', (forM (t.visited top) visitor.enter).run.run (t, s) = some (.ok (), t', s') ∧
      Walk.Leads (fun n => Walk.through visitor n top) (t, s) (t', s') := by
  obtain ⟨t', s', -, hrun, hleads⟩ := (h.ends.presents hv).2 t s (.refl t)
  rw [Tree.visited_eq]
  exact ⟨t', s', hrun, hleads⟩

end

namespace Tree

variable {t : Tree} {id top : NodeId}

/-! ## The order of children -/

/-- A node and what is under it, each node before its children, at most `limit` nodes down. -/
def preorderUpTo (t : Tree) : Nat → NodeId → List NodeId
  | 0, _ => []
  | limit + 1, id => id :: (t.node id).children.flatMap (t.preorderUpTo limit)

/-- A node and everything under it, each node before its children and these in their order. -/
def preorder (t : Tree) (id : NodeId) : List NodeId := t.preorderUpTo t.size id

/-- Whether a node is a later cell of a chain. -/
def isTailCell (t : Tree) (id : NodeId) : Bool := (t.parent id).any fun up => t.tail up == some id

/-- In the order of children come all positions of a part, each as often as the part has it. -/
theorem coe_preorderUpTo {x : Part} {up : Option NodeId} {limit : Nat} (h : x.Fits t up)
    (hlimit : Multiset.card x.ids ≤ limit) : ↑(t.preorderUpTo limit x.id) = x.ids := by
  induction limit generalizing x up with
  | zero => exact absurd x.id_mem_ids (Multiset.card_eq_zero.mp (Nat.le_zero.mp hlimit) ▸ by simp)
  | succ limit ih =>
    have hall : ∀ ys ⊆ x.children, (↑((ys.map Part.id).flatMap (t.preorderUpTo limit)) :
        Multiset NodeId) = (ys.map Part.ids).sum := by
      intro ys hys
      induction ys with
      | nil => rfl
      | cons y ys ihys =>
        obtain ⟨hy, hys⟩ := List.cons_subset.mp hys
        have hlt := Part.card_lt_of_mem_children hy
        rw [List.map_cons, List.flatMap_cons, ← Multiset.coe_add, ihys hys,
          ih (h.children y hy) (by omega), List.map_cons, List.sum_cons]
    rw [preorderUpTo, h.node, h.node_children, ← Multiset.cons_coe, hall _ (List.Subset.refl _),
      x.ids_eq, Multiset.singleton_add]

theorem Linked.preorder_lists (h : t.Linked top) :
    (t.preorder top).Nodup ∧ ∀ i, i ∈ t.preorder top ↔ t.Reaches top i := by
  obtain ⟨x, rfl, hx, hn⟩ := h.exists_part
  have hids := coe_preorderUpTo hx (Plan.card_le_of_lt hn hx.lt_size)
  refine ⟨Multiset.coe_nodup.mp (hids ▸ hn), fun i => ?_⟩
  rw [hx.reaches_iff, ← hids]
  exact Multiset.mem_coe.symm

/-- What a visit shows is everything in the order of children, but for the later cells. -/
theorem Linked.filter_preorderUpTo (h : t.Linked top) {limit : Nat} (hid : t.Reaches top id)
    (hends : t.Shallow limit id) :
    (t.preorderUpTo limit id).filter (fun i => !t.isTailCell i) =
      (if t.isTailCell id then [] else [id]) ++ t.shownBelow limit id := by
  induction limit generalizing id with
  | zero => exact absurd (hends [] id rfl) (Nat.not_lt_zero _)
  | succ limit ih =>
    have hchild : ∀ child ∈ (t.node id).children,
        (t.preorderUpTo limit child).filter (fun i => !t.isTailCell i) =
          (if t.tail id = some child then [] else [child]) ++ t.shownBelow limit child := by
      intro child hmem
      rw [ih (hid.trans (reaches_child hmem)) (hends.child hmem), isTailCell,
        h.parent id hid child hmem]
      simp only [Option.any_some, beq_iff_eq]
    have hfirst : ∀ is, (id :: is).filter (fun i => !t.isTailCell i) =
        (if t.isTailCell id then [] else [id]) ++ is.filter fun i => !t.isTailCell i := by
      intro is
      rw [List.filter_cons]
      cases t.isTailCell id <;> rfl
    rw [preorderUpTo, hfirst, shownBelow, List.filter_flatMap]
    congr 1
    by_cases hnext : ∃ next, t.tail id = some next
    · obtain ⟨next, hnext⟩ := hnext
      obtain ⟨head, hnode⟩ := exists_of_tail hnext
      have hproper := h.proper id hid
      rw [hnode] at hproper hchild
      -- The element of a cell is no cell, so it is not the next one.
      have hne : t.tail id ≠ some head := by
        intro heq
        have hsequence := hproper.2 head (hnext.symm.trans heq)
        rw [hproper.1] at hsequence
        cases hsequence
      have hhead := hchild head List.mem_cons_self
      have htail := hchild next (by simp [Node.children])
      rw [if_neg hne] at hhead
      rw [if_pos hnext] at htail
      simp [hnode, Node.children, hhead, htail]
    · have hnone : t.tail id = none := Option.eq_none_iff_forall_ne_some.mpr fun next heq =>
        hnext ⟨next, heq⟩
      have hflat : ((t.node id).children.flatMap fun child =>
          (t.preorderUpTo limit child).filter fun i => !t.isTailCell i) =
            (t.node id).children.flatMap fun child => child :: t.shownBelow limit child := by
        refine List.flatMap_congr fun child hmem => ?_
        rw [hchild child hmem, hnone]
        rfl
      rw [hflat]
      cases hnode : t.node id with
      | sequence head tail =>
        rw [tail_of_node hnode] at hnone
        rw [hnone]
      | literal | empty | group | script | command | block => rfl

theorem Linked.visited_eq_filter (h : t.Linked top) :
    t.visited top = (t.preorder top).filter fun i => !t.isTailCell i := by
  have htop : t.isTailCell top = false := by
    rw [isTailCell, h.parent_top]
    rfl
  rw [preorder, h.filter_preorderUpTo (Reaches.refl top) h.ends.length_lt, htop, visited_eq]
  rfl

theorem Linked.nodup_visited (h : t.Linked top) : (t.visited top).Nodup := by
  rw [h.visited_eq_filter]
  exact h.preorder_lists.1.filter _

theorem Linked.mem_visited (h : t.Linked top) {i : NodeId} :
    i ∈ t.visited top ↔ t.Reaches top i ∧ t.isTailCell i = false := by
  rw [h.visited_eq_filter, List.mem_filter, h.preorder_lists.2, Bool.not_eq_true']

/-- The later cells of a chain are cells. -/
theorem Linked.isSequence_of_isTailCell (h : t.Linked top) (hid : t.Reaches top id)
    (htail : t.isTailCell id = true) : t.isSequence id = true := by
  rw [isTailCell, Option.any_eq_true] at htail
  obtain ⟨up, hparent, hnext⟩ := htail
  rcases hid.cases with rfl | ⟨up', hup, hmem⟩
  · rw [h.parent_top] at hparent
    cases hparent
  · rw [h.parent up' hup id hmem] at hparent
    obtain rfl := Option.some.inj hparent
    obtain ⟨head, hnode⟩ := exists_of_tail (beq_iff_eq.mp hnext)
    have hproper := h.proper up' hup
    rw [hnode] at hproper
    exact hproper.2 id rfl

end Tree

end Formulary
