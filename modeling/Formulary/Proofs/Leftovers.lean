import Formulary.Proofs.Blocks
import Formulary.Proofs.Grounded

/-!
# What block resolution leaves behind

When a block comes into the place of two commands and what stood between, the commands and some
cells stay in the store with what they had under them. This module shows that the store stays
grounded. It needs to know nothing of the formula: the block and what comes after it are made of
nodes from below the cell that takes them up.

* `Tree.Thins`: nodes lose children, and new ones are added.
* `Grounded.cutBetween`, `Grounded.insertAllAfter`, `Grounded.spliceBlock`: the programs.
-/

namespace Formulary

namespace Tree

variable {t t' t'' : Tree} {cell i : NodeId} {node : Node} {r : Except Fault Unit}

/-- All nodes that were there have only children that they had before. -/
structure Thins (t t' : Tree) : Prop where
  size_le : t.size ≤ t'.size
  isSequence_eq : ∀ i < t.size, t'.isSequence i = t.isSequence i
  children_sub : ∀ i < t.size, ∀ child ∈ (t'.node i).children, child ∈ (t.node i).children

theorem Thins.trans (h : t.Thins t') (h' : t'.Thins t'') : t.Thins t'' where
  size_le := h.size_le.trans h'.size_le
  isSequence_eq i hi :=
    (h'.isSequence_eq i (hi.trans_le h.size_le)).trans (h.isSequence_eq i hi)
  children_sub i hi child hchild :=
    h.children_sub i hi child (h'.children_sub i (hi.trans_le h.size_le) child hchild)

/-- What was there reaches no more than before. -/
theorem Thins.reaches {j : NodeId} (h : t.Thins t') (ht : t.Grounded) (hi : i < t.size)
    (hreach : t'.Reaches i j) : t.Reaches i j := by
  obtain ⟨path, hpath⟩ := hreach
  induction path generalizing i with
  | nil =>
    obtain rfl := Option.some.inj hpath
    exact Reaches.refl i
  | cons k path ih =>
    rw [follow] at hpath
    obtain ⟨child, hk, hpath⟩ := Option.bind_eq_some_iff.mp hpath
    have hchild := h.children_sub i hi child (List.mem_of_getElem? hk)
    exact (reaches_child hchild).trans (ih (ht.lt_size i child hchild) hpath)

theorem thins_of_node_eq (hsize : t.size ≤ t'.size) (hnode : ∀ i < t.size, t'.node i = t.node i) :
    t.Thins t' where
  size_le := hsize
  isSequence_eq i hi := by rw [isSequence, hnode i hi, isSequence]
  children_sub i hi child hchild := by rwa [hnode i hi] at hchild

theorem thins_setParent (i : NodeId) (up : Option NodeId) : t.Thins (t.setParent i up) :=
  thins_of_node_eq (by simp) fun j _ => node_setParent i j

theorem thins_grown (node : Node) (span : Span) : t.Thins (t.grown node span) :=
  thins_of_node_eq (by simp) fun i hi => node_grown i (Nat.ne_of_lt hi)

theorem thins_setTail_none (h : t.isSequence cell = true) : t.Thins (t.setTail cell none) := by
  obtain ⟨head, tail, hnode⟩ := exists_of_isSequence h
  refine ⟨by simp, fun i _ => ?_, fun i _ child hchild => ?_⟩
  · rw [isSequence, node_setTail hnode]
    split
    · rename_i heq
      rw [← heq, h]
      rfl
    · rfl
  · rw [node_setTail hnode] at hchild
    split at hchild
    · rename_i heq
      rw [← heq, hnode, List.mem_singleton.mp hchild]
      exact List.mem_cons_self
    · exact hchild

/-- A new chain without elements. -/
theorem Grounded.chain_nil {first : NodeId} (h : t.Grounded) (hfirst : first < t.size) (place : Span) :
    ∃ body t', (chain place []).run t = (body, t') ∧ t'.Grounded ∧ t.Thins t' ∧
      t'.isSequence body = true ∧ ¬t'.Reaches body first := by
  have hnone : ∀ child ∈ Node.empty.children, child < t.size := by simp [Node.children]
  have hproper : t.ProperChildren .empty := trivial
  have hempty := h.grown hproper hnone place
  have hproper' : (t.grown .empty place).ProperChildren (.sequence t.size none) := by
    refine ⟨?_, by simp⟩
    rw [isSequence, node_grown_size]
    rfl
  have hlt : ∀ child ∈ (Node.sequence t.size none).children, child < (t.grown .empty place).size := by
    simp [Node.children]
  refine ⟨(t.grown .empty place).size, (t.grown .empty place).grown (.sequence t.size none) place, rfl,
    hempty.grown hproper' hlt place, (thins_grown _ place).trans (thins_grown _ place), ?_, ?_⟩
  · rw [isSequence, node_grown_size]
    rfl
  · refine hempty.not_reaches_grown hlt (by simpa using Nat.lt_succ_of_lt hfirst) fun child hchild => ?_
    rw [List.mem_singleton.mp hchild]
    exact h.not_reaches_grown hnone hfirst (by simp [Node.children])

/-- A chain of its own is cut out between two cells. -/
theorem Grounded.cutBetween {first last body : NodeId} {place : Span} (h : t.Grounded)
    (hfirst : first < t.size) (hrun : (cutBetween first last place).run t = (body, t')) :
    t'.Grounded ∧ t.Thins t' ∧ t'.isSequence body = true ∧ ¬t'.Reaches body first := by
  rw [Tree.cutBetween, run_get_bind] at hrun
  cases hstart : (t.tail first).filter (· ≠ last) with
  | none =>
    rw [hstart] at hrun
    obtain ⟨body', t'', hrun', hempty⟩ := h.chain_nil hfirst place
    obtain ⟨rfl, rfl⟩ := Prod.mk.inj (hrun.symm.trans hrun')
    exact hempty
  | some start =>
    rw [hstart] at hrun
    obtain ⟨htail, -⟩ := Option.filter_eq_some_iff.mp hstart
    obtain ⟨head, hnode⟩ := exists_of_tail htail
    have hmem : start ∈ (t.node first).children := by
      rw [hnode]
      simp [Node.children]
    have hlt := h.lt_size first start hmem
    have hproper := h.proper first
    rw [hnode] at hproper
    -- The last of the cells that are cut out loses its next one, if it is found.
    have hcut : ∀ u : Tree, u.Grounded → t.Thins u →
        (u.setParent start none).Grounded ∧ t.Thins (u.setParent start none) ∧
          (u.setParent start none).isSequence start = true ∧
          ¬(u.setParent start none).Reaches start first := by
      intro u hu hthins
      have hthins' := hthins.trans (thins_setParent start none)
      exact ⟨hu.setParent start none, hthins', (hthins'.isSequence_eq start hlt).trans
        (hproper.2 start rfl), fun hback =>
          h.not_reaches_of_child hmem (hthins'.reaches h hlt hback)⟩
    dsimp only at hrun
    split at hrun
    · rename_i before head' hfind
      have hbefore : t.isSequence before = true :=
        (reaches_of_mem_cells (List.mem_of_find?_eq_some hfind)).2
      obtain ⟨head'', tail, hnode'⟩ := exists_of_isSequence hbefore
      obtain ⟨rfl, rfl⟩ := Prod.mk.inj hrun
      exact hcut _ (h.setTail hnode' (by rintro _ ⟨⟩) (by rintro _ ⟨⟩)) (thins_setTail_none hbefore)
    · obtain ⟨rfl, rfl⟩ := Prod.mk.inj hrun
      exact hcut t h (thins_of_node_eq (Nat.le_refl _) fun _ _ => rfl)

/-- What does not reach a cell does not reach the new one after it. -/
theorem Grounded.not_reaches_inserted {node next : NodeId} (h : t.Grounded) (hi : i < t.size)
    (hback : ¬t.Reaches i cell) (hrun : (Tree.insertAfter cell node).run.run t = (.ok next, t')) :
    ¬t'.Reaches i next := by
  rcases insertAfter_cases hrun with ⟨⟨e, he⟩, -⟩ | ⟨hnext, hcell, -, rfl⟩
  · cases he
  obtain rfl := Except.ok.inj hnext
  obtain ⟨head, tail, hnode⟩ := exists_of_isSequence hcell
  have hgrown : ∀ j, (t.grown (.sequence node (t.tail cell)) (t.span node)).Reaches i j →
      t.Reaches i j := fun j => reaches_of_not_reaches node_grown (h.not_reaches_size hi)
  have hcell' : (t.grown (.sequence node (t.tail cell)) (t.span node)).node cell =
      .sequence head tail := by
    rw [node_grown cell (Nat.ne_of_lt (lt_size_of_isSequence hcell)), hnode]
  have hset : ∀ j, j ≠ cell →
      ((t.grown (.sequence node (t.tail cell)) (t.span node)).setTail cell (some t.size)).node j =
        (t.grown (.sequence node (t.tail cell)) (t.span node)).node j := by
    intro j hj
    rw [node_setTail hcell', if_neg (Ne.symm hj)]
  intro hreach
  exact h.not_reaches_size hi (hgrown _
    (reaches_of_not_reaches hset (fun hreach => hback (hgrown _ hreach)) hreach))

/-- Elements that do not reach a cell are put after it. -/
theorem Grounded.insertAllAfter {nodes : List NodeId} {r : Except SurgeryError Unit}
    (h : t.Grounded) (hlt : ∀ n ∈ nodes, n < t.size) (hback : ∀ n ∈ nodes, ¬t.Reaches n cell)
    (hrun : (insertAllAfter cell nodes).run.run t = (r, t')) : t'.Grounded := by
  induction nodes generalizing t cell with
  | nil =>
    obtain rfl : t = t' := (Prod.mk.inj hrun).2
    exact h
  | cons n nodes ih =>
    rw [Tree.insertAllAfter, Edit.run_modify_bind] at hrun
    have hloose := h.setParent n none
    have hlt' : ∀ m ∈ n :: nodes, m < (t.setParent n none).size := by simpa using hlt
    have hback' : ∀ m ∈ n :: nodes, ¬(t.setParent n none).Reaches m cell := by
      simpa only [reaches_setParent] using hback
    rw [List.forall_mem_cons] at hlt' hback'
    rcases hinsert : (Tree.insertAfter cell n).run.run (t.setParent n none) with ⟨r', u⟩
    have hu := hloose.insertAfter hlt'.1 hback'.1 hinsert
    cases r' with
    | error e =>
      rw [Edit.run_bind_of_error hinsert] at hrun
      obtain rfl := (Prod.mk.inj hrun).2
      exact hu
    | ok next =>
      rw [Edit.run_bind_of_ok hinsert] at hrun
      exact ih hu (fun m hm => (hlt'.2 m hm).trans_le (alters_insertAfter hinsert).size_le)
        (fun m hm => hloose.not_reaches_inserted (hlt'.2 m hm) (hback'.2 m hm) hinsert) hrun

theorem mem_children_of_parameters {p : NodeId} (h : p ∈ node.parameters) : p ∈ node.children := by
  cases node with
  | command name parameters => exact h
  | block name parameters body => exact List.mem_append_left _ h
  | literal | empty | sequence | group | script => cases h

theorem ProperChildren.parameters (h : t.ProperChildren node) :
    ∀ p ∈ node.parameters, t.isSequence p = false := by
  cases node with
  | command name parameters => exact h
  | block name parameters body => exact h.1
  | literal | empty | sequence | group | script => exact fun p hp => by cases hp

/-- An element is reached from its cell. -/
theorem reaches_of_owningCell {id : NodeId} (h : t.owningCell id = some cell) :
    t.Reaches cell id := by
  rw [owningCell] at h
  split at h
  · rw [Option.some.inj h]
    exact Reaches.refl cell
  · obtain ⟨-, hhead⟩ := Option.filter_eq_some_iff.mp h
    have hhead' := beq_iff_eq.mp hhead
    obtain ⟨head, tail, hnode⟩ := exists_of_isSequence (isSequence_of_head hhead')
    rw [head_of_node hnode] at hhead'
    refine reaches_child ?_
    rw [hnode, Option.some.inj hhead']
    exact List.mem_cons_self

/-- A block and what comes after it are taken up by a cell that they came from below of. -/
theorem Grounded.takeBlock {start stop body : NodeId} {params : List NodeId} (h : t.Grounded)
    (hstart : t.isSequence start = true)
    (hparams : ∀ p ∈ params, t.isSequence p = false ∧ p < t.size ∧ ¬t.Reaches p start)
    (hbody : t.isSequence body = true) (hback : ¬t.Reaches body start)
    (hrest : ∀ next ∈ t.tail stop, ¬t.Reaches next start) (name : String) (place : Span)
    (id id' : NodeId) :
    ((((t.grown (.block name params body) place).setParent id none).setParent id' none).setCell start
      t.size (t.tail stop)).Grounded := by
  have hlt : ∀ child ∈ (Node.block name params body).children, child < t.size := by
    intro child hchild
    rcases List.mem_append.mp hchild with hchild | hchild
    · exact (hparams child hchild).2.1
    · rw [List.mem_singleton.mp hchild]
      exact lt_size_of_isSequence hbody
  have hproper : t.ProperChildren (.block name params body) := ⟨fun p hp => (hparams p hp).1, hbody⟩
  have hrest' : ∀ next ∈ t.tail stop, t.isSequence next = true := by
    intro next hnext
    obtain ⟨head, hnode⟩ := exists_of_tail hnext
    have hproper := h.proper stop
    rw [hnode] at hproper
    exact hproper.2 next rfl
  have hgrown := h.grown hproper hlt place
  have hold := (thins_grown (t := t) (.block name params body) place).isSequence_eq
  refine ((hgrown.setParent id none).setParent id' none).setCell ?_ ⟨?_, fun next hnext => ?_⟩
    (by simp) fun child hchild => ?_
  · rw [isSequence_setParent, isSequence_setParent, hold start (lt_size_of_isSequence hstart), hstart]
  · rw [isSequence_setParent, isSequence_setParent, isSequence, node_grown_size]
    rfl
  · have hsequence := hrest' next hnext
    rw [isSequence_setParent, isSequence_setParent, hold next (lt_size_of_isSequence hsequence),
      hsequence]
  · rw [reaches_setParent, reaches_setParent]
    rcases List.mem_cons.mp hchild with rfl | hchild
    · refine h.not_reaches_grown hlt (lt_size_of_isSequence hstart) fun child hchild => ?_
      rcases List.mem_append.mp hchild with hchild | hchild
      · exact (hparams child hchild).2.2
      · rw [List.mem_singleton.mp hchild]
        exact hback
    · have hnext := Option.mem_toList.mp hchild
      have hin := lt_size_of_isSequence (hrest' child hnext)
      exact fun hreach => hrest child hnext
        (reaches_of_not_reaches node_grown (h.not_reaches_size hin) hreach)

/-- What did not reach the cell does not reach it afterwards. -/
theorem Grounded.not_reaches_taken {start block : NodeId} {tail : Option NodeId} {place : Span}
    {id id' : NodeId} (h : t.Grounded) (hstart : t.isSequence start = true) (hi : i < t.size)
    (hback : ¬t.Reaches i start) :
    ¬((((t.grown node place).setParent id none).setParent id' none).setCell start block tail).Reaches
      i start := by
  intro hreach
  have hsequence : (((t.grown node place).setParent id none).setParent id' none).isSequence start =
      true := by
    rw [isSequence_setParent, isSequence_setParent,
      (thins_grown node place).isSequence_eq start (lt_size_of_isSequence hstart), hstart]
  have hset : (((t.grown node place).setParent id none).setParent id' none).Reaches i start :=
    reaches_place (fun j hj => by rw [node_setCell hsequence, if_neg (Ne.symm hj)]) hreach
  rw [reaches_setParent, reaches_setParent] at hset
  exact hback (reaches_of_not_reaches node_grown (h.not_reaches_size hi) hset)

theorem Grounded.spliceBlock {first last : BlockMarker} (h : t.Grounded)
    (hchain : t.inOneChain first.command last.command = true)
    (hrun : (spliceBlock first last).run.run t = (r, t')) : t'.Grounded := by
  rw [Tree.spliceBlock, Edit.run_get_bind] at hrun
  rw [inOneChain] at hchain
  cases hstart : t.owningCell first.command with
  | none =>
    rw [hstart] at hchain
    cases hchain
  | some start =>
    cases hstop : t.owningCell last.command with
    | none =>
      rw [hstart, hstop] at hchain
      cases hchain
    | some stop =>
      rw [hstart, hstop] at hrun hchain
      obtain ⟨x, hx, heq⟩ := List.any_eq_true.mp hchain
      obtain rfl := beq_iff_eq.mp heq
      obtain ⟨hreach, hsequence⟩ := reaches_of_mem_cells hx
      dsimp only at hrun
      rcases hcut : (Tree.cutBetween start x.1
        (Span.point (t.span first.command).stop)).run t with ⟨body, t₁⟩
      rw [Edit.run_lift_bind hcut, Edit.run_get_bind, Edit.run_lift_bind (run_alloc_eq _ _ t₁),
        Edit.run_modify_bind] at hrun
      obtain ⟨r', hinsert⟩ := Edit.exists_run_of_reportedAt hrun
      have hstart' := isSequence_of_owningCell hstart
      obtain ⟨h₁, hthins, hbody, hback⟩ := h.cutBetween (lt_size_of_isSequence hstart') hcut
      -- What came from below the first cell does not reach it, before or after the cut.
      have hbelow : ∀ {up child}, t.Reaches start up → child ∈ (t.node up).children →
          child < t.size ∧ ¬t₁.Reaches child start := by
        intro up child hup hchild
        have hlt := h.lt_size up child hchild
        exact ⟨hlt, fun hreach => h.not_reaches_of_below hup hchild (hthins.reaches h hlt hreach)⟩
      have hparams : ∀ p ∈ (t.node first.command).parameters.drop 1,
          t₁.isSequence p = false ∧ p < t₁.size ∧ ¬t₁.Reaches p start := by
        intro p hp
        have hp' := List.mem_of_mem_drop hp
        obtain ⟨hlt, hnot⟩ := hbelow (reaches_of_owningCell hstart) (mem_children_of_parameters hp')
        exact ⟨(hthins.isSequence_eq p hlt).trans ((h.proper _).parameters p hp'),
          hlt.trans_le hthins.size_le, hnot⟩
      have hrest : ∀ next ∈ t₁.tail x.1, ¬t₁.Reaches next start := by
        intro next hnext
        obtain ⟨head, hnode⟩ := exists_of_tail hnext
        refine (hbelow hreach (hthins.children_sub x.1 (lt_size_of_isSequence hsequence) next ?_)).2
        rw [hnode]
        simp [Node.children]
      have hsequence₁ := (hthins.isSequence_eq start (lt_size_of_isSequence hstart')).trans hstart'
      have htaken := h₁.takeBlock hsequence₁ hparams hbody hback hrest first.name
        ((t.span first.command).union (t.span last.command)) first.command last.command
      have hafter : ∀ q ∈ (t.node last.command).parameters.drop 1,
          q < t₁.size ∧ ¬t₁.Reaches q start := by
        intro q hq
        obtain ⟨hlt, hnot⟩ := hbelow (hreach.trans (reaches_of_owningCell hstop))
          (mem_children_of_parameters (List.mem_of_mem_drop hq))
        exact ⟨hlt.trans_le hthins.size_le, hnot⟩
      refine htaken.insertAllAfter (fun q hq => ?_) (fun q hq => ?_) hinsert
      · rw [size_setCell, size_setParent, size_setParent, size_grown]
        exact Nat.lt_succ_of_lt (hafter q hq).1
      · exact h₁.not_reaches_taken hsequence₁ (hafter q hq).1 (hafter q hq).2

theorem Grounded.pairBlocks {opened markers : List BlockMarker} (h : t.Grounded)
    (hrun : (pairBlocks opened markers).run.run t = (r, t')) : t'.Grounded := by
  induction markers generalizing t opened with
  | nil =>
    rw [Tree.pairBlocks] at hrun
    split at hrun
    · obtain rfl : t = t' := (Prod.mk.inj hrun).2
      exact h
    · obtain rfl : t = t' := (Prod.mk.inj hrun).2
      exact h
  | cons marker markers ih =>
    unfold Tree.pairBlocks at hrun
    cases hside : marker.side with
    | opens =>
      rw [hside] at hrun
      exact ih h hrun
    | closes =>
      rw [hside] at hrun
      cases opened with
      | nil =>
        obtain rfl : t = t' := (Prod.mk.inj hrun).2
        exact h
      | cons first opened =>
        rw [Edit.run_get_bind] at hrun
        cases hpair : t.pairError? first marker with
        | some e =>
          rw [hpair] at hrun
          obtain rfl : t = t' := (Prod.mk.inj hrun).2
          exact h
        | none =>
          rw [hpair] at hrun
          rcases hsplice : (Tree.spliceBlock first marker).run.run t with ⟨r', u⟩
          have hu := h.spliceBlock (Pairing.pairError?_eq_none hpair).2.2 hsplice
          cases r' with
          | error e =>
            rw [Edit.run_bind_of_error hsplice] at hrun
            obtain rfl := (Prod.mk.inj hrun).2
            exact hu
          | ok =>
            rw [Edit.run_bind_of_ok hsplice] at hrun
            exact ih hu hrun

theorem Grounded.resolveBlocks (h : t.Grounded) (hrun : resolveBlocks.run.run t = (r, t')) :
    t'.Grounded := by
  rw [Tree.resolveBlocks, Edit.run_get_bind] at hrun
  cases hcollect : BlockMarker.collect t with
  | error e =>
    rw [hcollect] at hrun
    obtain rfl : t = t' := (Prod.mk.inj hrun).2
    exact h
  | ok markers =>
    rw [hcollect] at hrun
    exact h.pairBlocks hrun

end Tree

end Formulary
