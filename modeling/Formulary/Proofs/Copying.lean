import Formulary.Proofs.Building
import Formulary.Tree.Copy

/-!
# Copies have the shape of what they copy

A copy stands at new positions only and hangs under nothing, and it has the shape of what it is a
copy of. So the store trades nothing for the positions of the copy.

* `Tree.copyUpTo_succ`: a node is copied on top of copies of its children.
* `descends_copyUpTo`: copies out of any store, deep enough to hold all.
* `run_graft`: a formula that is copied into a store.
* `depicts_extract`: a chain that is made a formula of its own.
* `Fits.run_deepCopy`: copies within one store.
-/

namespace Formulary

/-! ## Copies of nodes -/

/-- A node with all positions in it forgotten. -/
def Node.bare : Node → Node
  | .literal text => .literal text
  | .empty => .empty
  | .sequence _ tail => .sequence 0 (tail.map fun _ => 0)
  | .group fence _ => .group fence 0
  | .script marker _ => .script marker 0
  | .command name parameters => .command name (parameters.map fun _ => 0)
  | .block name parameters _ => .block name (parameters.map fun _ => 0) 0

namespace Node

variable {node node' : Node} {ids : List NodeId}

/-- What belongs to the children of a node, in the order in which they are copied: a chain from its
end, and everything else from its first child on. -/
def copyOrder {α : Type} (node : Node) (as : List α) : List α :=
  if node.isSequence then as.reverse else as

/-- The same node over other children. -/
def atop (ids : List NodeId) : Node → Node
  | .literal text => .literal text
  | .empty => .empty
  | .sequence _ tail => .sequence (ids.headD 0) (tail.map fun _ => ids.getLastD 0)
  | .group fence _ => .group fence (ids.headD 0)
  | .script marker _ => .script marker (ids.headD 0)
  | .command name _ => .command name ids
  | .block name _ _ => .block name ids.dropLast (ids.getLastD 0)

theorem copyOrder_perm {α : Type} (node : Node) (as : List α) : (node.copyOrder as).Perm as := by
  rw [copyOrder]
  split
  · exact List.reverse_perm as
  · exact .refl as

theorem map_copyOrder {α β : Type} (node : Node) (f : α → β) (as : List α) :
    (node.copyOrder as).map f = node.copyOrder (as.map f) := by
  rw [copyOrder, copyOrder]
  split <;> simp

theorem copyOrder_copyOrder {α : Type} (node : Node) (as : List α) :
    node.copyOrder (node.copyOrder as) = as := by
  rw [copyOrder, copyOrder]
  split <;> simp

theorem children_atop (h : ids.length = node.children.length) : (node.atop ids).children = ids := by
  cases node with
  | literal | empty => exact (List.length_eq_zero_iff.mp h).symm
  | sequence head tail =>
    cases tail with
    | none =>
      obtain ⟨i, rfl⟩ := List.length_eq_one_iff.mp h
      rfl
    | some next =>
      obtain ⟨i, j, rfl⟩ := List.length_eq_two.mp h
      rfl
  | group | script =>
    obtain ⟨i, rfl⟩ := List.length_eq_one_iff.mp h
    rfl
  | command => rfl
  | block name ps body =>
    have hne : ids ≠ [] := by
      rintro rfl
      simp [children] at h
    rw [atop, children, List.getLastD_eq_getLast?, List.getLast?_eq_some_getLast hne,
      Option.getD_some, List.dropLast_append_getLast]

theorem bare_atop (h : ids.length = node.children.length) : (node.atop ids).bare = node.bare := by
  cases node with
  | sequence head tail => cases tail <;> rfl
  | literal | empty | group | script => rfl
  | command | block => simp_all [atop, bare, children]

theorem isSequence_atop (ids : List NodeId) (node : Node) :
    (node.atop ids).isSequence = node.isSequence := by
  cases node <;> rfl

theorem isSequence_bare (node : Node) : node.bare.isSequence = node.isSequence := by
  cases node <;> rfl

end Node

/-- A copy of a node stands on top of copies of its children. -/
theorem Tree.copyUpTo_succ (source : Tree) (place : Option Span) (n : Nat) (id : NodeId) :
    source.copyUpTo place (n + 1) id =
      ((source.node id).copyOrder (source.node id).children).mapM (source.copyUpTo place n) >>= fun
        ids => alloc ((source.node id).atop ((source.node id).copyOrder ids))
          (place.getD (source.span id)) := by
  rw [copyUpTo]
  rcases source.node id with text | _ | ⟨head, _ | next⟩ | ⟨fence, inner⟩ | ⟨marker, operand⟩ |
    ⟨name, parameters⟩ | ⟨name, parameters, body⟩ <;>
    simp [Node.copyOrder, Node.isSequence, Node.children, Node.atop]

namespace Plan

variable {source : Tree} (place : Option Span)

theorem descends_copyUpTo : Descends source
    (fun n p => ∀ t : Tree, ∃ (q : Plan) (t' : Tree),
      (source.copyUpTo place n p.id).run t = (q.id, t') ∧ q.Fits t' none ∧
        t.Trades t' 0 q.ids ∧ q.shape = p.shape)
    (fun n ps => ∀ t : Tree, ∃ (qs : List Plan) (t' : Tree),
      ((ps.map Plan.id).mapM (source.copyUpTo place n)).run t = (qs.map Plan.id, t') ∧
        AllFit t' none qs ∧ t.Trades t' 0 (idsOf qs) ∧ shapes qs = shapes ps)
    (fun n first row => ∀ t : Tree, ∃ (row' : Row) (first' : NodeId) (t' : Tree),
      (source.copyUpTo place n first).run t = (first', t') ∧ nextCell row' = some first' ∧
        RowFits t' none row' ∧ t.Trades t' 0 (rowIds row') ∧ rowShapes row' = rowShapes row) where
  literal n id text hnode t := by
    obtain ⟨hfits, htrades⟩ := Fits.grown_literal (t := t) text (place.getD (source.span id))
    refine ⟨_, _, ?_, hfits, htrades, by rw [shape, shape]⟩
    simp [Tree.copyUpTo, hnode, Tree.run_alloc_eq]
  empty n id hnode t := by
    obtain ⟨hfits, htrades⟩ := Fits.grown_empty (t := t) (place.getD (source.span id))
    refine ⟨_, _, ?_, hfits, htrades, by rw [shape, shape]⟩
    simp [Tree.copyUpTo, hnode, Tree.run_alloc_eq]
  group n id fence inner first hnode hfirst ih t := by
    obtain ⟨row, start, t₁, hrun, hstart, hfits, htrades, hshapes⟩ := ih t
    obtain ⟨hfits', htrades'⟩ := hfits.grown_group hstart htrades.nodup fence
      (place.getD (source.span id))
    refine ⟨_, _, ?_, hfits', htrades.trans htrades', by rw [shape, shape, hshapes]⟩
    simp only [Tree.copyUpTo, id_group, hnode]
    rw [Tree.run_bind_of_run hrun, Tree.run_alloc_eq]
  script n id marker operand hnode ih t := by
    obtain ⟨q, t₁, hrun, hfits, htrades, hshape⟩ := ih t
    obtain ⟨hfits', htrades'⟩ := hfits.grown_script htrades.nodup marker
      (place.getD (source.span id))
    refine ⟨_, _, ?_, hfits', htrades.trans htrades', by rw [shape, shape, hshape]⟩
    simp only [Tree.copyUpTo, id_script, hnode]
    rw [Tree.run_bind_of_run hrun, Tree.run_alloc_eq]
  command n id name ps hnode ih t := by
    obtain ⟨qs, t₁, hrun, hfits, htrades, hshapes⟩ := ih t
    obtain ⟨hfits', htrades'⟩ := AllFit.grown_command hfits.loose htrades.nodup name
      (place.getD (source.span id))
    refine ⟨_, _, ?_, hfits', htrades.trans htrades', by rw [shape, shape, hshapes]⟩
    simp only [Tree.copyUpTo, id_command, hnode]
    rw [Tree.run_bind_of_run hrun, Tree.run_alloc_eq]
  block n id name ps body first hnode hfirst ih ih' t := by
    obtain ⟨qs, t₁, hrun, hfits, htrades, hshapes⟩ := ih t
    obtain ⟨row, start, t₂, hrun', hstart, hfits', htrades', hshapes'⟩ := ih' t₁
    have hboth := htrades.step (zero_add _).symm htrades'
    rw [add_comm] at hboth
    obtain ⟨hfits'', htrades''⟩ := AllFit.grown_block
      (hfits.loose.of_keeps htrades'.keeps (by simp)) hfits' hstart hboth.nodup name
      (place.getD (source.span id))
    refine ⟨_, _, ?_, hfits'', hboth.trans htrades'', by rw [shape, shape, hshapes, hshapes']⟩
    simp only [Tree.copyUpTo, id_block, hnode]
    rw [Tree.run_bind_of_run hrun, Tree.run_bind_of_run hrun', Tree.run_alloc_eq]
  nil n t := ⟨[], t, rfl, allFit_nil, Tree.Trades.refl t Multiset.nodup_zero (by simp), rfl⟩
  cons n p ps ih ih' t := by
    obtain ⟨q, t₁, hrun, hfits, htrades, hshape⟩ := ih t
    obtain ⟨qs, t₂, hrun', hfits', htrades', hshapes⟩ := ih' t₁
    refine ⟨q :: qs, t₂, ?_, ?_, ?_, by simp [hshape, hshapes]⟩
    · rw [List.map_cons, List.mapM_cons, Tree.run_bind_of_run hrun, Tree.run_bind_of_run hrun']
      rfl
    · exact allFit_cons.mpr ⟨hfits.of_keeps htrades'.keeps (by simp), hfits'⟩
    · rw [idsOf_cons, add_comm]
      exact htrades.step (zero_add _).symm htrades'
  last n cell p hnode ih t := by
    obtain ⟨q, t₁, hrun, hfits, htrades, hshape⟩ := ih t
    obtain ⟨hfits', htrades'⟩ := RowFits.grown_cons hfits (rowFits_nil : RowFits t₁ none [])
      (by simpa using htrades.nodup) (place.getD (source.span cell))
    refine ⟨_, _, _, ?_, rfl, hfits', htrades.trans (htrades'.congr (by simp) rfl),
      by simp [hshape]⟩
    simp only [Tree.copyUpTo, hnode]
    rw [Tree.run_bind_of_run hrun, Tree.run_alloc_eq, nextCell_nil]
  next n cell p cell' q row hnode ih ih' t := by
    -- What comes after is copied first.
    obtain ⟨row', first', t₁, hrun, hfirst', hfits, htrades, hshapes⟩ := ih' t
    obtain ⟨q', t₂, hrun', hfits', htrades', hshape⟩ := ih t₁
    have hboth := htrades.step (zero_add _).symm htrades'
    obtain ⟨hfits'', htrades''⟩ := RowFits.grown_cons hfits'
      (hfits.of_keeps htrades'.keeps (by simp)) hboth.nodup (place.getD (source.span cell))
    refine ⟨_, _, _, ?_, rfl, hfits'', hboth.trans htrades'', by simp [hshape, hshapes]⟩
    simp only [Tree.copyUpTo, hnode]
    rw [Tree.run_bind_of_run hrun, Tree.run_bind_of_run hrun', Tree.run_alloc_eq, hfirst']

end Plan

namespace Tree

open Plan

/-- A formula that is copied into a store. -/
theorem run_graft {source : Tree} {fs : List Shape} (h : source.Depicts fs) (place : Option Span)
    (t : Tree) : ∃ (row : Row) (first : NodeId) (t' : Tree),
      (graft source place).run t = (first, t') ∧ nextCell row = some first ∧ RowFits t' none row ∧
        t.Trades t' 0 (rowIds row) ∧ rowShapes row = fs := by
  obtain ⟨row, hfirst, hfits, hn, rfl⟩ := h
  rw [graft, copy]
  exact (descends_copyUpTo place).chain hfits hfirst (hfits.card_le hn) t

/-- A chain that is made a formula of its own. -/
theorem depicts_extract {t : Tree} {up : Option NodeId} {row : Row} {first : NodeId}
    (h : RowFits t up row) (hn : (rowIds row).Nodup) (hfirst : nextCell row = some first) :
    (t.extract first).Depicts (rowShapes row) := by
  obtain ⟨row', first', t', hrun, hfirst', hfits, htrades, hshapes⟩ :=
    (descends_copyUpTo none).chain h hfirst (h.card_le hn) ⟨#[], 0⟩
  rw [← hshapes, extract, copy]
  exact depicts_build hrun hfirst' hfits htrades.nodup

end Tree

namespace Plan

variable {t : Tree} {up : Option NodeId}

/-- A copy of an element within the store. -/
theorem Fits.run_deepCopy {p : Plan} (h : p.Fits t up) (hn : p.ids.Nodup) :
    ∃ (q : Plan) (t' : Tree), (Tree.deepCopy p.id).run t = (q.id, t') ∧ q.Fits t' none ∧
      t.Trades t' 0 q.ids ∧ q.shape = p.shape := by
  obtain ⟨r, u, hrun, hr, htrades, hshape⟩ :=
    (descends_copyUpTo none).element h (h.card_le hn) ⟨#[], 0⟩
  have hextract : r.Fits (t.extract p.id) none := by
    rw [Tree.extract, Tree.copy]
    exact hr.congr fun i _ => Tree.look_build hrun hr.look i
  have hroot : (t.extract p.id).root = r.id := by
    rw [Tree.extract, Tree.copy, Tree.root_build hrun]
  obtain ⟨q, t', hrun', hq, htrades', hshape'⟩ :=
    (descends_copyUpTo none).element hextract (hextract.card_le htrades.nodup) t
  refine ⟨q, t', ?_, hq, htrades', hshape'.trans hshape⟩
  rw [Tree.deepCopy, Tree.run_get_bind, Tree.graft, Tree.copy, hroot, hrun']

/-- A copy of a chain within the store. -/
theorem RowFits.run_deepCopy {row : Row} {first : NodeId} (h : RowFits t up row)
    (hn : (rowIds row).Nodup) (hfirst : nextCell row = some first) :
    ∃ (row' : Row) (first' : NodeId) (t' : Tree), (Tree.deepCopy first).run t = (first', t') ∧
      nextCell row' = some first' ∧ RowFits t' none row' ∧ t.Trades t' 0 (rowIds row') ∧
        rowShapes row' = rowShapes row := by
  rw [Tree.deepCopy, Tree.run_get_bind]
  exact Tree.run_graft (Tree.depicts_extract h hn hfirst) none t

end Plan

end Formulary
