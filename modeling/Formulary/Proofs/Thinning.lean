import Formulary.Proofs.ListEditing
import Formulary.Proofs.Traversal
import Formulary.Tree.Editors

/-!
# Taking out on the way

A walk may take out elements while it goes along their chain. Each time the next element comes into
the cell where the walk stands, so the walk has to look at that cell again, and it must neither miss
the new element nor come twice to one that stays.

What is left is what a filter leaves: every chain has its elements without those that were to go, in
their order (`Tree.Sound.deletes_as_filter`). Where the last one goes an empty node takes its place,
since no chain is without elements. Operands and parameters are no elements of a chain and stay.

* `Sifts`: a walk takes out what it should, and has shown some nodes, in whatever notes these are
  kept.
* `Thinned`: what becomes of one chain. `Leaves`: what becomes of all chains inside of something.
* `Plan.Sifted`, `Plan.AllSifted`, `Plan.RowSifted` put these together, with one lemma for each way
  of being a part. All steps of the walk are in `Plan.RowFits.exists_sifted`.
-/

namespace Formulary

open Plan

variable {node : Node} {row row' : Row}

/-! ## Walks that take out -/

/-- Notes every node, and does the rest after that. -/
def Visitor.noting {σ ε : Type} (f : NodeId → σ → σ) (visitor : Visitor σ ε) : Visitor σ ε :=
  fun id => do
    Walk.note (f id)
    visitor id

/-- A property that neither empty nodes nor cells have. -/
structure OnElements (p : Node → Bool) : Prop where
  empty : p .empty = false
  sequence : ∀ head tail, p (.sequence head tail) = false

namespace Tree

variable {t t' t'' : Tree} {p : Node → Bool} {id : NodeId}

/-- Whether a node stays when the elements with a property are taken out. -/
def spares (t : Tree) (p : Node → Bool) (id : NodeId) : Bool :=
  !(p (t.node id) && (t.owningCell id).isSome)

theorem spares_of_not (h : p (t.node id) = false) : t.spares p id = true := by
  rw [spares, h]
  rfl

theorem spares_of_owningCell (h : t.owningCell id = none) : t.spares p id = true := by
  rw [spares, h, Option.isSome_none, Bool.and_false]
  rfl

theorem not_spares {cell : NodeId} (h : p (t.node id) = true)
    (hcell : t.owningCell id = some cell) : t.spares p id = false := by
  rw [spares, h, hcell]
  rfl

/-- Only cells changed. -/
def AltersCells (t t' : Tree) : Prop :=
  ∃ changed, t.Alters t' changed ∧ ∀ i ∈ changed, i < t.size → t.isSequence i = true

theorem AltersCells.refl (t : Tree) : t.AltersCells t :=
  ⟨[], Alters.refl t [], fun _ hi => absurd hi List.not_mem_nil⟩

theorem AltersCells.trans (h : t.AltersCells t') (h' : t'.AltersCells t'') : t.AltersCells t'' := by
  obtain ⟨changed, halters, hcells⟩ := h
  obtain ⟨changed', halters', hcells'⟩ := h'
  refine ⟨changed ++ changed', halters.append halters', fun i hi hlt => ?_⟩
  rcases List.mem_append.mp hi with hi | hi
  · exact hcells i hi hlt
  · rw [← halters.isSequence_eq hlt]
    exact hcells' i hi (hlt.trans_le halters.size_le)

theorem altersCells_delete {r : Except SurgeryError NodeId}
    (hrun : (delete id).run.run t = (r, t')) : t.AltersCells t' :=
  ⟨_, alters_delete hrun, fun _ hi _ => isSequence_of_owningCell (Option.mem_toList.mp hi)⟩

end Tree

/-- The walk takes out what has a property, ends well and has shown some nodes, in whatever notes
these are kept. -/
structure Sifts (p : Node → Bool)
    (walk : {σ : Type} → Visitor σ SurgeryError → Nat → Walk σ SurgeryError Unit) (t t' : Tree)
    (seen : List NodeId) : Prop where
  leads : ∀ {σ : Type} (f : NodeId → σ → σ) (s : σ),
    Walk.Leads (walk ((Visitor.deleteWhere p).noting f)) (t, s)
      (t', seen.foldl (fun s id => f id s) s)
  alters : t.AltersCells t'

namespace Sifts

variable {p : Node → Bool} {t t₁ t' : Tree} {seen seen' : List NodeId} {id cell head : NodeId}
  {walk walk₁ walk₂ : {σ : Type} → Visitor σ SurgeryError → Nat → Walk σ SurgeryError Unit}

theorem rest : Sifts p (fun _ _ => pure ()) t t [] :=
  ⟨fun _ _ => ⟨0, fun _ _ => rfl⟩, .refl t⟩

/-- A walk that goes one way and then another. -/
theorem after (h : Sifts p walk₁ t t₁ seen) (h' : Sifts p walk₂ t₁ t' seen')
    (hwalk : ∀ {σ : Type} {visitor : Visitor σ SurgeryError} {s s₁ s' : σ},
      Walk.Leads (walk₁ visitor) (t, s) (t₁, s₁) → Walk.Leads (walk₂ visitor) (t₁, s₁) (t', s') →
        Walk.Leads (walk visitor) (t, s) (t', s')) : Sifts p walk t t' (seen ++ seen') := by
  refine ⟨fun f s => ?_, h.alters.trans h'.alters⟩
  rw [List.foldl_append]
  exact hwalk (h.leads f s) (h'.leads f _)

theorem through_into (hnode : t.node id = node) (hspares : t.spares p id = true)
    (h : Sifts p (fun visitor n => Walk.below visitor n id node) t t' seen) :
    Sifts p (fun visitor n => Walk.through visitor n id) t t' (id :: seen) := by
  subst hnode
  refine ⟨fun f s => Walk.Leads.through_into ?_ (h.leads f (f id s)), h.alters⟩
  rw [Tree.spares, Bool.not_eq_true'] at hspares
  rw [Visitor.noting, run_bind_of_ok (run_note (f id)), Visitor.deleteWhere,
    run_bind_of_ok run_tree, hspares]
  rfl

theorem through_past (hp : p (t.node id) = true) (hcell : t.owningCell id = some cell)
    (hrun : (Tree.delete id).run.run t = (.ok cell, t')) :
    Sifts p (fun visitor n => Walk.through visitor n id) t t' [id] := by
  refine ⟨fun f s => Walk.Leads.through_past ?_, Tree.altersCells_delete hrun⟩
  have hedit : (Walk.edit (Tree.delete id) : Walk _ _ _).run.run (t, f id s) =
      some (.ok cell, t', f id s) := by
    rw [run_edit, hrun]
  rw [Visitor.noting, run_bind_of_ok (run_note (f id)), Visitor.deleteWhere,
    run_bind_of_ok run_tree, hp, hcell, Option.isSome_some, Bool.and_true, if_pos rfl,
    run_bind_of_ok hedit]
  rfl

end Sifts

/-! ## What is left of chains -/

/-- From a cell on, `t'` has the elements that were there in `t` and do not have a property, in
their order. If the last one had it, a new empty node comes after them. -/
def Tree.Filters (p : Node → Bool) (t t' : Tree) (first : NodeId) : Prop :=
  ∃ last added, (t.elements first).getLast? = some last ∧
    t'.elements first = (t.elements first).filter (fun i => !p (t.node i)) ++ added ∧
    if p (t.node last) then ∃ e, added = [e] ∧ t.size ≤ e ∧ t'.node e = .empty else added = []

/-- What becomes of the elements of a chain if the first of them that stays comes into a cell. If
none stays, an empty one at a new position comes there. -/
inductive Thinned (p : Node → Bool) (size : Nat) : NodeId → Row → Row → Prop
  | last {cell e : NodeId} : size ≤ e → Thinned p size cell [] [(cell, .empty e)]
  | drop {cell : NodeId} {x : NodeId × Plan} {rest row' : Row} : p x.2.top = true →
    Thinned p size cell rest row' → Thinned p size cell (x :: rest) row'
  | sole {cell : NodeId} {x : NodeId × Plan} {q' : Plan} : p x.2.top = false → q'.id = x.2.id →
    Thinned p size cell [x] [(cell, q')]
  | keep {cell next : NodeId} {x : NodeId × Plan} {q' : Plan} {rest rest' : Row} :
    p x.2.top = false → q'.id = x.2.id → nextCell rest = some next →
    Thinned p size next rest rest' → Thinned p size cell (x :: rest) ((cell, q') :: rest')

section

variable {p : Node → Bool} {size : Nat} {cell first : NodeId} {row row' : Row} {t t' : Tree}
  {up up' : Option NodeId}

/-- What is left has the positions of what was there, but for the empty one at the end. -/
theorem Thinned.ids_eq (h : Thinned p size cell row row') :
    ∃ added, row'.map (fun x => x.2.id) =
        (row.filter fun x => !p x.2.top).map (fun x => x.2.id) ++ added ∧
      if row.getLast?.all fun x => p x.2.top then
        ∃ e c, added = [e] ∧ size ≤ e ∧ (c, .empty e) ∈ row'
      else added = [] := by
  induction h with
  | @last cell e he => exact ⟨[e], rfl, e, cell, rfl, he, List.mem_cons_self⟩
  | @drop cell x rest row' hp _ ih =>
    obtain ⟨added, hids, hadded⟩ := ih
    have hlast : ((x :: rest).getLast?.all fun x => p x.2.top) =
        rest.getLast?.all fun x => p x.2.top := by
      rw [List.getLast?_cons]
      cases rest.getLast? with
      | none => exact hp
      | some y => rfl
    refine ⟨added, ?_, ?_⟩
    · rw [List.filter_cons_of_neg (by rw [hp]; decide), hids]
    · rwa [hlast]
  | @sole cell x q' hp hid =>
    refine ⟨[], ?_, ?_⟩
    · rw [List.filter_cons_of_pos (by rw [hp]; rfl), List.map_cons, List.map_cons, hid]
      rfl
    · simp [hp]
  | @keep cell next x q' rest rest' hp hid hnext _ ih =>
    obtain ⟨added, hids, hadded⟩ := ih
    obtain ⟨y, rest, rfl⟩ : ∃ y rest₁, rest = y :: rest₁ := by
      cases rest with
      | nil => cases hnext
      | cons y rest => exact ⟨y, rest, rfl⟩
    refine ⟨added, ?_, ?_⟩
    · rw [List.filter_cons_of_pos (by rw [hp]; rfl), List.map_cons, List.map_cons, hids, hid]
      rfl
    · rw [List.getLast?_cons_cons]
      split at hadded
      · rename_i hlast
        obtain ⟨e, c, hadded, he, hmem⟩ := hadded
        rw [if_pos hlast]
        exact ⟨e, c, hadded, he, List.mem_cons_of_mem _ hmem⟩
      · rename_i hlast
        rwa [if_neg hlast]

theorem Plan.RowFits.of_mem (h : RowFits t up row) {x : NodeId × Plan} (hx : x ∈ row) :
    x.2.Fits t (some x.1) := by
  induction row generalizing up with
  | nil => cases hx
  | cons y row ih =>
    obtain ⟨-, hy, hrow⟩ := rowFits_cons.mp h
    rcases List.mem_cons.mp hx with rfl | hx
    · exact hy
    · exact ih hrow hx

theorem Thinned.filters (h : Thinned p t.size first row row') (hrow : RowFits t up row)
    (hn : (rowIds row).Nodup) (hfirst : nextCell row = some first) (hrow' : RowFits t' up' row')
    (hn' : (rowIds row').Nodup) (hfirst' : nextCell row' = some first) : t.Filters p t' first := by
  obtain ⟨added, hids, hadded⟩ := h.ids_eq
  obtain ⟨last, hlast⟩ : ∃ last, row.getLast? = some last := by
    cases row with
    | nil => cases hfirst
    | cons x row => exact ⟨_, List.getLast?_cons⟩
  have hnode : ∀ x ∈ row, t.node x.2.id = x.2.top := fun x hx => (hrow.of_mem hx).node
  refine ⟨last.2.id, added, ?_, ?_, ?_⟩
  · rw [hrow.elements hn hfirst, List.getLast?_map, hlast]
    rfl
  · rw [hrow'.elements hn' hfirst', hrow.elements hn hfirst, hids, List.filter_map]
    congr 2
    refine List.filter_congr fun x hx => ?_
    rw [Function.comp, hnode x hx]
  · rw [hlast, Option.all_some] at hadded
    rw [hnode last (List.mem_of_getLast? hlast)]
    split
    · rename_i hp
      rw [if_pos hp] at hadded
      obtain ⟨e, c, hadded, he, hmem⟩ := hadded
      exact ⟨e, hadded, he, (hrow'.of_mem hmem).node⟩
    · rename_i hp
      rwa [if_neg hp] at hadded

theorem OnElements.spares_first (hp : OnElements p) (hrow : RowFits t up row)
    (hfirst : nextCell row = some first) : t.spares p first = true := by
  obtain ⟨q, rest, rfl⟩ := exists_of_nextCell hfirst
  refine Tree.spares_of_not ?_
  rw [hrow.node]
  exact hp.sequence _ _

end

/-! ## What is left inside -/

/-- Something of which the walk has shown some nodes is left as a filter leaves it, in each tree
that has it: the nodes that stay were shown as a visit shows them, and chains are thinned out. -/
structure Leaves (p : Node → Bool) (t : Tree) (seen : List NodeId) (has : Tree → Prop)
    (shown : Nat → List (Nat × NodeId)) : Prop where
  filter_seen : ∀ depth, seen.filter (t.spares p) = (shown depth).map Prod.snd
  filters : ∀ t', has t' → ∀ depth, ∀ i ∈ (shown depth).map Prod.snd, t'.isSequence i = true →
    t.Filters p t' i

namespace Leaves

variable {p : Node → Bool} {t : Tree} {seen seen' : List NodeId} {has has' : Tree → Prop}
  {shown shown' : Nat → List (Nat × NodeId)} {id : NodeId}

theorem nil : Leaves p t [] has fun _ => [] :=
  ⟨fun _ => rfl, fun _ _ _ _ hi => absurd hi List.not_mem_nil⟩

theorem append (h : Leaves p t seen has shown) (h' : Leaves p t seen' has' shown') :
    Leaves p t (seen ++ seen') (fun t' => has t' ∧ has' t') fun depth =>
      shown depth ++ shown' depth := by
  refine ⟨fun depth => ?_, fun t' hhas depth i hi => ?_⟩
  · rw [List.filter_append, h.filter_seen depth, h'.filter_seen depth, List.map_append]
  · rw [List.map_append, List.mem_append] at hi
    exact hi.elim (h.filters t' hhas.1 depth i) (h'.filters t' hhas.2 depth i)

theorem mono (h : Leaves p t seen has shown) (hhas : ∀ t', has' t' → has t') :
    Leaves p t seen has' shown :=
  ⟨h.filter_seen, fun t' hhas' => h.filters t' (hhas t' hhas')⟩

theorem deeper (h : Leaves p t seen has shown) :
    Leaves p t seen has fun depth => shown (depth + 1) :=
  ⟨fun depth => h.filter_seen (depth + 1), fun t' hhas depth => h.filters t' hhas (depth + 1)⟩

theorem element (hspares : t.spares p id = true) :
    Leaves p t [id] (fun t' => t'.isSequence id = false) fun depth => [(depth, id)] := by
  refine ⟨fun depth => ?_, fun t' hhas depth i hi hsequence => ?_⟩
  · rw [List.filter_cons_of_pos hspares]
    rfl
  · obtain rfl := List.mem_singleton.mp hi
    rw [hhas] at hsequence
    cases hsequence

theorem dropped (hnot : t.spares p id = false) : Leaves p t [id] has fun _ => [] := by
  refine ⟨fun _ => ?_, fun _ _ _ _ hi => absurd hi List.not_mem_nil⟩
  rw [List.filter_cons_of_neg (by rw [hnot]; decide)]
  rfl

/-- The first cell of a chain. -/
theorem first {up : Option NodeId} (hp : OnElements p) (hrow : RowFits t up row)
    (hn : (rowIds row).Nodup) (hid : nextCell row = some id) (h : Thinned p t.size id row row')
    (hn' : (rowIds row').Nodup) (hid' : nextCell row' = some id) :
    Leaves p t [id] (fun t' => ∃ up', RowFits t' up' row') fun depth =>
      (nextCell row').toList.map (depth, ·) := by
  refine ⟨fun depth => ?_, fun t' hhas depth i hi _ => ?_⟩
  · rw [List.filter_cons_of_pos (hp.spares_first hrow hid), hid']
    rfl
  · rw [hid'] at hi
    obtain rfl := List.mem_singleton.mp hi
    obtain ⟨up', hrow'⟩ := hhas
    exact h.filters hrow hn hid hrow' hn' hid'

end Leaves

namespace Plan

variable {q q' : Plan} {ps ps' : List Plan} {rest : Row} {c : NodeId} {name : String}

/-! ## Step by step

The walk began at a tree `t₀`. What it comes to is as it was then, but the tree `t` that it finds
may have been thinned out elsewhere. -/

section

variable (p : Node → Bool) (t₀ t t' : Tree)

/-- The walk has gone below an element. -/
structure Sifted (up : Option NodeId) (q q' : Plan) (seen : List NodeId) : Prop where
  becomes : Becomes t t' up q q'
  leaves : Leaves p t₀ seen (fun u => ∃ up, q'.Fits u up) (visits · q')
  sifts : Sifts p (fun visitor n => Walk.below visitor n q.id q.top) t t' seen

/-- The walk has gone through the parameters of a node from an index on. -/
structure AllSifted (id : NodeId) (index : Nat) (ps ps' : List Plan) (seen : List NodeId) :
    Prop where
  becomes : AllBecome t t' (some id) ps ps'
  leaves : Leaves p t₀ seen (fun u => ∃ up, AllFit u up ps') (visitsOf · ps')
  sifts : Sifts p (fun visitor n => Walk.toParameters visitor n id index) t t' seen

/-- The walk has gone along a chain from a cell into which the elements `row` have come, or an empty
one after the last. -/
structure RowSifted (up : Option NodeId) (cell fresh : NodeId) (row row' : Row)
    (seen : List NodeId) : Prop where
  becomes : RowBecomes t t' up (pulled cell fresh row) row'
  thinned : Thinned p t₀.size cell row row'
  leaves : Leaves p t₀ seen (fun u => ∃ up, RowFits u up row') (rowVisits · row')
  sifts : Sifts p (fun visitor n => Walk.alongChain visitor n cell) t t' seen

end

variable {p : Node → Bool} {t₀ t t₁ t' : Tree} {up₀ up : Option NodeId} {id cell fresh : NodeId}
  {seen seen' : List NodeId}

theorem pulled_of_nextCell {first : NodeId} (h : nextCell row = some first) (fresh : NodeId) :
    pulled first fresh row = row := by
  obtain ⟨q, rest, rfl⟩ := exists_of_nextCell h
  rfl

/-! ### Elements -/

/-- The walk comes to a chain by its first cell. -/
theorem RowSifted.first {first : NodeId} (h : RowSifted p t₀ t t' up first fresh row row' seen)
    (hp : OnElements p) (hrow₀ : RowFits t₀ up₀ row) (hrow : RowFits t up row)
    (hn : (rowIds row).Nodup) (hfirst : nextCell row = some first) :
    RowBecomes t t' up row row' ∧
    Leaves p t₀ (first :: seen) (fun u => ∃ up, RowFits u up row')
      (fun depth => (nextCell row').toList.map (depth, ·) ++ rowVisits depth row') ∧
    Sifts p (fun visitor n => Walk.through visitor n first) t t' (first :: seen) := by
  have hbecomes := h.becomes
  rw [pulled_of_nextCell hfirst] at hbecomes
  have hspares := hp.spares_first hrow hfirst
  refine ⟨hbecomes, ?_, ?_⟩
  · exact ((Leaves.first hp hrow₀ hn hfirst h.thinned hbecomes.trades.nodup
      (hbecomes.next_eq.trans hfirst)).append h.leaves).mono fun u hu => ⟨hu, hu⟩
  · obtain ⟨q, rest, rfl⟩ := exists_of_nextCell hfirst
    exact .through_into hrow.node hspares h.sifts

theorem RowSifted.group {fence : Fence} {inner inner' : Row} {first : NodeId}
    (h : RowSifted p t₀ t t' (some id) first fresh inner inner' seen) (hp : OnElements p)
    (hfits₀ : (Plan.group id fence inner).Fits t₀ up₀)
    (hfits : (Plan.group id fence inner).Fits t up)
    (hn : (Plan.group id fence inner).ids.Nodup) (hfirst : nextCell inner = some first) :
    Sifted p t₀ t t' up (.group id fence inner) (.group id fence inner') (first :: seen) := by
  have hn' := hn
  rw [ids, nodup_cons_iff] at hn'
  obtain ⟨hbecomes, hleaves, hsifts⟩ := h.first hp hfits₀.of_group hfits.of_group hn'.2 hfirst
  refine ⟨hbecomes.group hfits hn, ?_, ?_⟩
  · simp only [visits]
    refine hleaves.deeper.mono ?_
    rintro u ⟨up', hu⟩
    exact ⟨_, hu.of_group⟩
  · rw [top, hfirst]
    exact hsifts

/-- An operand is no element of a chain, so the walk goes below it whatever it is. -/
theorem Sifted.script {marker : Marker} (h : Sifted p t₀ t t' (some id) q q' seen)
    (hfits₀ : (Plan.script id marker q).Fits t₀ up₀) (hfits : (Plan.script id marker q).Fits t up)
    (hn : (Plan.script id marker q).ids.Nodup) :
    Sifted p t₀ t t' up (.script id marker q) (.script id marker q') (q.id :: seen) := by
  have hbecomes := h.becomes.script hfits hn
  have hid := h.becomes.id_eq
  refine ⟨hbecomes, ?_, ?_⟩
  · have hspares : t₀.spares p q.id = true := Tree.spares_of_owningCell hfits₀.owningCell_operand
    simp only [visits, hid]
    refine ((Leaves.element hspares).append h.leaves).mono ?_
    rintro u ⟨up', hu⟩
    exact ⟨hid ▸ hu.of_script.isSequence, _, hu.of_script⟩
  · have hspares : t.spares p q.id = true := Tree.spares_of_owningCell hfits.owningCell_operand
    have hoperand := hfits.operand
    have hsame := hbecomes.fits.operand
    rw [hid] at hsame
    have hshown := Sifts.through_into hfits.of_script.node hspares h.sifts
    exact ⟨fun f s => .toOperand hoperand (hshown.leads f s) hsame, hshown.alters⟩

theorem AllSifted.command (h : AllSifted p t₀ t t' id 0 ps ps' seen)
    (hfits : (Plan.command id name ps).Fits t up) (hn : (Plan.command id name ps).ids.Nodup) :
    Sifted p t₀ t t' up (.command id name ps) (.command id name ps') seen := by
  refine ⟨h.becomes.command hfits hn, ?_, h.sifts⟩
  simp only [visits]
  refine h.leaves.deeper.mono ?_
  rintro u ⟨up', hu⟩
  exact ⟨_, hu.of_command⟩

theorem AllSifted.block {body body' : Row} {first : NodeId}
    (h : AllSifted p t₀ t t₁ id 0 ps ps' seen)
    (hbody : RowSifted p t₀ t₁ t' (some id) first fresh body body' seen') (hp : OnElements p)
    (hfits₀ : (Plan.block id name ps body).Fits t₀ up₀)
    (hfits : (Plan.block id name ps body).Fits t up) (hn : (Plan.block id name ps body).ids.Nodup)
    (hfirst : nextCell body = some first) :
    Sifted p t₀ t t' up (.block id name ps body) (.block id name ps' body')
      (seen ++ first :: seen') := by
  have hblock := h.becomes.block hfits hn
  have hnode := hblock.fits.node
  rw [id_block, top, hfirst, h.becomes.ids_eq] at hnode
  have hn' := hblock.trades.nodup
  rw [ids, nodup_cons_iff, Multiset.nodup_add] at hn'
  obtain ⟨hbecomes, hleaves, hsifts⟩ :=
    hbody.first hp hfits₀.of_block.2 hblock.fits.of_block.2 hn'.2.2.1 hfirst
  refine ⟨hblock.trans (hbecomes.body hblock.fits hblock.trades.nodup), ?_, ?_⟩
  · simp only [visits]
    refine (h.leaves.append hleaves).mono ?_
    rintro u ⟨up', hu⟩
    exact ⟨⟨_, hu.of_block.1⟩, _, hu.of_block.2⟩
  · rw [top, hfirst]
    exact h.sifts.after hsifts fun hparameters hinside => hparameters.below_block hnode hinside

/-! ### Elements among others -/

theorem head_eq_none_of_look (hlook : t.look id = some (node, up)) (hnot : node.isSequence = false) :
    t.head id = none := by
  rw [Tree.head, Tree.node_of_look hlook]
  cases node with
  | sequence => cases hnot
  | literal | empty | group | script | command | block => rfl

/-- A parameter is no element of a chain either. -/
theorem AllSifted.cons {index : Nat} (h : Sifted p t₀ t t₁ (some id) q q' seen)
    (hrest : AllSifted p t₀ t₁ t' id (index + 1) ps ps' seen') (hhead₀ : t₀.head id = none)
    (hhead : t.head id = none) (hparameter : t.parameter id index = some q.id)
    (hfits₀ : AllFit t₀ (some id) (q :: ps)) (hfits : AllFit t (some id) (q :: ps))
    (hn : (idsOf (q :: ps)).Nodup) :
    AllSifted p t₀ t t' id index (q :: ps) (q' :: ps') ((q.id :: seen) ++ seen') := by
  have hbecomes := AllBecome.head h.becomes hfits hn
  have hid := h.becomes.id_eq
  have hq₀ := (allFit_cons.mp hfits₀).1
  have hq := (allFit_cons.mp hfits).1
  refine ⟨hbecomes.trans (AllBecome.tail hrest.becomes hbecomes.fits hbecomes.trades.nodup), ?_, ?_⟩
  · have hspares : t₀.spares p q.id = true :=
      Tree.spares_of_owningCell (hq₀.owningCell_eq_none hhead₀)
    simp only [visitsOf, hid]
    refine ((Leaves.element hspares).append (h.leaves.append hrest.leaves)).mono ?_
    rintro u ⟨up', hu⟩
    obtain ⟨hu, hus⟩ := allFit_cons.mp hu
    exact ⟨hid ▸ hu.isSequence, ⟨_, hu⟩, _, hus⟩
  · have hspares : t.spares p q.id = true :=
      Tree.spares_of_owningCell (hq.owningCell_eq_none hhead)
    exact (Sifts.through_into hq.node hspares h.sifts).after hrest.sifts fun hshown hothers =>
      hshown.toParameters_cons hparameter hothers

/-- All elements have come up, and the empty one in their place stays. -/
theorem RowSifted.nil (hp : OnElements p) (hfresh : t₀.size ≤ fresh)
    (h : RowFits t up [(cell, .empty fresh)]) (hn : (rowIds [(cell, .empty fresh)]).Nodup) :
    RowSifted p t₀ t t up cell fresh [] [(cell, .empty fresh)] [fresh] := by
  have hempty := (rowFits_pair.mp h).2.1
  refine ⟨.refl h hn, .last hfresh, ?_, ?_⟩
  · have hspares : t₀.spares p fresh = true := by
      refine Tree.spares_of_not ?_
      rw [Tree.node_eq_look, Tree.look_eq_none_iff.mpr hfresh]
      exact hp.empty
    simp only [rowVisits, visits]
    refine (Leaves.element hspares).mono ?_
    rintro u ⟨up', hu⟩
    exact (rowFits_pair.mp hu).2.1.isSequence
  · have hspares : t.spares p fresh = true := Tree.spares_of_not (hempty.node ▸ hp.empty)
    exact (Sifts.through_into hempty.node hspares .rest).after .rest fun hshown hdone =>
      hshown.alongChain_next h.head h.head h.tail hdone

/-- The walk takes out the element of a cell, and finds another one there. -/
theorem RowFits.sifts_delete (h : RowFits t up ((cell, q) :: rest))
    (hn : (rowIds ((cell, q) :: rest)).Nodup) (hq : p q.top = true) :
    ∃ t', RowBecomes t t' up ((cell, q) :: rest) (pulled cell t.size rest) ∧
      t'.head cell ≠ some q.id ∧
      Sifts p (fun visitor n => Walk.through visitor n q.id) t t' [q.id] := by
  have hfits := (rowFits_pair.mp h).2.1
  obtain ⟨t', hrun, hrow, htrades⟩ := run_delete h.owningCell h hn
  refine ⟨t', ⟨hrow, nextCell_pulled cell t.size rest, htrades⟩, fun hhead => ?_,
    .through_past (hfits.node ▸ hq) h.owningCell hrun⟩
  have hlt := hfits.lt_size q.id q.id_mem_ids
  cases rest with
  | nil =>
    rw [hrow.head, id_empty] at hhead
    exact Nat.lt_irrefl _ (Option.some.inj hhead ▸ hlt)
  | cons x rest =>
    rw [hrow.head] at hhead
    simp only [rowIds_cons] at hn
    rw [nodup_cons_iff, Multiset.nodup_add] at hn
    refine Multiset.disjoint_left.mp hn.2.2.2 q.id_mem_ids ?_
    rw [← Option.some.inj hhead]
    exact Multiset.mem_of_le (ids_le_rowIds List.mem_cons_self) x.2.id_mem_ids

/-- An element goes, and the walk stays at its cell. -/
theorem RowSifted.drop (hbecomes : RowBecomes t t₁ up ((cell, q) :: rest) (pulled cell t.size rest))
    (hnew : t₁.head cell ≠ some q.id)
    (hgone : Sifts p (fun visitor n => Walk.through visitor n q.id) t t₁ [q.id])
    (hrest : RowSifted p t₀ t₁ t' up cell t.size rest row' seen)
    (h₀ : RowFits t₀ up₀ ((c, q) :: rest)) (h : RowFits t up ((cell, q) :: rest))
    (hq : p q.top = true) :
    RowSifted p t₀ t t' up cell fresh ((c, q) :: rest) row' (q.id :: seen) := by
  have hnot : t₀.spares p q.id = false :=
    Tree.not_spares ((rowFits_pair.mp h₀).2.1.node ▸ hq) h₀.owningCell
  refine ⟨hbecomes.trans hrest.becomes, .drop hq hrest.thinned,
    ((Leaves.dropped hnot).append hrest.leaves).mono fun u hu => ⟨trivial, hu⟩, ?_⟩
  exact hgone.after hrest.sifts fun hshown hagain => hshown.alongChain_again h.head hnew hagain

/-- An element stays, and the walk goes on to the next cell if there is one. -/
theorem RowSifted.keep {rest' : Row} (hsifted : Sifted p t₀ t t₁ (some cell) q q' seen)
    (hrest : RowBecomes t₁ t' (some cell) rest rest')
    (hthinned : Thinned p t₀.size cell ((c, q) :: rest) ((cell, q') :: rest'))
    (hleaves : Leaves p t₀ seen' (fun u => ∃ up, RowFits u up rest') (rowVisits · rest'))
    (hsifts : Sifts p (fun visitor n => (nextCell rest).forM fun next =>
      Walk.alongChain visitor n next) t₁ t' seen') (h₀ : RowFits t₀ up₀ ((c, q) :: rest))
    (h : RowFits t up ((cell, q) :: rest)) (hn : (rowIds ((cell, q) :: rest)).Nodup)
    (hq : p q.top = false) :
    RowSifted p t₀ t t' up cell fresh ((c, q) :: rest) ((cell, q') :: rest')
      ((q.id :: seen) ++ seen') := by
  have hbecomes := RowBecomes.head hsifted.becomes h hn
  have hid := hsifted.becomes.id_eq
  have hq₀ := (rowFits_pair.mp h₀).2.1
  have hqt := (rowFits_pair.mp h).2.1
  refine ⟨hbecomes.trans (RowBecomes.tail hrest hbecomes.fits hbecomes.trades.nodup), hthinned,
    ?_, ?_⟩
  · have hspares : t₀.spares p q.id = true := Tree.spares_of_not (hq₀.node ▸ hq)
    simp only [rowVisits, hid]
    refine ((Leaves.element hspares).append (hsifted.leaves.append hleaves)).mono ?_
    rintro u ⟨up', hu⟩
    obtain ⟨-, hq', hrest'⟩ := rowFits_pair.mp hu
    exact ⟨hid ▸ hq'.isSequence, ⟨_, hq'⟩, _, hrest'⟩
  · have hspares : t.spares p q.id = true := Tree.spares_of_not (hqt.node ▸ hq)
    have hhead := hbecomes.fits.head
    rw [hid] at hhead
    exact (Sifts.through_into hqt.node hspares hsifted.sifts).after hsifts fun hshown hnext =>
      hshown.alongChain_next h.head hhead hbecomes.fits.tail hnext

/-! ### All steps -/

mutual

theorem Fits.exists_sifted (hp : OnElements p) : ∀ {q : Plan} {t : Tree} {up₀ up : Option NodeId},
    q.Fits t₀ up₀ → q.Fits t up → q.ids.Nodup → t₀.size ≤ t.size →
    ∃ q' t' seen, Sifted p t₀ t t' up q q' seen
  | .literal id text, t, _, up, _, h, hn, _ => by
    refine ⟨.literal id text, t, [], .refl h hn, ?_, .rest⟩
    simp only [visits]
    exact .nil
  | .empty id, t, _, up, _, h, hn, _ => by
    refine ⟨.empty id, t, [], .refl h hn, ?_, .rest⟩
    simp only [visits]
    exact .nil
  | .group id fence inner, t, _, up, h₀, h, hn, hsize => by
    have hgroup := h
    have hn' := hn
    rw [Fits] at hgroup
    rw [ids, nodup_cons_iff] at hn'
    obtain ⟨⟨first, hfirst, -⟩, hinner⟩ := hgroup
    obtain ⟨inner', t', seen, hsifted⟩ := RowFits.exists_sifted hp h₀.of_group
      (pulled_of_nextCell hfirst t₀.size) hinner hn'.2 hsize (Nat.le_refl _)
    exact ⟨_, t', _, hsifted.group hp h₀ h hn hfirst⟩
  | .script id marker operand, t, _, up, h₀, h, hn, hsize => by
    have hn' := hn
    rw [ids, nodup_cons_iff] at hn'
    obtain ⟨operand', t', seen, hsifted⟩ :=
      Fits.exists_sifted hp h₀.of_script h.of_script hn'.2 hsize
    exact ⟨_, t', _, hsifted.script h₀ h hn⟩
  | .command id name ps, t, _, up, h₀, h, hn, hsize => by
    have hn' := hn
    rw [ids, nodup_cons_iff] at hn'
    obtain ⟨ps', t', seen, hsifted⟩ := AllFit.exists_sifted hp h₀.of_command
      (head_eq_none_of_look h₀.look rfl) h.of_command h.look rfl
      (List.nil_append (ps.map Plan.id)).symm hn'.1 hn'.2 hsize
    exact ⟨_, t', seen, hsifted.command h hn⟩
  | .block id name ps body, t, _, up, h₀, h, hn, hsize => by
    have hblock₀ := h₀
    have hblock := h
    have hn' := hn
    rw [Fits] at hblock₀ hblock
    obtain ⟨⟨_, -, hlook₀⟩, hps₀, hbody₀⟩ := hblock₀
    obtain ⟨⟨first, hfirst, hlook⟩, hps, -⟩ := hblock
    rw [ids, nodup_cons_iff, Multiset.mem_add, not_or, Multiset.nodup_add] at hn'
    obtain ⟨⟨hnot, -⟩, hnps, hnbody, -⟩ := hn'
    obtain ⟨ps', t₁, seen, hsifted⟩ := AllFit.exists_sifted hp hps₀
      (head_eq_none_of_look hlook₀ rfl) hps hlook rfl (List.nil_append (ps.map Plan.id)).symm hnot
      hnps hsize
    have hbody := (hsifted.becomes.block h hn).fits.of_block.2
    obtain ⟨body', t₂, seen', hsifted'⟩ := RowFits.exists_sifted hp hbody₀
      (pulled_of_nextCell hfirst t₀.size) hbody hnbody
      (hsize.trans hsifted.becomes.trades.keeps.size_le) (Nat.le_refl _)
    exact ⟨_, t₂, _, hsifted.block hsifted' hp h₀ h hn hfirst⟩

theorem AllFit.exists_sifted (hp : OnElements p) : ∀ {ps : List Plan} {t : Tree} {id : NodeId}
    {node : Node} {up : Option NodeId} {before : List NodeId}, AllFit t₀ (some id) ps →
    t₀.head id = none → AllFit t (some id) ps → t.look id = some (node, up) →
    node.isSequence = false → node.parameters = before ++ ps.map Plan.id →
    id ∉ idsOf ps → (idsOf ps).Nodup → t₀.size ≤ t.size →
    ∃ ps' t' seen, AllSifted p t₀ t t' id before.length ps ps' seen
  | [], t, id, node, up, before, _, _, h, hlook, _, hparameters, _, hn, _ => by
    refine ⟨[], t, [], .refl h hn, ?_, fun f s => .toParameters_nil ?_, .refl t⟩
    · simp only [visitsOf]
      exact .nil
    · exact parameter_of_look hlook hparameters
  | q :: ps, t, id, node, up, before, h₀, hhead₀, h, hlook, hsequence, hparameters, hnot, hn,
      hsize => by
    have hn' := hn
    rw [idsOf_cons, Multiset.nodup_add] at hn'
    rw [idsOf_cons, Multiset.mem_add, not_or] at hnot
    obtain ⟨hq₀, hps₀⟩ := allFit_cons.mp h₀
    obtain ⟨q', t₁, seen, hsifted⟩ :=
      Fits.exists_sifted hp hq₀ (allFit_cons.mp h).1 hn'.1 hsize
    have hrest : node.parameters = (before ++ [q.id]) ++ ps.map Plan.id := by
      rw [hparameters, List.map_cons, List.append_assoc, List.singleton_append]
    obtain ⟨ps', t₂, seen', hsifted'⟩ := AllFit.exists_sifted hp hps₀ hhead₀
      (allFit_cons.mp (AllBecome.head hsifted.becomes h hn).fits).2
      (hsifted.becomes.trades.keeps.look_of_look hlook hnot.1) hsequence hrest hnot.2 hn'.2.1
      (hsize.trans hsifted.becomes.trades.keeps.size_le)
    rw [List.length_append] at hsifted'
    exact ⟨_, t₂, _, .cons hsifted hsifted' hhead₀ (head_eq_none_of_look hlook hsequence)
      (parameter_of_look hlook hparameters) h₀ h hn⟩

theorem RowFits.exists_sifted (hp : OnElements p) : ∀ {row cur : Row} {t : Tree}
    {up₀ up : Option NodeId} {cell fresh : NodeId}, RowFits t₀ up₀ row →
    pulled cell fresh row = cur → RowFits t up cur → (rowIds cur).Nodup → t₀.size ≤ t.size →
    t₀.size ≤ fresh → ∃ row' t' seen, RowSifted p t₀ t t' up cell fresh row row' seen
  | [], _, t, _, up, cell, fresh, _, rfl, h, hn, _, hfresh =>
    ⟨_, t, _, .nil hp hfresh h hn⟩
  | (c, q) :: rest, _, t, _, up, cell, fresh, h₀, rfl, h, hn, hsize, _ => by
    obtain ⟨-, hq₀, hrest₀⟩ := rowFits_pair.mp h₀
    cases hq : p q.top with
    | true =>
      obtain ⟨t₁, hbecomes, hnew, hgone⟩ := RowFits.sifts_delete h hn hq
      obtain ⟨row', t₂, seen, hsifted⟩ := RowFits.exists_sifted hp hrest₀ rfl hbecomes.fits
        hbecomes.trades.nodup (hsize.trans hbecomes.trades.keeps.size_le) hsize
      exact ⟨row', t₂, _, .drop hbecomes hnew hgone hsifted h₀ h hq⟩
    | false =>
      have hn' := hn
      simp only [pulled, rowIds_cons] at hn'
      rw [nodup_cons_iff, Multiset.nodup_add] at hn'
      obtain ⟨q', t₁, seen, hsifted⟩ :=
        Fits.exists_sifted hp hq₀ (rowFits_pair.mp h).2.1 hn'.2.1 hsize
      have hid := hsifted.becomes.id_eq
      have hrest := (rowFits_pair.mp (RowBecomes.head hsifted.becomes h hn).fits).2.2
      cases rest with
      | nil =>
        refine ⟨_, t₁, _, .keep hsifted (.refl hrest hn'.2.2.1) (.sole hq hid) ?_ .rest h₀ h hn hq⟩
        simp only [rowVisits]
        exact .nil
      | cons x rest =>
        obtain ⟨rest', t₂, seen', hsifted'⟩ := RowFits.exists_sifted hp hrest₀
          (pulled_of_nextCell rfl t₀.size) hrest hn'.2.2.1
          (hsize.trans hsifted.becomes.trades.keeps.size_le) (Nat.le_refl _)
        exact ⟨_, t₂, _, .keep hsifted hsifted'.becomes (.keep hq hid rfl hsifted'.thinned)
          hsifted'.leaves hsifted'.sifts h₀ h hn hq⟩

end

end Plan

/-! ## Filtering -/

/-- To take out elements on the way is to filter. Let there be a property that neither empty nodes
nor cells have. The walk that takes out every element of a chain with this property ends well, and
leaves a formula in order with the same root. All nodes but cells are as they were, and so operands
and parameters stay where they are. Each chain, however deep, has its elements without those that
have the property, with an empty one after them if the last one had it.

What is left, later cells apart, was shown once and in the order of a visit. All else that was shown
had the property and was an element of a chain. -/
theorem Tree.Sound.deletes_as_filter {t : Tree} {p : Node → Bool} (h : t.Sound)
    (hempty : p .empty = false) (hcells : ∀ head tail, p (.sequence head tail) = false) :
    ∃ t' seen,
      (∀ (σ : Type) (s : σ),
        Walk.Leads (fun n => Walk.through (Visitor.deleteWhere p) n t.root) (t, s) (t', s)) ∧
      Walk.Leads (fun n => Walk.through
        ((Visitor.deleteWhere p).noting fun id seen => seen ++ [id]) n t.root) (t, []) (t', seen) ∧
      t'.Sound ∧ t'.root = t.root ∧
      (∀ i < t.size, t'.span i = t.span i ∧ (t.isSequence i = false → t'.node i = t.node i)) ∧
      (∀ first, t'.Reaches t'.root first → t'.isSequence first = true →
        t'.isTailCell first = false → t.Filters p t' first) ∧
      seen.filter (fun i => decide (i ∈ t'.visited t'.root)) = t'.visited t'.root ∧
      (∀ i ∈ seen, i ∉ t'.visited t'.root →
        p (t.node i) = true ∧ (t.owningCell i).isSome = true) ∧
      (t'.visited t'.root).Nodup ∧
      ∀ i, i ∈ t'.visited t'.root ↔ t'.Reaches t'.root i ∧ t'.isTailCell i = false := by
  have hp : OnElements p := ⟨hempty, hcells⟩
  obtain ⟨q, rest, hrow, hn⟩ := h.linked.exists_chain h.isSequence_root
  obtain ⟨row', t', seen, hsifted⟩ := RowFits.exists_sifted hp hrow (pulled_of_nextCell rfl t.size)
    hrow hn (Nat.le_refl _) (Nat.le_refl _)
  obtain ⟨hbecomes, hleaves, hwalk⟩ := hsifted.first hp hrow hrow hn rfl
  have hfirst : nextCell row' = some t.root := hbecomes.next_eq
  have hn' := hbecomes.trades.nodup
  obtain ⟨changed, halters, hchanged⟩ := hwalk.alters
  have hroot := halters.root_eq
  have hvisited : (t.root :: seen).filter (t.spares p) = t'.visited t'.root := by
    rw [hroot, hbecomes.fits.visited hn' hfirst]
    refine (hleaves.filter_seen 0).trans ?_
    rw [hfirst]
    rfl
  have hlinked : t'.Linked t'.root := by
    obtain ⟨q', rest', rfl⟩ := exists_of_nextCell hfirst
    rw [hroot]
    exact Part.Fits.linked (x := .chain t.root q' rest') hbecomes.fits hn'
  have hsequence : t'.isSequence t'.root = true := by
    rw [hroot, halters.isSequence_eq h.linked.lt_size, h.isSequence_root]
  have hspares : ∀ i ∈ t.root :: seen, (i ∈ t'.visited t'.root ↔ t.spares p i = true) := by
    intro i hi
    rw [← hvisited, List.mem_filter, and_iff_right hi]
  refine ⟨t', t.root :: seen, fun σ s => ?_, ?_, ⟨hlinked, hsequence⟩, hroot, fun i hi => ?_,
    fun first hreach hcell htail => ?_, ?_, fun i hi hnot => ?_, hlinked.nodup_visited,
    fun i => hlinked.mem_visited⟩
  · have hplain := hwalk.leads (fun _ s => s) s
    rwa [List.foldl_fixed] at hplain
  · have hnoted := hwalk.leads (fun id seen => seen ++ [id]) []
    rwa [List.foldl_append_eq_append, ← List.flatMap_def, List.flatMap_singleton',
      List.nil_append] at hnoted
  · refine ⟨halters.span_eq i hi, fun hnot => halters.node_eq i hi fun hmem => ?_⟩
    rw [hchanged i hmem hi] at hnot
    cases hnot
  · have hmem := hlinked.mem_visited.mpr ⟨hreach, htail⟩
    rw [← hvisited, hleaves.filter_seen 0] at hmem
    exact hleaves.filters t' ⟨_, hbecomes.fits⟩ 0 first hmem hcell
  · refine Eq.trans (List.filter_congr fun i hi => ?_) hvisited
    rw [Bool.eq_iff_iff, decide_eq_true_iff, hspares i hi]
  · rw [hspares i hi, Bool.not_eq_true, Tree.spares, Bool.not_eq_false', Bool.and_eq_true] at hnot
    exact hnot

/-- Two elements go at the start, one in the middle and one at the end, all of the group and the
first and the last of the block. The operand stays although it has the property. -/
theorem Tree.Sound.deletes_as_filter_nested :
    let p : Node → Bool := fun node => node.kind == .literal || node == .command "alpha" []
    let visitor : Visitor (List NodeId) SurgeryError :=
      (Visitor.deleteWhere p).noting fun id seen => seen ++ [id]
    let source := r"\alpha x^\alpha y\sqrt{ab}\begin{q}z\beta\alpha" ++
      r"\end{q}u"
    ∃ t t' seen, parseMath source = .ok t ∧ t.Sound ∧ p .empty = false ∧
      (∀ head tail, p (.sequence head tail) = false) ∧
      Walk.Leads (fun n => Walk.through visitor n t.root) (t, []) (t', seen) ∧ t'.Sound ∧
      t.Filters p t' t'.root ∧
      t.elements t.root = [0, 1, 3, 4, 8, 32, 20] ∧ t'.elements t'.root = [3, 8, 32, 35] ∧
      seen = [31, 0, 1, 3, 2, 4, 8, 7, 6, 5, 33, 32, 25, 13, 14, 15, 34, 20, 35] ∧
      t'.visited t'.root = [31, 3, 2, 8, 7, 6, 33, 32, 25, 14, 34, 35] ∧
      seen.filter (fun i => decide (i ∈ t'.visited t'.root)) = t'.visited t'.root ∧
      t'.text = r"^\alpha\sqrt{}\begin{q}\beta\end{q}" := by
  intro p visitor source
  have hran : ((parseMath source).toOption.bind fun t =>
      ((Walk.through visitor 60 t.root).run.run (t, [])).map fun out =>
        (t.isSequence t.root, [t.elements t.root, out.2.1.elements out.2.1.root, out.2.2,
          out.2.1.visited out.2.1.root], out.2.1.text)) =
      some (true, [[0, 1, 3, 4, 8, 32, 20], [3, 8, 32, 35],
          [31, 0, 1, 3, 2, 4, 8, 7, 6, 5, 33, 32, 25, 13, 14, 15, 34, 20, 35],
          [31, 3, 2, 8, 7, 6, 33, 32, 25, 14, 34, 35]],
        r"^\alpha\sqrt{}\begin{q}\beta\end{q}") := by
    decide +kernel
  obtain ⟨t, hparse, hran⟩ := Option.bind_eq_some_iff.mp hran
  obtain ⟨⟨r, t₁, seen₁⟩, hrun, hout⟩ := Option.map_eq_some_iff.mp hran
  simp only [Prod.mk.injEq, List.cons.injEq, and_true] at hout
  obtain ⟨hsequence, ⟨helements, helements', hseen, hvisited⟩, htext⟩ := hout
  replace hparse := Tree.eq_ok_of_toOption hparse
  obtain ⟨fs, hfs, -⟩ := parseMath_sound hparse
  have hsound : t.Sound := ⟨hfs.linked, hsequence⟩
  have hcells : ∀ head tail, p (.sequence head tail) = false := fun _ _ => rfl
  obtain ⟨t', seen, -, hleads, hsound', -, -, hfilters, hfilter, -, -, hmem⟩ :=
    Tree.Sound.deletes_as_filter hsound rfl hcells
  -- The walk ends in the same way with more steps.
  obtain ⟨enough, henough⟩ := hleads
  have hmore := Walk.through_mono (Nat.le_max_left 60 enough) t.root _ _ hrun
  obtain ⟨-, rfl, rfl⟩ : _ ∧ t' = t₁ ∧ seen = seen₁ := by
    simpa using Option.some.inj ((henough _ (Nat.le_max_right 60 enough)).symm.trans hmore)
  have hroot : t'.root ∈ t'.visited t'.root := by
    rw [Tree.visited_eq]
    exact List.mem_cons_self
  exact ⟨t, t', seen, hparse, hsound, rfl, hcells, ⟨enough, henough⟩, hsound',
    hfilters t'.root (.refl _) hsound'.isSequence_root ((hmem t'.root).mp hroot).2, helements,
    helements', hseen, hvisited, hfilter, htext⟩

end Formulary
