import Formulary.Proofs.View
import Formulary.Tree.Layout

/-!
# Building trees

Programs that only add to a store, described by the plans of what they add: they trade what is
adopted, or nothing, for what is there afterwards.

* `Part.fits_grown`: a node that is added adopts its children; what hangs under them stays.
* `run_chain`: a chain is built around elements that are already there.
* `depicts_ofElements`: a formula that is laid out has the elements it was laid out from.
-/

namespace Formulary

variable {program : StateM Tree NodeId} {t : Tree}

namespace Plan

variable {row : Row} {first i : NodeId} {p : Plan} {ps : List Plan} {t t' t'' : Tree}
  {up up' : Option NodeId} {node : Node} {span : Span}

/-! ## Hanging chains elsewhere -/

theorem RowFits.look (h : RowFits t up row) (hfirst : nextCell row = some first) :
    ∃ node, t.look first = some (node, up) := by
  obtain ⟨p, rest, rfl⟩ := exists_of_nextCell hfirst
  exact ⟨_, (rowFits_pair.mp h).1⟩

/-! ## Adding one node -/

theorem look_grown_size (h : ∀ child ∈ node.children, child < t.size) :
    (t.grown node span).look t.size = some (node, none) := by
  rw [Tree.look_grown h, if_pos rfl]

theorem look_grown_of_mem (h : ∀ child ∈ node.children, child < t.size) {n : Node}
    (hi : i ∈ node.children) (hlook : t.look i = some (n, up)) :
    (t.grown node span).look i = some (n, some t.size) := by
  rw [Tree.look_grown h, if_neg (Nat.ne_of_lt (h i hi)), if_pos hi, hlook]
  rfl

theorem look_grown_of_not_mem (h : ∀ child ∈ node.children, child < t.size) (hlt : i < t.size)
    (hi : i ∉ node.children) :
    (t.grown node span).look i = t.look i := by
  rw [Tree.look_grown h, if_neg (Nat.ne_of_lt hlt), if_neg hi]

/-- Growth touches only what the new node adopts. -/
theorem keeps_grown (hc : ∀ child ∈ node.children, child < t.size) {changed : Multiset NodeId}
    (hsub : ∀ child ∈ node.children, child ∈ changed) : t.Keeps (t.grown node span) changed := by
  refine ⟨by simp, by simp, fun i hlt hi => ?_⟩
  exact look_grown_of_not_mem hc hlt fun hmem => hi (hsub i hmem)

end Plan

namespace Part

variable {xs : List Part} {x : Part} {i : NodeId} {t : Tree}

/-- Below one of several parts there is none of them. -/
theorem not_mem_map_id (hn : (xs.map ids).sum.Nodup) (hx : x ∈ xs) (hi : i ∈ x.ids)
    (hne : i ≠ x.id) : i ∉ xs.map id := by
  intro hmem
  obtain ⟨y, hy, rfl⟩ := List.mem_map.mp hmem
  obtain ⟨pre, post, rfl⟩ := List.append_of_mem hx
  rw [List.map_append, List.map_cons, List.sum_append, List.sum_cons] at hn
  obtain ⟨-, hn', hdisj⟩ := Multiset.nodup_add.mp hn
  obtain ⟨-, -, hdisj'⟩ := Multiset.nodup_add.mp hn'
  rcases List.mem_append.mp hy with hy | hy
  · exact Multiset.disjoint_left.mp hdisj (mem_sum_iff.mpr ⟨y, hy, y.id_mem_ids⟩)
      (Multiset.mem_add.mpr (Or.inl hi))
  · rcases List.mem_cons.mp hy with rfl | hy
    · exact hne rfl
    · exact Multiset.disjoint_left.mp hdisj' hi (mem_sum_iff.mpr ⟨y, hy, y.id_mem_ids⟩)

/-- A node is added on top of parts that are in the store, wherever they hang. -/
theorem fits_grown (hid : x.id = t.size) (hnode : x.node.children = x.children.map id)
    (hfits : ∀ y ∈ x.children, ∃ up, y.Fits t up) (hn : (x.children.map ids).sum.Nodup)
    (span : Span) : x.Fits (t.grown x.node span) none ∧
      t.Trades (t.grown x.node span) (x.children.map ids).sum x.ids := by
  have hlt : ∀ i ∈ (x.children.map ids).sum, i < t.size := by
    intro i hi
    obtain ⟨y, hy, hi⟩ := mem_sum_iff.mp hi
    obtain ⟨up, hy⟩ := hfits y hy
    exact hy.lt_size i hi
  have hsub : ∀ child ∈ x.node.children, child ∈ (x.children.map ids).sum := by
    rw [hnode]
    intro child hchild
    obtain ⟨y, hy, rfl⟩ := List.mem_map.mp hchild
    exact mem_sum_iff.mpr ⟨y, hy, y.id_mem_ids⟩
  have hc : ∀ child ∈ x.node.children, child < t.size := fun child hchild =>
    hlt child (hsub child hchild)
  refine ⟨fits_iff.mpr ⟨hnode, hid ▸ Plan.look_grown_size hc, fun y hy => ?_⟩, ?_⟩
  · obtain ⟨up, hfit⟩ := hfits y hy
    rw [hid]
    refine hfit.rehang (Multiset.nodup_of_le (ids_le_sum hy) hn)
      (fun _ => Plan.look_grown_of_mem hc (hnode ▸ List.mem_map_of_mem hy)) fun i hi hne =>
        Plan.look_grown_of_not_mem hc (hfit.lt_size i hi) ?_
    rw [hnode]
    exact not_mem_map_id hn hy hi hne
  · rw [ids_eq, hid]
    exact Tree.Trades.of_grown (Plan.keeps_grown hc hsub) hn hlt

end Part

namespace Plan

variable {row : Row} {first : NodeId} {p : Plan} {ps : List Plan} {t : Tree} {up up' : Option NodeId}

/-! ## Elements

Each kind of element is added on top of what is to hang under it, wherever that hung before. -/

theorem Fits.grown_literal (text : String) (span : Span) :
    (literal t.size text).Fits (t.grown (.literal text) span) none ∧
      t.Trades (t.grown (.literal text) span) 0 (literal t.size text).ids :=
  Part.fits_grown (x := .element (.literal t.size text)) rfl rfl nofun Multiset.nodup_zero span

theorem Fits.grown_empty (span : Span) :
    (empty t.size).Fits (t.grown .empty span) none ∧
      t.Trades (t.grown .empty span) 0 (empty t.size).ids :=
  Part.fits_grown (x := .element (.empty t.size)) rfl rfl nofun Multiset.nodup_zero span

theorem RowFits.grown_group (h : RowFits t up row) (hfirst : nextCell row = some first)
    (hn : (rowIds row).Nodup) (fence : Fence) (span : Span) :
    (group t.size fence row).Fits (t.grown (.group fence first) span) none ∧
      t.Trades (t.grown (.group fence first) span) (rowIds row) (group t.size fence row).ids := by
  have hgrown := Part.fits_grown (x := .element (.group t.size fence row)) (t := t) rfl
    (by rw [Part.children, Part.ids_map_ofRow, Part.node, top, hfirst]; rfl)
    fun y hy => ⟨up, Part.forall_ofRow.mpr h y hy⟩
  rw [Part.children, Part.ids_ofRow, Part.node, top, hfirst] at hgrown
  exact hgrown hn span

theorem Fits.grown_script (h : p.Fits t up) (hn : p.ids.Nodup) (marker : Marker) (span : Span) :
    (script t.size marker p).Fits (t.grown (.script marker p.id) span) none ∧
      t.Trades (t.grown (.script marker p.id) span) p.ids (script t.size marker p).ids := by
  have hgrown := Part.fits_grown (x := .element (.script t.size marker p)) (t := t) rfl rfl
    (List.forall_mem_singleton.mpr ⟨up, h⟩)
  rw [Part.children, List.map_singleton, List.sum_singleton] at hgrown
  exact hgrown hn span

theorem Loose.exists_fits (h : Loose t ps) : ∀ y ∈ ps.map Part.element, ∃ up, y.Fits t up := by
  rw [List.forall_mem_map]
  exact h

theorem AllFit.grown_command (h : Loose t ps) (hn : (idsOf ps).Nodup) (name : String)
    (span : Span) :
    (command t.size name ps).Fits (t.grown (.command name (ps.map Plan.id)) span) none ∧
      t.Trades (t.grown (.command name (ps.map Plan.id)) span) (idsOf ps)
        (command t.size name ps).ids := by
  have hgrown := Part.fits_grown (x := .element (.command t.size name ps)) (t := t) rfl
    (Part.ids_map_elements ps).symm h.exists_fits
  rw [Part.children, Part.ids_elements] at hgrown
  exact hgrown hn span

theorem AllFit.grown_block {body : Row} (h : Loose t ps) (hbody : RowFits t up body)
    (hfirst : nextCell body = some first) (hn : (idsOf ps + rowIds body).Nodup) (name : String)
    (span : Span) :
    (block t.size name ps body).Fits (t.grown (.block name (ps.map Plan.id) first) span) none ∧
      t.Trades (t.grown (.block name (ps.map Plan.id) first) span) (idsOf ps + rowIds body)
        (block t.size name ps body).ids := by
  have hgrown := Part.fits_grown (x := .element (.block t.size name ps body)) (t := t) rfl
    (by rw [Part.children, List.map_append, Part.ids_map_elements, Part.ids_map_ofRow, Part.node,
      top, hfirst]; rfl)
    (List.forall_mem_append.mpr ⟨h.exists_fits, fun y hy => ⟨up, Part.forall_ofRow.mpr hbody y hy⟩⟩)
  rw [Part.children, List.map_append, List.sum_append, Part.ids_elements, Part.ids_ofRow, Part.node,
    top, hfirst] at hgrown
  exact hgrown hn span

/-- A new cell in front of a chain, or alone if the chain has no cells yet. -/
theorem RowFits.grown_cons (hp : p.Fits t up) (hrow : RowFits t up' row)
    (hn : (p.ids + rowIds row).Nodup) (span : Span) :
    RowFits (t.grown (.sequence p.id (nextCell row)) span) none ((t.size, p) :: row) ∧
      t.Trades (t.grown (.sequence p.id (nextCell row)) span) (p.ids + rowIds row)
        (rowIds ((t.size, p) :: row)) := by
  have hgrown := Part.fits_grown (x := .chain t.size p row) (t := t) rfl
    (by rw [Part.children, List.map_cons, Part.ids_map_ofRow]; rfl)
    (List.forall_mem_cons.mpr ⟨⟨up, hp⟩, fun y hy => ⟨up', Part.forall_ofRow.mpr hrow y hy⟩⟩)
  rw [Part.children, List.map_cons, List.sum_cons, Part.ids_ofRow] at hgrown
  exact hgrown hn span

/-- A chain that is built around elements which are in the store, wherever they hang. -/
theorem run_chain (place : Span) (h : Loose t ps) (hn : (idsOf ps).Nodup) :
    ∃ row first t', (Tree.chain place (ps.map Plan.id)).run t = (first, t') ∧
      nextCell row = some first ∧ RowFits t' none row ∧ rowShapes row = Shape.chain (shapes ps) ∧
      t.Trades t' (idsOf ps) (rowIds row) := by
  induction ps with
  | nil =>
    obtain ⟨hempty, htrades⟩ := Fits.grown_empty (t := t) place
    obtain ⟨hrow, htrades'⟩ := RowFits.grown_cons hempty (rowFits_nil : RowFits _ none [])
      (by simp [ids]) place
    refine ⟨_, _, _, rfl, rfl, hrow, by simp [shape], ?_⟩
    exact htrades.trans (htrades'.congr (by simp) rfl)
  | cons p ps ih =>
    obtain ⟨hnp, hnps, hdisj⟩ := Multiset.nodup_add.mp (idsOf_cons p ps ▸ hn)
    obtain ⟨up, hp⟩ := h p List.mem_cons_self
    cases ps with
    | nil =>
      obtain ⟨hrow, htrades⟩ := RowFits.grown_cons hp (rowFits_nil : RowFits t none [])
        (by simpa using hnp) (t.span p.id)
      refine ⟨_, _, t.grown (.sequence p.id none) (t.span p.id), rfl, rfl, hrow, by simp, ?_⟩
      exact htrades.congr (by simp) rfl
    | cons q ps =>
      obtain ⟨row, first, t₁, hrun, hfirst, hrow, hshapes, htrades⟩ := ih h.tail hnps
      have hp₁ : p.Fits t₁ up := hp.of_trades htrades (by rwa [add_comm, ← idsOf_cons])
      have hframed := htrades.frame (u := p.ids) (by rwa [add_comm, ← idsOf_cons]) hp.lt_size
      obtain ⟨hrow', htrades'⟩ := RowFits.grown_cons hp₁ hrow (by rw [add_comm]; exact hframed.nodup)
        ((t₁.span p.id).union (t₁.span first))
      refine ⟨_, _, _, ?_, rfl, hrow', by simp [hshapes], ?_⟩
      · rw [List.map_cons, Tree.chain, Tree.run_bind_of_run hrun, hfirst]
        rfl
        simp
      · exact (hframed.congr (by rw [add_comm, ← idsOf_cons]) (add_comm _ _)).trans htrades'

end Plan

/-! ## Laying out -/

namespace Element

mutual

/-- The shape of an element: what it says once the stretches are forgotten. -/
def shape : Element → Shape
  | .literal text _ => .literal text
  | .group fence inner _ => .group fence (Shape.chain (shapes inner))
  | .script marker operand _ => .script marker operand.shape
  | .command name parameters _ => .command name (shapes parameters)

/-- The shapes of some elements. -/
def shapes : List Element → List Shape
  | [] => []
  | e :: es => e.shape :: shapes es

end

@[simp] theorem shapes_nil : shapes [] = [] := by rw [shapes]

@[simp] theorem shapes_cons (e : Element) (es : List Element) :
    shapes (e :: es) = e.shape :: shapes es := by rw [shapes]

end Element

namespace Plan

variable {t t' : Tree}

mutual

theorem run_layElement : ∀ (e : Element) (t : Tree), ∃ (p : Plan) (t' : Tree),
    (Tree.layElement e).run t = (p.id, t') ∧ p.Fits t' none ∧ t.Trades t' 0 p.ids ∧
      p.shape = e.shape
  | .literal text span, t => by
    obtain ⟨hfit, htrades⟩ := Fits.grown_literal (t := t) text span
    exact ⟨_, _, rfl, hfit, htrades, by rw [shape, Element.shape]⟩
  | .group fence inner span, t => by
    obtain ⟨ps, t₁, hrun, hfit, htrades, hshapes⟩ := run_layElements inner t
    obtain ⟨row, first, t₂, hrun', hfirst, hrow, hshapes', htrades'⟩ :=
      run_chain ((span.drop 1).take 0) hfit.loose htrades.nodup
    obtain ⟨hfit', htrades''⟩ := hrow.grown_group hfirst htrades'.nodup fence span
    refine ⟨_, _, ?_, hfit', (htrades.trans htrades').trans htrades'', ?_⟩
    · rw [Tree.layElement, Tree.run_bind_of_run hrun, Tree.run_bind_of_run hrun']
      rfl
    · rw [shape, Element.shape, hshapes', hshapes]
  | .script marker operand span, t => by
    obtain ⟨p, t₁, hrun, hfit, htrades, hshape⟩ := run_layElement operand t
    obtain ⟨hfit', htrades'⟩ := hfit.grown_script htrades.nodup marker span
    refine ⟨_, _, ?_, hfit', htrades.trans htrades', ?_⟩
    · rw [Tree.layElement, Tree.run_bind_of_run hrun]
      rfl
    · rw [shape, Element.shape, hshape]
  | .command name parameters span, t => by
    obtain ⟨ps, t₁, hrun, hfit, htrades, hshapes⟩ := run_layElements parameters t
    obtain ⟨hfit', htrades'⟩ := AllFit.grown_command hfit.loose htrades.nodup name span
    refine ⟨_, _, ?_, hfit', htrades.trans htrades', ?_⟩
    · rw [Tree.layElement, Tree.run_bind_of_run hrun]
      rfl
    · rw [shape, Element.shape, hshapes]

theorem run_layElements : ∀ (es : List Element) (t : Tree), ∃ ps t',
    (Tree.layElements es).run t = (ps.map Plan.id, t') ∧ AllFit t' none ps ∧
      t.Trades t' 0 (idsOf ps) ∧ shapes ps = Element.shapes es
  | [], t => by
    refine ⟨[], t, ?_, allFit_nil, Tree.Trades.refl t Multiset.nodup_zero (by simp), by simp⟩
    rw [Tree.layElements]
    rfl
  | e :: es, t => by
    obtain ⟨p, t₁, hrun, hfit, htrades, hshape⟩ := run_layElement e t
    obtain ⟨ps, t₂, hrun', hfits, htrades', hshapes⟩ := run_layElements es t₁
    refine ⟨p :: ps, t₂, ?_, ?_, ?_, by simp [hshape, hshapes]⟩
    · rw [Tree.layElements, Tree.run_bind_of_run hrun, Tree.run_bind_of_run hrun']
      rfl
    · exact allFit_cons.mpr ⟨hfit.of_keeps htrades'.keeps (by simp), hfits⟩
    · rw [idsOf_cons, add_comm]
      exact htrades.step (zero_add _).symm htrades'

end

end Plan

theorem Tree.root_build {root : NodeId} (hrun : program.run ⟨#[], 0⟩ = (root, t)) :
    (Tree.build program).root = root := by
  rw [Tree.build, hrun, Tree.root_setParent]

/-- A tree that is built is the store that the program leaves. -/
theorem Tree.look_build {root : NodeId} {node : Node} (hrun : program.run ⟨#[], 0⟩ = (root, t))
    (hlook : t.look root = some (node, none)) (i : NodeId) :
    (Tree.build program).look i = t.look i := by
  have hsame : Tree.look { t with root := root } i = t.look i := rfl
  rw [Tree.build, hrun, Tree.look_setParent, hsame]
  by_cases hi : root = i
  · rw [if_pos hi, ← hi, hlook]
    rfl
  · rw [if_neg hi]

open Plan in
/-- A program that answers a chain in an empty store builds the formula of that chain. -/
theorem Tree.depicts_build {row : Row} {first : NodeId} (hrun : program.run ⟨#[], 0⟩ = (first, t))
    (hfirst : nextCell row = some first) (hrow : RowFits t none row) (hn : (rowIds row).Nodup) :
    (Tree.build program).Depicts (rowShapes row) := by
  obtain ⟨node, hlook⟩ := hrow.look hfirst
  refine ⟨row, ?_, hrow.congr fun i _ => Tree.look_build hrun hlook i, hn, rfl⟩
  rw [Tree.root_build hrun, hfirst]

open Plan in
/-- A formula that is laid out has the elements it was laid out from. -/
theorem Tree.depicts_ofElements (es : List Element) :
    (Tree.ofElements es).Depicts (Shape.chain (Element.shapes es)) := by
  obtain ⟨ps, t₁, hrun, hfit, htrades, hshapes⟩ := run_layElements es ⟨#[], 0⟩
  obtain ⟨row, first, t₂, hrun', hfirst, hrow, hshapes', htrades'⟩ :=
    run_chain (Span.point 0) hfit.loose htrades.nodup
  rw [← hshapes, ← hshapes']
  refine Tree.depicts_build ?_ hfirst hrow htrades'.nodup
  rw [Tree.run_bind_of_run hrun, hrun']

end Formulary
