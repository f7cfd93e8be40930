import Formulary.Proofs.Footprint
import Formulary.Proofs.Reading

/-!
# Tiled trees

Every node of a formula that is laid out stands for a stretch that has its own symbols at either end
and the stretches of what hangs under it between (`Tree.Tiled`): a group for its two braces and what
is inside, a cell for its element and the cells after it. So do the elements it is laid out from
(`Element.Tiled`).
-/

namespace Formulary

open Text (byteSize)

open Formulary.Span (Tile)

/-- What is written for a node before all that hangs under it. -/
def Node.front : Node → List Char
  | .literal text => text.toList
  | .empty | .sequence .. => []
  | .group fence _ => [fence.opening.char]
  | .script marker _ => [marker.char]
  | .command name _ => Symbol.backslash.char :: name.toList
  | .block name .. => Shape.delimiterChars .opens name

/-- What is written for a node after all that hangs under it. -/
def Node.back : Node → List Char
  | .group fence _ => [fence.closing.char]
  | .block name .. => Shape.delimiterChars .closes name
  | .literal _ | .empty | .sequence .. | .script .. | .command .. => []

namespace Tree

variable {t t' : Tree}

/-- A node other than a block whose span consists of its symbols and the spans of what hangs
under it. -/
structure TiledAt (t : Tree) (id : NodeId) : Prop where
  lt_size : ∀ child ∈ (t.node id).children, child < t.size
  isBlock : (t.node id).isBlock = false
  encloses : (t.span id).Encloses (t.node id).front ((t.node id).children.map t.span)
    (t.node id).back

/-- A store in which all nodes are tiled. -/
def Tiled (t : Tree) : Prop := ∀ id < t.size, t.TiledAt id

theorem TiledAt.alters {changed : List NodeId} {id : NodeId} (h : t.TiledAt id) (hid : id < t.size)
    (halters : t.Alters t' changed) (hnot : id ∉ changed) : t'.TiledAt id := by
  have hnode := halters.node_eq id hid hnot
  have hspans : (t.node id).children.map t'.span = (t.node id).children.map t.span :=
    List.map_congr_left fun child hchild => halters.span_eq child (h.lt_size child hchild)
  refine ⟨fun child hchild => ?_, ?_, ?_⟩
  · rw [hnode] at hchild
    exact (h.lt_size child hchild).trans_le halters.size_le
  · rw [hnode]
    exact h.isBlock
  · rw [hnode, hspans, halters.span_eq id hid]
    exact h.encloses

/-- A program has added a tiled node for a stretch, and changed nothing that was there. -/
structure Adds (t t' : Tree) (id : NodeId) (p : Span) : Prop where
  tiled : t'.Tiled
  alters : t.Alters t' []
  lt_size : id < t'.size
  span_eq : t'.span id = p

theorem Adds.of_alters {t'' : Tree} {id : NodeId} {p : Span} (h : t'.Adds t'' id p)
    (halters : t.Alters t' []) : t.Adds t'' id p :=
  { h with alters := halters.trans h.alters }

theorem Tiled.adds_grown (h : t.Tiled) (node : Node) (p : Span)
    (hlt : ∀ child ∈ node.children, child < t.size) (hblock : node.isBlock = false)
    (hencloses : p.Encloses node.front (node.children.map t.span) node.back) :
    t.Adds (t.grown node p) t.size p := by
  have halters := alters_grown (t := t) node p
  have hslot := slot_grown hlt p t.size
  rw [if_pos rfl] at hslot
  have hnode : (t.grown node p).node t.size = node := congrArg Slot.node hslot
  have hspan : (t.grown node p).span t.size = p := congrArg Slot.span hslot
  refine ⟨fun id hid => ?_, halters, by simp, hspan⟩
  rw [size_grown] at hid
  rcases Nat.lt_succ_iff_lt_or_eq.mp hid with hold | rfl
  · exact (h id hold).alters hold halters List.not_mem_nil
  · have hspans : node.children.map (t.grown node p).span = node.children.map t.span :=
      List.map_congr_left fun child hchild => halters.span_eq child (hlt child hchild)
    refine ⟨fun child hchild => ?_, by rw [hnode, hblock], ?_⟩
    · rw [hnode] at hchild
      exact (hlt child hchild).trans_le halters.size_le
    · rw [hnode, hspan, hspans]
      exact hencloses

/-- The cells of a chain stand for what its elements stand for. -/
theorem Tiled.exists_chain (h : t.Tiled) (place : Span) {ids : List NodeId} {start stop : Nat}
    (hlt : ∀ id ∈ ids, id < t.size) (htile : Tile start (ids.map t.span) stop)
    (hplace : ids = [] → place = Span.point start) :
    ∃ id t', (chain place ids).run t = (id, t') ∧ t.Adds t' id ⟨start, stop⟩ := by
  induction ids generalizing start with
  | nil =>
    obtain rfl : start = stop := htile
    obtain rfl := hplace rfl
    have hempty := h.adds_grown .empty (Span.point start) (by simp [Node.children])
      rfl ⟨start, rfl, rfl⟩
    have hcell := hempty.tiled.adds_grown (.sequence t.size none) (Span.point start)
      (by simp [Node.children]) rfl ⟨start, ?_, rfl⟩
    · exact ⟨_, _, rfl, hcell.of_alters hempty.alters⟩
    · simp only [Node.children, Option.toList_none, List.map_cons, List.map_nil, hempty.span_eq]
      exact ⟨rfl, Nat.le_refl _, rfl⟩
  | cons head rest ih =>
    obtain ⟨hstart, hle, hrest⟩ := htile
    rw [List.forall_mem_cons] at hlt
    cases rest with
    | nil =>
      obtain rfl : (t.span head).stop = stop := hrest
      subst hstart
      have hcell := h.adds_grown (.sequence head none) (t.span head)
        (by simpa [Node.children] using hlt.1) rfl ⟨_, ⟨rfl, hle, rfl⟩, rfl⟩
      exact ⟨_, t.grown (.sequence head none) (t.span head), rfl, hcell⟩
    | cons next rest =>
      obtain ⟨tail, t₁, hrun, htail⟩ := ih hlt.2 hrest (fun hnil => by cases hnil)
      have hhead := htail.alters.span_eq head hlt.1
      have hheadlt := hlt.1.trans_le htail.alters.size_le
      have hstop := hrest.le
      have hunion : (t₁.span head).union (t₁.span tail) = ⟨start, stop⟩ := by
        rw [hhead, htail.span_eq, ← hstart]
        exact Span.union_of_le (b := (t.span head).stop) hle hstop
      have hcell := htail.tiled.adds_grown (.sequence head (some tail)) (⟨start, stop⟩)
        (by simpa [Node.children] using ⟨hheadlt, htail.lt_size⟩) rfl ⟨stop, ?_, rfl⟩
      · refine ⟨_, _, ?_, hcell.of_alters htail.alters⟩
        rw [← hunion, chain, run_bind_of_run hrun]
        rfl
        simp
      · simp only [Node.children, Option.toList_some, List.map_cons, List.map_nil, hhead,
          htail.span_eq]
        exact ⟨hstart, hle, rfl, hstop, rfl⟩

mutual

theorem Tiled.exists_layElement : ∀ (e : Element) {t : Tree}, t.Tiled → e.Tiled →
    ∃ id t', (layElement e).run t = (id, t') ∧ t.Adds t' id e.span
  | .literal text span, t, h, he => by
    rw [Element.Tiled] at he
    exact ⟨_, _, rfl, h.adds_grown (.literal text) span (by simp [Node.children]) rfl he⟩
  | .group fence inner span, t, h, he => by
    rw [Element.Tiled] at he
    have hinside := he.2.inside
    obtain ⟨hinner, stop, htile, hstop⟩ := he
    obtain ⟨ids, t₁, hrun, htiled, halters, hlt, hspans⟩ := h.exists_layElements inner hinner
    have hle := htile.le
    rw [← hspans] at htile
    obtain ⟨first, t₂, hrun', hchain⟩ := htiled.exists_chain _ hlt htile fun _ => hinside
    have hgroup := hchain.tiled.adds_grown (.group fence first) span
      (by simpa [Node.children] using hchain.lt_size) rfl ⟨stop, ?_, hstop⟩
    · refine ⟨_, _, ?_, hgroup.of_alters (halters.trans hchain.alters)⟩
      rw [layElement, run_bind_of_run hrun, run_bind_of_run hrun']
      rfl
    · simp only [Node.children, List.map_cons, List.map_nil, hchain.span_eq]
      exact ⟨rfl, hle, rfl⟩
  | .script marker operand span, t, h, he => by
    rw [Element.Tiled] at he
    obtain ⟨id, t₁, hrun, hadds⟩ := h.exists_layElement operand he.1
    have hscript := hadds.tiled.adds_grown (.script marker id) span
      (by simpa [Node.children] using hadds.lt_size) rfl ?_
    · refine ⟨_, _, ?_, hscript.of_alters hadds.alters⟩
      rw [layElement, run_bind_of_run hrun]
      rfl
    · simp only [Node.children, List.map_cons, List.map_nil, hadds.span_eq]
      exact he.2
  | .command name parameters span, t, h, he => by
    rw [Element.Tiled] at he
    obtain ⟨ids, t₁, hrun, htiled, halters, hlt, hspans⟩ := h.exists_layElements parameters he.1
    have hcommand := htiled.adds_grown (.command name ids) span hlt rfl ?_
    · refine ⟨_, _, ?_, hcommand.of_alters halters⟩
      rw [layElement, run_bind_of_run hrun]
      rfl
    · rw [Node.children, hspans]
      exact he.2

theorem Tiled.exists_layElements : ∀ (es : List Element) {t : Tree}, t.Tiled →
    Element.AllTiled es →
    ∃ ids t', (layElements es).run t = (ids, t') ∧ t'.Tiled ∧ t.Alters t' [] ∧
      (∀ id ∈ ids, id < t'.size) ∧ ids.map t'.span = es.map Element.span
  | [], t, h, _ => by
    refine ⟨[], t, ?_, h, Alters.refl t [], by simp, rfl⟩
    rw [layElements]
    rfl
  | e :: es, t, h, hes => by
    rw [Element.AllTiled] at hes
    obtain ⟨id, t₁, hrun, hadds⟩ := h.exists_layElement e hes.1
    obtain ⟨ids, t₂, hrun', htiled, halters, hlt, hspans⟩ := hadds.tiled.exists_layElements es hes.2
    refine ⟨id :: ids, t₂, ?_, htiled, hadds.alters.trans halters, ?_, ?_⟩
    · rw [layElements, run_bind_of_run hrun, run_bind_of_run hrun']
      rfl
    · exact List.forall_mem_cons.mpr ⟨hadds.lt_size.trans_le halters.size_le, hlt⟩
    · rw [List.map_cons, List.map_cons, hspans, halters.span_eq id hadds.lt_size, hadds.span_eq]

end

/-- A formula that is read is tiled, from the start of the text on. -/
theorem tiled_parse {s : String} (h : parse s = .ok t) : t.Tiled ∧ (t.span t.root).start = 0 := by
  rw [parse, Element.readAll] at h
  cases hread : Element.readChain none 0 s.toList with
  | error e =>
    rw [hread] at h
    cases h
  | ok r =>
    rw [hread] at h
    obtain rfl := Except.ok.inj h
    obtain ⟨-, hes, htile⟩ := Element.readChain_sound none 0 s.toList hread
    have hnone : (⟨#[], 0⟩ : Tree).Tiled := fun id hid => absurd hid (Nat.not_lt_zero id)
    obtain ⟨ids, t₁, hrun, htiled, -, hlt, hspans⟩ := hnone.exists_layElements r.value hes
    rw [← hspans] at htile
    obtain ⟨root, t₂, hrun', hchain⟩ :=
      htiled.exists_chain (Span.point 0) hlt htile fun _ => rfl
    have hbuild : ofElements r.value = { t₂ with root := root }.setParent root none := by
      rw [ofElements, build, run_bind_of_run hrun, hrun']
    have halters : Alters { t₂ with root := root } (ofElements r.value) [] :=
      hbuild ▸ alters_setParent root none
    have hsize : (ofElements r.value).size = t₂.size := by rw [hbuild, size_setParent]; rfl
    refine ⟨fun id hid => ?_, ?_⟩
    · have hat := hchain.tiled id (hsize ▸ hid)
      have hat' : TiledAt { t₂ with root := root } id := ⟨hat.lt_size, hat.isBlock, hat.encloses⟩
      exact hat'.alters (hsize ▸ hid) halters List.not_mem_nil
    · rw [halters.root_eq, halters.span_eq root hchain.lt_size]
      exact congrArg Span.start hchain.span_eq

end Tree

end Formulary
