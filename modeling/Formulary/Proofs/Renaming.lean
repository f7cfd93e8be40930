import Formulary.Environment
import Formulary.Proofs.Margins
import Formulary.Proofs.Traversal

/-!
# Other names for blocks

Renaming leaves the formula as it is but for the names of its blocks: `Tree.Depicts.renames`. Blocks
are visited one by one, and each is visited once, so that a new name is never taken for an old one
and slots can be compared one by one (`Tree.Linked.slot_renames`).

A formula can be read back under other names, since its text changes only between the braces after
the commands that delimit blocks. There a name stands alone in a group, and any other name may stand
there as well. `Shape.Akin` says this of formulas whose blocks are spread out, and
`AsRead.renamedRow` of formulas with blocks.
-/

namespace Formulary

open BlockMarker (isName)
open Plan Shape

/-- The name that blocks with a given name get. -/
def Renames.target (r : Renames) (name : String) : String := (r.find? name).getD name

/-- A node under another name if it is a block. -/
def Node.renamed (new : String → String) : Node → Node
  | .block name parameters body => .block (new name) parameters body
  | node => node

/-- A node keeps its children under another name. -/
theorem Node.children_renamed (new : String → String) (node : Node) :
    (node.renamed new).children = node.children := by
  cases node <;> rfl

/-- A slot whose node has another name if it is a block. -/
def Slot.renamed (new : String → String) (slot : Slot) : Slot :=
  { slot with node := slot.node.renamed new }

namespace Shape

section

variable (new : String → String)

mutual

/-- An element in which all blocks have other names. -/
def renamed : Shape → Shape
  | .literal text => .literal text
  | .empty => .empty
  | .group fence inner => .group fence (renamedRow inner)
  | .script marker operand => .script marker operand.renamed
  | .command name parameters => .command name (renamedRow parameters)
  | .block name parameters body => .block (new name) (renamedRow parameters) (renamedRow body)

/-- Elements in which all blocks have other names. -/
def renamedRow : List Shape → List Shape
  | [] => []
  | f :: fs => f.renamed :: renamedRow fs

end

end

variable {new : String → String}

@[simp] theorem renamedRow_nil : renamedRow new [] = [] := by rw [renamedRow]

@[simp] theorem renamedRow_cons (f : Shape) (fs : List Shape) :
    renamedRow new (f :: fs) = f.renamed new :: renamedRow new fs := by
  rw [renamedRow]

theorem renamedRow_eq_map (fs : List Shape) : renamedRow new fs = fs.map (renamed new) := by
  induction fs with
  | nil => rfl
  | cons f fs ih => rw [renamedRow_cons, ih, List.map_cons]

@[simp] theorem renamedRow_append (fs gs : List Shape) :
    renamedRow new (fs ++ gs) = renamedRow new fs ++ renamedRow new gs := by
  simp only [renamedRow_eq_map, List.map_append]

@[simp] theorem renamedRow_chain (fs : List Shape) :
    renamedRow new (chain fs) = chain (renamedRow new fs) := by
  cases fs with
  | nil => simp [renamed]
  | cons f fs => rw [chain_cons, renamedRow_cons, chain_cons]

end Shape

/-- What a node says under another name, over what has other names. -/
theorem Node.shapesOver_renamed (new : String → String) (node : Node) (under : List Shape) :
    (node.renamed new).shapesOver (renamedRow new under) = renamedRow new (node.shapesOver under) := by
  cases node <;> simp [Node.renamed, shapesOver, renamedRow_eq_map, Shape.renamed]

/-! ## In the store -/

section

variable {t t' : Tree} {r : Renames}

/-- A node stays as it is where its name does not change, or is set under its new name. -/
theorem renameNode_cases (r : Renames) (t : Tree) (id : NodeId) :
    (r.renameNode t id = t ∧ (t.node id).renamed r.target = t.node id) ∨
      r.renameNode t id = t.setNode id ((t.node id).renamed r.target) := by
  rw [Renames.renameNode]
  cases hnode : t.node id with
  | block name parameters body =>
    rw [Node.renamed, Renames.target]
    dsimp only
    cases r.find? name with
    | none => exact Or.inl ⟨rfl, rfl⟩
    | some new =>
      dsimp only [Option.getD_some]
      rw [Tree.rename, hnode]
      exact Or.inr rfl
  | literal | empty | sequence | group | script | command => exact Or.inl ⟨rfl, rfl⟩

theorem root_renames (r : Renames) (t : Tree) : (r.apply t).root = t.root := by
  rw [Renames.apply]
  generalize t.visited t.root = ids
  induction ids generalizing t with
  | nil => rfl
  | cons id ids ih =>
    rw [List.foldl_cons, ih]
    rcases renameNode_cases r t id with ⟨heq, -⟩ | heq <;> rw [heq]
    rfl

namespace Tree

theorem sameLinks_renameNode (r : Renames) (t : Tree) (id : NodeId) :
    t.SameLinks (r.renameNode t id) := by
  rw [Renames.renameNode]
  split
  · split
    · exact sameLinks_rename _ _
    · exact SameLinks.refl t
  · exact SameLinks.refl t

/-- Renaming changes no links. -/
theorem sameLinks_renames (r : Renames) (t : Tree) : t.SameLinks (r.apply t) := by
  rw [Renames.apply]
  generalize t.visited t.root = ids
  induction ids generalizing t with
  | nil => exact SameLinks.refl t
  | cons id ids ih => exact (sameLinks_renameNode r t id).trans (ih _)

theorem size_renameNode (r : Renames) (t : Tree) (id : NodeId) :
    (r.renameNode t id).size = t.size := by
  rcases renameNode_cases r t id with ⟨heq, -⟩ | heq
  · rw [heq]
  · rw [heq, size_setNode]

theorem size_renames (r : Renames) (t : Tree) : (r.apply t).size = t.size := by
  rw [Renames.apply]
  generalize t.visited t.root = ids
  induction ids generalizing t with
  | nil => rfl
  | cons id ids ih => rw [List.foldl_cons, ih, size_renameNode]

/-- One node is renamed, and all other slots stay. -/
theorem slot_renameNode (r : Renames) (t : Tree) (id i : NodeId) :
    (r.renameNode t id).slot i = if id = i then (t.slot i).renamed r.target else t.slot i := by
  have hsame : (t.node id).renamed r.target = t.node id → (t.slot id).renamed r.target = t.slot id :=
    fun heq => by rw [Slot.renamed, ← node, heq]; rfl
  rcases renameNode_cases r t id with ⟨heq, hnode⟩ | heq
  · rw [heq]
    split
    · rename_i hid
      rw [← hid, hsame hnode]
    · rfl
  · rw [heq, setNode, slot_modifySlot]
    by_cases hid : id = i
    · subst hid
      by_cases hlt : id < t.size
      · rw [if_pos ⟨rfl, hlt⟩, if_pos rfl]
        rfl
      · -- A position that was never given out reads as an empty node, which has no name.
        have hempty : t.node id = .empty := by
          rw [node_eq_look, look_eq_none_iff.mpr (Nat.le_of_not_lt hlt)]
          rfl
        rw [if_neg fun h => hlt h.2, if_pos rfl, hsame (by rw [hempty]; rfl)]
    · rw [if_neg fun h => hid h.1, if_neg hid]

/-- Every node of a list without repetitions is renamed once. -/
theorem slot_foldl_renameNode {ids : List NodeId} (h : ids.Nodup) (i : NodeId) :
    (ids.foldl r.renameNode t).slot i =
      if i ∈ ids then (t.slot i).renamed r.target else t.slot i := by
  induction ids generalizing t with
  | nil => rfl
  | cons id ids ih =>
    obtain ⟨hnot, hrest⟩ := List.nodup_cons.mp h
    rw [List.foldl_cons, ih hrest, slot_renameNode]
    by_cases hid : id = i
    · subst hid
      rw [if_neg hnot, if_pos rfl, if_pos List.mem_cons_self]
    · simp only [if_neg hid, List.mem_cons, or_iff_right (Ne.symm hid)]

/-- Just the nodes of the formula are renamed. -/
theorem Linked.slot_renames (h : t.Linked t.root) (r : Renames) (i : NodeId) :
    (t.Reaches t.root i → (r.apply t).slot i = (t.slot i).renamed r.target) ∧
      (¬t.Reaches t.root i → (r.apply t).slot i = t.slot i) := by
  rw [Renames.apply, slot_foldl_renameNode h.nodup_visited]
  constructor
  · intro hreach
    split
    · rfl
    · -- What is reached and not shown is a cell, and has no name.
      rename_i hnot
      have htail : t.isTailCell i = true := by
        by_contra hcell
        exact hnot (h.mem_visited.mpr ⟨hreach, Bool.eq_false_of_not_eq_true hcell⟩)
      obtain ⟨head, tail, hnode⟩ :=
        exists_of_isSequence (h.isSequence_of_isTailCell hreach htail)
      rw [Slot.renamed, ← node, hnode]
      exact congrArg (fun node => (⟨node, t.parent i, t.span i⟩ : Slot)) hnode
  · intro hnot
    rw [if_neg fun hmem => hnot (h.mem_visited.mp hmem).1]

end Tree

/-- Parts at the same positions say the same but for the names of blocks, if their nodes do. -/
theorem Part.Fits.shapes_renamed {new : String → String} {x y : Part} {up up' : Option NodeId}
    (hx : x.Fits t up) (hy : y.Fits t' up') (hid : x.id = y.id)
    (h : ∀ i ∈ x.ids, t'.node i = (t.node i).renamed new) :
    y.shapes = renamedRow new x.shapes := by
  induction x using Part.induction generalizing y up up' with
  | step x ih =>
    have hnode : y.node = x.node.renamed new := by
      rw [← hy.node, ← hid, h _ x.id_mem_ids, hx.node]
    have hids : x.children.map Part.id = y.children.map Part.id := by
      rw [← hx.node_children, ← hy.node_children, hnode, Node.children_renamed]
    have hunder : (x.children.map fun z => renamedRow new z.shapes) = y.children.map Part.shapes := by
      refine Part.map_eq_map hids fun z hz w hw heq => ?_
      rw [ih z hz (hx.children z hz) (hy.children w hw) heq fun i hi =>
        h i (Part.mem_ids_of_child hz hi)]
    rw [Part.shapes_eq, Part.shapes_eq x, hnode, ← Node.shapesOver_renamed, List.flatMap_def,
      ← hunder, renamedRow_eq_map, List.map_flatMap, List.flatMap_def]
    simp only [renamedRow_eq_map]

/-- Renaming gives the blocks of a formula their new names, wherever they stand. -/
theorem Tree.Depicts.renames {fs : List Shape} (h : t.Depicts fs) (r : Renames) :
    (r.apply t).Depicts (renamedRow r.target fs) := by
  have hlinked := h.linked
  obtain ⟨row, hfirst, hfits, hn, rfl⟩ := h
  obtain ⟨p, rest, rfl⟩ := exists_of_nextCell hfirst
  have hsame := sameLinks_renames r t
  obtain ⟨q, rest', hfits', hn'⟩ := (hlinked.congr hsame).exists_chain
    ((hsame.isSequence_eq t.root).trans hfits.isSequence)
  refine ⟨(t.root, q) :: rest', ?_, hfits', hn', ?_⟩
  · rw [root_renames]
    rfl
  · have hpart : (Part.chain t.root p rest).Fits t none := hfits
    have hshapes := hpart.shapes_renamed (y := .chain t.root q rest') hfits' rfl fun i hi =>
      congrArg Slot.node ((hlinked.slot_renames r i).1 (hpart.reaches_iff.mpr hi))
    rw [rowShapes_cons, rowShapes_cons]
    exact hshapes

end

/-! ## What names do not matter for -/

namespace Shape

variable {fs gs : List Shape} {new : String → String} {kind : String → Prop}

@[simp] theorem isGroup_renamed (f : Shape) : (f.renamed new).isGroup = f.isGroup := by
  cases f <;> rw [renamed] <;> rfl

@[simp] theorem isAtomic_renamed (f : Shape) : (f.renamed new).isAtomic = f.isAtomic := by
  cases f <;> rw [renamed] <;> rfl

@[simp] theorem isBlock_renamed (f : Shape) : (f.renamed new).isBlock = f.isBlock := by
  cases f <;> rw [renamed] <;> rfl

theorem isGroup_renamedRow (h : ∀ f ∈ fs, f.isGroup = true) :
    ∀ f ∈ renamedRow new fs, f.isGroup = true := by
  rw [renamedRow_eq_map, List.forall_mem_map]
  simpa using h

mutual

/-- Renaming blocks leaves the names of commands alone. -/
theorem commands_renamed : ∀ f : Shape, (f.renamed new).commands = f.commands
  | .literal _ | .empty => by rw [renamed]
  | .group _ fs | .command _ fs => by
    rw [renamed, commands, commands, commandsOf_renamedRow fs]
  | .script _ operand => by rw [renamed, commands, commands, commands_renamed operand]
  | .block _ parameters body => by
    rw [renamed, commands, commands, commandsOf_renamedRow parameters, commandsOf_renamedRow body]

theorem commandsOf_renamedRow : ∀ fs : List Shape, commandsOf (renamedRow new fs) = commandsOf fs
  | [] => by rw [renamedRow_nil]
  | f :: fs => by
    rw [renamedRow_cons, commandsOf_cons, commandsOf_cons, commands_renamed f,
      commandsOf_renamedRow fs]

end

mutual

/-- Renaming twice is renaming once by both in turn. -/
theorem renamed_renamed {new' : String → String} : ∀ f : Shape,
    (f.renamed new).renamed new' = f.renamed fun name => new' (new name)
  | .literal _ | .empty => by
    rw [renamed, renamed, renamed]
  | .group _ fs | .command _ fs => by rw [renamed, renamed, renamed, renamedRow_renamedRow fs]
  | .script _ operand => by rw [renamed, renamed, renamed, renamed_renamed operand]
  | .block _ parameters body => by
    rw [renamed, renamed, renamed, renamedRow_renamedRow parameters, renamedRow_renamedRow body]

theorem renamedRow_renamedRow {new' : String → String} : ∀ fs : List Shape,
    renamedRow new' (renamedRow new fs) = renamedRow (fun name => new' (new name)) fs
  | [] => by simp
  | f :: fs => by
    rw [renamedRow_cons, renamedRow_cons, renamedRow_cons, renamed_renamed f,
      renamedRow_renamedRow fs]

end

mutual

/-- A regular element is regular under names that are names. -/
theorem Regular.renamed (hnew : ∀ name, isName name → isName (new name)) :
    ∀ {f : Shape}, f.Regular kind → (f.renamed new).Regular kind
  | .literal _, _ | .empty, _ => by simp [Shape.renamed, Regular]
  | .group _ _, h => by
    rw [Regular] at h
    rw [Shape.renamed, Regular]
    exact RegularRow.renamedRow hnew h
  | .script _ _, h => by
    rw [Regular] at h
    rw [Shape.renamed, Regular, isAtomic_renamed]
    exact ⟨h.1, Regular.renamed hnew h.2⟩
  | .command _ _, h => by
    rw [Regular] at h
    rw [Shape.renamed, Regular]
    exact ⟨h.1, isGroup_renamedRow h.2.1, RegularRow.renamedRow hnew h.2.2⟩
  | .block _ _ body, h => by
    rw [Regular] at h
    obtain ⟨hname, hgroups, hparameters, hne, hbody⟩ := h
    rw [Shape.renamed, Regular]
    refine ⟨hnew _ hname, isGroup_renamedRow hgroups, RegularRow.renamedRow hnew hparameters, ?_,
      RegularRow.renamedRow hnew hbody⟩
    rw [renamedRow_eq_map]
    simpa using hne

theorem RegularRow.renamedRow (hnew : ∀ name, isName name → isName (new name)) :
    ∀ {fs : List Shape}, RegularRow kind fs → RegularRow kind (Shape.renamedRow new fs)
  | [], _ => by simp
  | _ :: _, h => by
    rw [regularRow_cons] at h
    rw [renamedRow_cons, regularRow_cons]
    exact ⟨Regular.renamed hnew h.1, RegularRow.renamedRow hnew h.2⟩

end

/-! ## Reading under other names -/

mutual

/-- Two elements without blocks that are the same but for names that stand alone in groups. -/
def Akin : Shape → Shape → Prop
  | .literal text, g => g = .literal text
  | .empty, g => g = .empty
  | .group fence inner, g => ∃ inner', g = .group fence inner' ∧ (AkinRow inner inner' ∨
      ∃ name name', isName name' = true ∧ inner = [.literal name] ∧ inner' = [.literal name'])
  | .script marker operand, g => ∃ operand', g = .script marker operand' ∧ Akin operand operand'
  | .command name parameters, g =>
    ∃ parameters', g = .command name parameters' ∧ AkinRow parameters parameters'
  | .block .., _ => False

/-- The same for elements one by one. -/
def AkinRow : List Shape → List Shape → Prop
  | [], gs => gs = []
  | f :: fs, gs => ∃ g gs', gs = g :: gs' ∧ Akin f g ∧ AkinRow fs gs'

end

@[simp] theorem akinRow_nil : AkinRow [] gs ↔ gs = [] := by rw [AkinRow]

theorem akinRow_cons {f : Shape} :
    AkinRow (f :: fs) gs ↔ ∃ g gs', gs = g :: gs' ∧ Akin f g ∧ AkinRow fs gs' := by
  rw [AkinRow]

theorem AkinRow.cons {f g : Shape} (h : Akin f g) (hfs : AkinRow fs gs) :
    AkinRow (f :: fs) (g :: gs) :=
  akinRow_cons.mpr ⟨g, gs, rfl, h, hfs⟩

theorem AkinRow.append {fs' gs' : List Shape} (h : AkinRow fs gs) (h' : AkinRow fs' gs') :
    AkinRow (fs ++ fs') (gs ++ gs') := by
  induction fs generalizing gs with
  | nil =>
    rw [akinRow_nil] at h
    rwa [h]
  | cons f fs ih =>
    obtain ⟨g, gs, rfl, hfg, hfs⟩ := akinRow_cons.mp h
    exact (ih hfs).cons hfg

namespace Akin

variable {f g : Shape}

/-- Akin elements are groups together and literals together. -/
theorem kind_eq (h : Akin f g) : g.isGroup = f.isGroup ∧ g.isLiteral = f.isLiteral := by
  cases f with
  | literal | empty =>
    rw [Akin] at h
    rw [h]
    exact ⟨rfl, rfl⟩
  | group | script | command =>
    rw [Akin] at h
    obtain ⟨_, rfl, -⟩ := h
    exact ⟨rfl, rfl⟩
  | block => simp [Akin] at h

/-- What is akin to a literal or to nothing is that itself. -/
theorem eq_of_leaf (h : Akin f g) (hg : g.isLiteral = true ∨ g.isEmpty = true) : f = g := by
  cases f with
  | literal | empty =>
    rw [Akin] at h
    exact h.symm
  | group | script | command =>
    rw [Akin] at h
    obtain ⟨_, rfl, -⟩ := h
    rcases hg with hg | hg <;> cases hg
  | block => simp [Akin] at h

/-- Both end with a command made of letters or none does, and both commands have parameters or none
has. -/
theorem trailing_eq : ∀ {f g : Shape}, Akin f g →
    g.trailing.map List.isEmpty = f.trailing.map List.isEmpty
  | .literal _, _, h => by
    rw [Akin] at h
    rw [h]
  | .empty, _, h => by
    rw [Akin] at h
    rw [h]
  | .group .., _, h => by
    rw [Akin] at h
    obtain ⟨_, rfl, -⟩ := h
    rfl
  | .script _ operand, _, h => by
    rw [Akin] at h
    obtain ⟨operand', rfl, hoperand⟩ := h
    rw [trailing, trailing, trailing_eq hoperand]
  | .command name parameters, _, h => by
    rw [Akin] at h
    obtain ⟨parameters', rfl, hparameters⟩ := h
    rw [trailing, trailing]
    split
    · cases parameters with
      | nil => rw [akinRow_nil.mp hparameters]
      | cons p ps =>
        obtain ⟨_, _, rfl, -⟩ := akinRow_cons.mp hparameters
        rfl
    · rfl
  | .block .., _, h => by simp [Akin] at h

/-- Akin elements may follow akin elements. -/
theorem mayFollow {f' g' : Shape} (h : Akin f g) (h' : Akin f' g') (hfollow : MayFollow f f') :
    MayFollow g g' := by
  rw [MayFollow, h.kind_eq.2, h'.kind_eq.2]
  refine ⟨hfollow.1, fun parameters htrailing => ?_⟩
  have hmap := h.trailing_eq
  rw [htrailing, eq_comm] at hmap
  obtain ⟨parameters', htrailing', hempty⟩ := Option.map_eq_some_iff.mp hmap
  obtain ⟨hgroup, htext⟩ := hfollow.2 parameters' htrailing'
  refine ⟨h'.kind_eq.1.trans hgroup, ?_⟩
  rintro text rfl c hc
  obtain ⟨hc, hletter⟩ := htext text (h'.eq_of_leaf (Or.inl rfl)) c hc
  refine ⟨hc, fun hnil => hletter ?_⟩
  rw [hnil] at hempty
  exact List.isEmpty_iff.mp hempty

end Akin

theorem AkinRow.isChain (h : AkinRow fs gs) (hfs : fs.IsChain MayFollow) :
    gs.IsChain MayFollow := by
  induction fs generalizing gs with
  | nil =>
    rw [akinRow_nil] at h
    rw [h]
    exact .nil
  | cons f fs ih =>
    obtain ⟨g, gs, rfl, hfg, hrest⟩ := akinRow_cons.mp h
    rw [List.isChain_cons] at hfs ⊢
    refine ⟨fun g' hg' => ?_, ih hrest hfs.2⟩
    cases fs with
    | nil =>
      rw [akinRow_nil.mp hrest] at hg'
      cases hg'
    | cons f' fs =>
      obtain ⟨_, _, rfl, hfg', -⟩ := akinRow_cons.mp hrest
      obtain rfl := Option.some.inj hg'
      exact hfg.mayFollow hfg' (hfs.1 f' rfl)

/-- A name alone is a chain that a reader gives. -/
theorem canonicalChain_name {name : String} (h : isName name = true) (closer : Option Symbol) :
    CanonicalChain closer [.literal name] := by
  obtain ⟨hne, hplain⟩ := isPlain_of_isName h
  refine Or.inr ⟨List.cons_ne_nil _ _, ?_, .singleton _⟩
  rw [allCanonical_cons, canonical_literal]
  exact ⟨⟨hne, .of_plain hplain⟩, allCanonical_nil _⟩

theorem AkinRow.canonicalChain {closer : Option Symbol} (h : AkinRow fs gs)
    (hfs : CanonicalChain closer fs)
    (hall : AllCanonical (.chain closer) fs → AllCanonical (.chain closer) gs) :
    CanonicalChain closer gs := by
  rcases hfs with rfl | ⟨hne, hcanonical, hchain⟩
  · obtain ⟨g, gs, rfl, hg, hgs⟩ := akinRow_cons.mp h
    rw [Akin] at hg
    rw [akinRow_nil] at hgs
    exact Or.inl (by rw [hg, hgs])
  · refine Or.inr ⟨?_, hall hcanonical, h.isChain hchain⟩
    rintro rfl
    cases fs with
    | nil => exact hne rfl
    | cons f fs =>
      obtain ⟨_, _, heq, -⟩ := akinRow_cons.mp h
      cases heq

mutual

/-- What is akin to what a reader gives is given by a reader too. -/
theorem Canonical.akin : ∀ {f g : Shape} {place : Place}, Canonical place f → Akin f g →
    Canonical place g
  | .literal _, _, _, h, hfg => by
    rw [Akin] at hfg
    rwa [hfg]
  | .empty, _, _, h, hfg => by
    rw [Akin] at hfg
    rwa [hfg]
  | .group fence inner, _, place, h, hfg => by
    rw [Akin] at hfg
    obtain ⟨inner', rfl, hinner⟩ := hfg
    rw [canonical_group] at h ⊢
    refine ⟨h.1, ?_⟩
    -- A group may be the one that names a block.
    rcases hinner with hrow | ⟨_, name', hname', -, rfl⟩
    · exact hrow.canonicalChain h.2 fun hall => AllCanonical.akin hall hrow
    · exact canonicalChain_name hname' _
  | .script _ operand, _, place, h, hfg => by
    rw [Akin] at hfg
    obtain ⟨operand', rfl, hoperand⟩ := hfg
    cases place with
    | chain =>
      rw [canonical_script] at h ⊢
      exact Canonical.akin h hoperand
    | operand | parameter => simp [Canonical] at h
  | .command name parameters, _, place, h, hfg => by
    rw [Akin] at hfg
    obtain ⟨parameters', rfl, hparameters⟩ := hfg
    rw [canonical_command] at h ⊢
    refine ⟨h.1, h.2.imp ?_ ?_⟩
    · rintro ⟨hmark, rfl⟩
      exact ⟨hmark, akinRow_nil.mp hparameters⟩
    · exact And.imp_right fun hall => AllCanonical.akin hall hparameters
  | .block .., _, _, h, _ => by simp [Canonical] at h

theorem AllCanonical.akin : ∀ {fs gs : List Shape} {place : Place}, AllCanonical place fs →
    AkinRow fs gs → AllCanonical place gs
  | [], _, _, _, hfs => by
    rw [akinRow_nil.mp hfs]
    exact allCanonical_nil _
  | f :: fs, _, _, h, hfs => by
    obtain ⟨g, gs, rfl, hfg, hrest⟩ := akinRow_cons.mp hfs
    rw [allCanonical_cons] at h ⊢
    exact ⟨Canonical.akin h.1 hfg, AllCanonical.akin h.2 hrest⟩

end

/-- Delimiting commands are akin whatever names they have. -/
theorem akin_delimiter {side : Delimiting} {name name' : String} (hname : isName name' = true)
    (h : AkinRow fs gs) :
    Akin (delimiter side name fs) (delimiter side name' gs) := by
  rw [delimiter, delimiter, Akin]
  refine ⟨_, rfl, h.cons ?_⟩
  rw [Akin]
  exact ⟨_, rfl, Or.inr ⟨name, name', hname, rfl, rfl⟩⟩

/-- The groups that akin chains start with are akin, and so is the rest. -/
theorem AkinRow.span (h : AkinRow fs gs) :
    AkinRow (fs.takeWhile isGroup) (gs.takeWhile isGroup) ∧
      AkinRow (fs.dropWhile isGroup) (gs.dropWhile isGroup) := by
  induction fs generalizing gs with
  | nil =>
    rw [akinRow_nil.mp h]
    exact ⟨akinRow_nil.mpr rfl, akinRow_nil.mpr rfl⟩
  | cons f fs ih =>
    obtain ⟨g, gs, rfl, hfg, hrest⟩ := akinRow_cons.mp h
    rw [List.takeWhile_cons, List.takeWhile_cons, List.dropWhile_cons, List.dropWhile_cons,
      hfg.kind_eq.1]
    split
    · exact ⟨(ih hrest).1.cons hfg, (ih hrest).2⟩
    · exact ⟨akinRow_nil.mpr rfl, hrest.cons hfg⟩

theorem AkinRow.contents (h : AkinRow fs gs) : AkinRow (Shape.contents fs) (Shape.contents gs) := by
  by_cases hfs : fs = [.empty]
  · subst hfs
    obtain ⟨g, gs, rfl, hg, hgs⟩ := akinRow_cons.mp h
    rw [Akin] at hg
    rw [hg, akinRow_nil.mp hgs]
    exact akinRow_nil.mpr rfl
  · have hgs : gs ≠ [.empty] := by
      rintro rfl
      cases fs with
      | nil => cases akinRow_nil.mp h
      | cons f fs =>
        obtain ⟨g, gs, heq, hfg, hrest⟩ := akinRow_cons.mp h
        obtain ⟨rfl, rfl⟩ := List.cons.inj heq
        obtain rfl := hfg.eq_of_leaf (Or.inr rfl)
        cases fs with
        | nil => exact hfs rfl
        | cons f' fs =>
          obtain ⟨_, _, heq', -⟩ := akinRow_cons.mp hrest
          cases heq'
    rwa [contents_of_ne hfs, contents_of_ne hgs]

mutual

/-- Spread out, an element and the same under other names are akin. -/
theorem akinRow_spreadOnto (hnew : ∀ name, isName name → isName (new name)) :
    ∀ {f : Shape} {rest rest' : List Shape}, f.Regular kind → AkinRow rest rest' →
      AkinRow (f.spreadOnto rest) ((f.renamed new).spreadOnto rest')
  | .literal _, _, _, _, hrest | .empty, _, _, _, hrest => by
    rw [renamed, spreadOnto, spreadOnto]
    exact hrest.cons (by rw [Akin])
  | .group _ inner, _, _, h, hrest => by
    rw [Regular] at h
    rw [renamed, spreadOnto, spreadOnto]
    refine hrest.cons ?_
    rw [Akin]
    exact ⟨_, rfl, Or.inl (akinRow_spreadRow hnew h)⟩
  | .script marker operand, _, _, h, hrest => by
    rw [Regular] at h
    -- An operand is no block, so it is spread out to one element.
    have hblock := isBlock_of_isAtomic h.1
    have hblock' : (operand.renamed new).isBlock = false := (isBlock_renamed operand).trans hblock
    have hoperand := akinRow_spreadOnto hnew h.2 (akinRow_nil.mpr rfl)
    rw [spreadOnto_eq hblock, spreadOnto_eq hblock'] at hoperand
    obtain ⟨_, _, heq, hakin, -⟩ := akinRow_cons.mp hoperand
    obtain ⟨rfl, rfl⟩ := List.cons.inj heq
    rw [renamed, spreadOnto_eq rfl, spreadOnto_eq rfl, spread_script marker hblock,
      spread_script marker hblock']
    refine hrest.cons ?_
    rw [Akin]
    exact ⟨_, rfl, hakin⟩
  | .command _ parameters, _, _, h, hrest => by
    rw [Regular] at h
    rw [renamed, spreadOnto, spreadOnto]
    refine hrest.cons ?_
    rw [Akin]
    exact ⟨_, rfl, akinRow_spreadRow hnew h.2.2⟩
  | .block name parameters body, _, _, h, hrest => by
    rw [Regular] at h
    obtain ⟨hname, -, hparameters, -, hbody⟩ := h
    obtain ⟨htake, hdrop⟩ := hrest.span
    rw [renamed, spreadOnto, spreadOnto]
    refine .cons (akin_delimiter (hnew name hname) (akinRow_spreadRow hnew hparameters)) ?_
    exact (akinRow_spreadRow hnew hbody).contents.append
      (hdrop.cons (akin_delimiter (hnew name hname) htake))

/-- Spread out, a formula is the same under other names but for these names. -/
theorem akinRow_spreadRow (hnew : ∀ name, isName name → isName (new name)) :
    ∀ {fs : List Shape}, RegularRow kind fs →
      AkinRow (spreadRow fs) (spreadRow (renamedRow new fs))
  | [], _ => by simp
  | f :: fs, h => by
    rw [regularRow_cons] at h
    rw [renamedRow_cons, spreadRow_cons, spreadRow_cons]
    exact akinRow_spreadOnto hnew h.1 (akinRow_spreadRow hnew h.2)

end

/-- A formula as it is read from a text, with its blocks resolved. -/
structure AsRead (fs : List Shape) : Prop where
  resolved : Resolved fs
  canonical : CanonicalChain none (spreadRow fs)

/-- What could be read can be read under other names. -/
theorem AsRead.renamedRow (h : AsRead fs) (hnew : ∀ name, isName name → isName (new name)) :
    AsRead (Shape.renamedRow new fs) := by
  have hakin := akinRow_spreadRow hnew h.resolved
  exact ⟨RegularRow.renamedRow hnew h.resolved,
    hakin.canonicalChain h.canonical fun hall => hall.akin hakin⟩

end Shape

end Formulary
