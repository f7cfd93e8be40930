import Formulary.Block
import Formulary.Proofs.Holes
import Formulary.Proofs.Spread

/-!
# Delimiting commands

The commands that delimit blocks, as a plan has them in the order of the text. Which depth was noted
with each of them is a function of its position, since a depth is noted once, before anything is
changed.

* `collect_eq_ok_iff`: collecting finds exactly these commands, and fails if one of them is without
  a proper name.
* `exists_hole_of_mem`: a delimiting command is an element of some chain, or it has no cell.
* `RowHole.exists_rowMarkers_plug`: a change of a chain changes its own stretch of the list.
-/

namespace Formulary

variable {ps : List Plan} {side : Delimiting} {word : String}

namespace Plan

variable {p : Plan} {m : BlockMarker} {n : NodeId}

/-- The name of a block, if the first of some parameters says one. -/
def blockName : List Plan → String
  | .group _ .braces [(_, .literal _ name)] :: _ => name
  | _ => ""

/-- An element as a delimiting command. -/
def delims (noted : NodeId → Nat) : Plan → List BlockMarker
  | .command id word parameters =>
    match BlockMarker.side? word with
    | some side => [⟨side, blockName parameters, id, noted id⟩]
    | none => []
  | _ => []

@[simp] theorem delims_literal (noted : NodeId → Nat) (id : NodeId) (text : String) :
    delims noted (.literal id text) = [] := rfl

@[simp] theorem delims_empty (noted : NodeId → Nat) (id : NodeId) :
    delims noted (.empty id) = [] := rfl

@[simp] theorem delims_group (noted : NodeId → Nat) (id : NodeId) (fence : Fence) (inner : Row) :
    delims noted (.group id fence inner) = [] := rfl

@[simp] theorem delims_script (noted : NodeId → Nat) (id : NodeId) (marker : Marker)
    (operand : Plan) : delims noted (.script id marker operand) = [] := rfl

@[simp] theorem delims_block (noted : NodeId → Nat) (id : NodeId) (name : String)
    (parameters : List Plan) (body : Row) :
    delims noted (.block id name parameters body) = [] := rfl

variable {noted : NodeId → Nat} {t : Tree}

/-- A name holds no delimiting command. -/
theorem markers_named (id n c l : NodeId) (word name : String) (ps : List Plan) :
    gather (delims noted) (.command id word (.group n .braces [(c, .literal l name)] :: ps)) =
      gatherAll (delims noted) ps := by
  simp [gather]

/-! ## Names -/

theorem not_isName_empty : BlockMarker.isName "" = false := by decide

/-- A name is said by a first parameter in braces that holds one literal. -/
theorem exists_of_isName (h : BlockMarker.isName (blockName ps) = true) :
    ∃ n c l rest, ps = .group n .braces [(c, .literal l (blockName ps))] :: rest := by
  unfold blockName at h ⊢
  split at h
  · exact ⟨_, _, _, _, rfl⟩
  · rw [not_isName_empty] at h
    cases h

theorem side?_eq_some_iff : BlockMarker.side? word = some side ↔ word = side.command := by
  unfold BlockMarker.side?
  split
  · rename_i h
    subst h
    cases side <;> simp [Delimiting.command]
  · split
    · rename_i h
      subst h
      cases side <;> simp [Delimiting.command]
    · rename_i h h'
      cases side <;> simp [h, h']

/-- The shape of a delimiting command with a proper name. -/
theorem shape_of_delims (h : delims noted p = [m])
    (hname : BlockMarker.isName m.name = true) :
    ∃ n c l rest, p = .command m.command m.side.command
      (.group n .braces [(c, .literal l m.name)] :: rest) ∧ m.depth = noted m.command := by
  cases p with
  | command id word parameters =>
    rw [delims] at h
    split at h
    · rename_i side hside
      obtain rfl := (List.cons.inj h).1
      obtain ⟨n, c, l, rest, hps⟩ := exists_of_isName hname
      refine ⟨n, c, l, rest, ?_, rfl⟩
      rw [← hps, side?_eq_some_iff.mp hside]
    · cases h
  | _ => simp [delims] at h

/-! ## Positions -/

theorem delims_command (h : m ∈ delims noted p) : m.command = p.id := by
  cases p with
  | command id word parameters =>
    rw [delims] at h
    split at h
    · rw [List.mem_singleton.mp h, id_command]
    · cases h
  | _ => simp [delims] at h

theorem gathers_commands (t : Tree) (noted : NodeId → Nat) : Gathers t (delims noted)
    fun xs ms => (ms.map BlockMarker.command).Sublist (xs.map Prod.snd) where
  nil := .slnil
  append hxs hys := by
    rw [List.map_append, List.map_append]
    exact hxs.append hys
  element {p up} d h := by
    cases p with
    | command id word ps =>
      rw [delims]
      split <;> simp
    | _ => simp [delims]
  cell d h := List.nil_sublist _

/-- No delimiting command of a plan without repetitions is listed twice. -/
theorem RowFits.nodup_delims {row : Row} {up : Option NodeId} (h : RowFits t up row)
    (hn : (rowIds row).Nodup) :
    ((gatherRow (delims noted) row).map BlockMarker.command).Nodup :=
  ((gathers_commands t noted).chain h).nodup (nodup_rowVisits hn 0).of_append_right

/-! ## Places -/

/-- What hangs under a node that is no cell is no element of a chain. -/
theorem Fits.owningCell_eq_none (h : p.Fits t (some n)) (hn : t.head n = none) :
    t.owningCell p.id = none := by
  simp [Tree.owningCell, h.isSequence, h.parent, hn]

theorem owningCell_of_delims (h : p.Fits t (some n)) (hn : t.head n = none)
    (hm : m ∈ delims noted p) : t.owningCell m.command = none := by
  rw [delims_command hm]
  exact h.owningCell_eq_none hn

theorem eq_of_mem_delims (h : m ∈ delims noted p) : delims noted p = [m] := by
  cases p with
  | command id word parameters =>
    rw [delims] at h ⊢
    split at h
    · rw [List.mem_singleton.mp h]
    · cases h
  | _ => simp [delims] at h

/-- A delimiting command is the first element of what fills a hole. -/
def Located (noted : NodeId → Nat) (m : BlockMarker) (fill : Row → Prop) : Prop :=
  ∃ cell p post, fill ((cell, p) :: post) ∧ delims noted p = [m]

mutual

theorem exists_planHole_of_mem : ∀ {p : Plan} {up : Option NodeId} {m : BlockMarker}, p.Fits t up →
    m ∈ gather (delims noted) p →
    (∃ hole : PlanHole, Located noted m fun row => p = hole.plug row) ∨
      t.owningCell m.command = none
  | .literal .., _, _, _, hm | .empty _, _, _, _, hm => by simp [gather] at hm
  | .group n fence inner, up, m, h, hm => by
    rw [Fits] at h
    rw [gather] at hm
    rcases exists_hole_of_mem h.2 hm with ⟨hole, cell, p, post, rfl, hp⟩ | hnone
    · exact Or.inl ⟨.group n fence hole, cell, p, post, rfl, hp⟩
    · exact Or.inr hnone
  | .script n marker operand, up, m, h, hm => by
    rw [Fits] at h
    rw [gather, List.mem_append] at hm
    rcases hm with hm | hm
    · exact Or.inr (owningCell_of_delims h.2
        (by simp [Tree.head, Tree.node_of_look h.1]) hm)
    · rcases exists_planHole_of_mem h.2 hm with ⟨hole, cell, p, post, rfl, hp⟩ | hnone
      · exact Or.inl ⟨.script n marker hole, cell, p, post, rfl, hp⟩
      · exact Or.inr hnone
  | .command n name parameters, up, m, h, hm => by
    rw [Fits] at h
    rw [gather] at hm
    rcases exists_planHole_of_mem_list h.2 (by simp [Tree.head, Tree.node_of_look h.1]) hm with
      ⟨before, hole, after, cell, p, post, rfl, hp⟩ | hnone
    · exact Or.inl ⟨.command n name before hole after, cell, p, post, rfl, hp⟩
    · exact Or.inr hnone
  | .block n name parameters body, up, m, h, hm => by
    rw [Fits] at h
    obtain ⟨⟨first, -, hlook⟩, hall, hbody⟩ := h
    rw [gather, List.mem_append] at hm
    rcases hm with hm | hm
    · rcases exists_planHole_of_mem_list hall (by simp [Tree.head, Tree.node_of_look hlook]) hm with
        ⟨before, hole, after, cell, p, post, rfl, hp⟩ | hnone
      · exact Or.inl ⟨.parameter n name before hole after body, cell, p, post,
          rfl, hp⟩
      · exact Or.inr hnone
    · rcases exists_hole_of_mem hbody hm with ⟨hole, cell, p, post, rfl, hp⟩ | hnone
      · exact Or.inl ⟨.body n name parameters hole, cell, p, post, rfl, hp⟩
      · exact Or.inr hnone

theorem exists_planHole_of_mem_list : ∀ {ps : List Plan} {n : NodeId} {m : BlockMarker},
    AllFit t (some n) ps → t.head n = none → m ∈ gatherAll (delims noted) ps →
    (∃ before hole after, Located noted m fun row => ps = before ++ PlanHole.plug hole row :: after) ∨
      t.owningCell m.command = none
  | [], _, _, _, _, hm => by simp at hm
  | p :: ps, n, m, h, hn, hm => by
    rw [allFit_cons] at h
    rw [gatherAll_cons, List.mem_append, List.mem_append] at hm
    rcases hm with hm | hm | hm
    · exact Or.inr (owningCell_of_delims h.1 hn hm)
    · rcases exists_planHole_of_mem h.1 hm with ⟨hole, cell, q, post, rfl, hq⟩ | hnone
      · exact Or.inl ⟨[], hole, ps, cell, q, post, rfl, hq⟩
      · exact Or.inr hnone
    · rcases exists_planHole_of_mem_list h.2 hn hm with
        ⟨before, hole, after, cell, q, post, rfl, hq⟩ | hnone
      · exact Or.inl ⟨p :: before, hole, after, cell, q, post, rfl, hq⟩
      · exact Or.inr hnone

/-- A delimiting command is an element of some chain, or it has no cell. -/
theorem exists_hole_of_mem : ∀ {row : Row} {up : Option NodeId} {m : BlockMarker},
    RowFits t up row → m ∈ gatherRow (delims noted) row →
    (∃ hole : RowHole, Located noted m fun row' => row = hole.plug row') ∨
      t.owningCell m.command = none
  | [], _, _, _, hm => by simp at hm
  | (cell, p) :: row, up, m, h, hm => by
    rw [rowFits_pair] at h
    simp only [gatherRow_cons, List.mem_append] at hm
    rcases hm with hm | hm | hm
    · exact Or.inl ⟨.here, cell, p, row, rfl, eq_of_mem_delims hm⟩
    · rcases exists_planHole_of_mem h.2.1 hm with ⟨hole, cell', q, post, rfl, hq⟩ | hnone
      · exact Or.inl ⟨.inside cell hole row, cell', q, post, rfl, hq⟩
      · exact Or.inr hnone
    · rcases exists_hole_of_mem h.2.2 hm with ⟨hole, cell', q, post, rfl, hq⟩ | hnone
      · exact Or.inl ⟨.after (cell, p) hole, cell', q, post, rfl, hq⟩
      · exact Or.inr hnone

end

/-! ## Changing a chain -/

theorem delims_eq_of_cons (id : NodeId) (word : String) (p : Plan) (ps ps' : List Plan) :
    delims noted (.command id word (p :: ps)) = delims noted (.command id word (p :: ps')) := by
  have hname : blockName (p :: ps) = blockName (p :: ps') := by
    unfold blockName
    split <;> simp_all
  rw [delims, delims, hname]

end Plan

open Plan

section

variable {noted : NodeId → Nat} {row : Row}

mutual

/-- The list of delimiting commands around a hole does not depend on what fills it, as long as that
has some of its own: the hole then is not in the name of a block. -/
theorem RowHole.exists_rowMarkers_plug (hrow : gatherRow (delims noted) row ≠ []) : ∀ hole : RowHole,
    (∀ m ∈ gatherRow (delims noted) (hole.plug row), BlockMarker.isName m.name = true) →
    ∃ l r, ∀ row', gatherRow (delims noted) (hole.plug row') = l ++ (gatherRow (delims noted) row' ++ r)
  | .here, _ => ⟨[], [], by simp [RowHole.plug]⟩
  | .after x hole, h => by
    rw [RowHole.plug, gatherRow_cons] at h
    obtain ⟨l, r, hlr⟩ := RowHole.exists_rowMarkers_plug hrow hole fun m hm => h m (by simp [hm])
    exact ⟨delims noted x.2 ++ (gather (delims noted) x.2 ++ l), r, by simp [RowHole.plug, hlr]⟩
  | .inside cell hole rest, h => by
    rw [RowHole.plug, gatherRow_cons] at h
    obtain ⟨l, r, hlr⟩ := PlanHole.exists_markers_plug hrow hole fun m hm => by
      rcases List.mem_append.mp hm with hm | hm <;> exact h m (by simp [hm])
    refine ⟨l, r ++ gatherRow (delims noted) rest, fun row' => ?_⟩
    rw [RowHole.plug, gatherRow_cons, ← List.append_assoc, hlr row']
    simp

theorem PlanHole.exists_markers_plug (hrow : gatherRow (delims noted) row ≠ []) : ∀ hole : PlanHole,
    (∀ m ∈ delims noted (hole.plug row) ++ gather (delims noted) (hole.plug row),
      BlockMarker.isName m.name = true) →
    ∃ l r, ∀ row', delims noted (hole.plug row') ++ gather (delims noted) (hole.plug row') =
      l ++ (gatherRow (delims noted) row' ++ r)
  | .group n fence hole, h => by
    simp only [PlanHole.plug, delims_group, gather, List.nil_append] at h ⊢
    exact RowHole.exists_rowMarkers_plug hrow hole h
  | .script n marker hole, h => by
    simp only [PlanHole.plug, delims_script, gather, List.nil_append] at h ⊢
    exact PlanHole.exists_markers_plug hrow hole h
  | .command n name before hole after, h => by
    simp only [PlanHole.plug, gather, gatherAll_append, gatherAll_cons] at h ⊢
    obtain ⟨l, r, hlr⟩ := PlanHole.exists_markers_plug hrow hole fun m hm => by
      rcases List.mem_append.mp hm with hm | hm <;> exact h m (by simp [hm])
    have hown : ∀ row', delims noted (.command n name (before ++ hole.plug row' :: after)) =
        delims noted (.command n name (before ++ hole.plug row :: after)) := by
      intro row'
      cases before with
      | cons p before => exact delims_eq_of_cons n name p _ _
      | nil =>
        -- A first parameter that says a name holds no delimiting command.
        rw [List.nil_append, List.nil_append]
        rcases hside : BlockMarker.side? name with _ | side
        · simp [delims, hside]
        · exfalso
          have hname := h ⟨side, blockName (hole.plug row :: after), n, noted n⟩
            (by simp [delims, hside])
          obtain ⟨n', c, l', rest, heq⟩ := exists_of_isName hname
          have hmarkers := hlr row
          rw [(List.cons.inj heq).1] at hmarkers
          simp only [delims_group, delims_literal, gather, gatherRow_cons, gatherRow_nil,
            List.append_nil] at hmarkers
          exact hrow (List.append_eq_nil_iff.mp (List.append_eq_nil_iff.mp hmarkers.symm).2).1
    refine ⟨delims noted (.command n name (before ++ hole.plug row :: after)) ++
      (gatherAll (delims noted) before ++ l), r ++ gatherAll (delims noted) after, fun row' => ?_⟩
    have hmid := congrArg (· ++ gatherAll (delims noted) after) (hlr row')
    simp only [List.append_assoc] at hmid
    simp [hown row', hmid]
  | .parameter n name before hole after body, h => by
    simp only [PlanHole.plug, delims_block, gather,
      gatherAll_append, gatherAll_cons, List.nil_append] at h ⊢
    obtain ⟨l, r, hlr⟩ := PlanHole.exists_markers_plug hrow hole fun m hm => by
      rcases List.mem_append.mp hm with hm | hm <;> exact h m (by simp [hm])
    refine ⟨gatherAll (delims noted) before ++ l,
      r ++ (gatherAll (delims noted) after ++ gatherRow (delims noted) body),
      fun row' => ?_⟩
    have hmid := congrArg
      (· ++ (gatherAll (delims noted) after ++ gatherRow (delims noted) body)) (hlr row')
    simp only [List.append_assoc] at hmid
    simp [hmid]
  | .body n name parameters hole, h => by
    simp only [PlanHole.plug, delims_block, gather, List.nil_append] at h ⊢
    obtain ⟨l, r, hlr⟩ := RowHole.exists_rowMarkers_plug hrow hole fun m hm => h m (by simp [hm])
    exact ⟨gatherAll (delims noted) parameters ++ l, r, by simp [hlr]⟩

end

end

/-! ## Collecting -/

namespace BlockMarker

/-- What is noted of a node that a visit shows at a depth. -/
def note (t : Tree) (x : Nat × NodeId) : Except BlockError (List BlockMarker) :=
  match t.node x.2 with
  | .command word _ =>
    match side? word with
    | some side => (readName t side x.2).map fun name => [⟨side, name, x.2, x.1⟩]
    | none => .ok []
  | _ => .ok []

/-- What is noted during a visit. -/
def noteAll (t : Tree) : List (Nat × NodeId) → Except BlockError (List BlockMarker)
  | [] => .ok []
  | x :: xs =>
    match note t x, noteAll t xs with
    | .ok ms, .ok ms' => .ok (ms ++ ms')
    | .ok _, .error e => .error e
    | .error e, _ => .error e

end BlockMarker

namespace Plan

open BlockMarker

variable {xs ys : List (Nat × NodeId)} {ms : List BlockMarker} {row : Row} {noted : NodeId → Nat}
  {t : Tree} {up : Option NodeId}

theorem noteAll_cons_eq_ok_iff {x : Nat × NodeId} :
    noteAll t (x :: xs) = .ok ms ↔
      ∃ l r, note t x = .ok l ∧ noteAll t xs = .ok r ∧ ms = l ++ r := by
  rw [noteAll]
  rcases note t x with e | l <;> rcases noteAll t xs with e' | r <;> simp [eq_comm]

theorem noteAll_append_eq_ok_iff :
    noteAll t (xs ++ ys) = .ok ms ↔
      ∃ l r, noteAll t xs = .ok l ∧ noteAll t ys = .ok r ∧ ms = l ++ r := by
  induction xs generalizing ms with
  | nil => simp [noteAll]
  | cons x xs ih =>
    rw [List.cons_append, noteAll_cons_eq_ok_iff]
    constructor
    · rintro ⟨l, r, hl, hr, rfl⟩
      obtain ⟨l', r', hl', hr', rfl⟩ := ih.mp hr
      exact ⟨l ++ l', r', noteAll_cons_eq_ok_iff.mpr ⟨l, l', hl, hl', rfl⟩, hr', by simp⟩
    · rintro ⟨l, r, hl, hr, rfl⟩
      obtain ⟨l', r', hl', hr', rfl⟩ := noteAll_cons_eq_ok_iff.mp hl
      exact ⟨l', r' ++ r, hl', ih.mpr ⟨r', r, hr', hr, rfl⟩, by simp⟩

/-- A part of a visit notes the given commands, or fails if one is without a proper name. -/
def Notes (t : Tree) (xs : List (Nat × NodeId)) (found : List BlockMarker) : Prop :=
  ∀ ms, noteAll t xs = .ok ms ↔ (∀ m ∈ found, isName m.name = true) ∧ ms = found

theorem notes_nil : Notes t [] [] := by
  intro ms
  simp [noteAll, eq_comm (b := ms)]

theorem Notes.append {l r : List BlockMarker} (hxs : Notes t xs l) (hys : Notes t ys r) :
    Notes t (xs ++ ys) (l ++ r) := by
  intro ms
  rw [noteAll_append_eq_ok_iff]
  constructor
  · rintro ⟨l', r', hl, hr, rfl⟩
    obtain ⟨hl, rfl⟩ := (hxs l').mp hl
    obtain ⟨hr, rfl⟩ := (hys r').mp hr
    exact ⟨fun m hm => (List.mem_append.mp hm).elim (hl m) (hr m), rfl⟩
  · rintro ⟨h, rfl⟩
    exact ⟨l, r, (hxs l).mpr ⟨fun m hm => h m (List.mem_append_left _ hm), rfl⟩,
      (hys r).mpr ⟨fun m hm => h m (List.mem_append_right _ hm), rfl⟩, rfl⟩

theorem notes_one {x : Nat × NodeId}
    (hx : ∀ ms', note t x = .ok ms' ↔ (∀ m ∈ ms, isName m.name = true) ∧ ms' = ms) :
    Notes t [x] ms := by
  intro ms'
  rw [← hx ms', noteAll_cons_eq_ok_iff]
  simp [noteAll, eq_comm]

theorem readName_eq_ok_iff {id : NodeId} {name : String} (h : (Plan.command id word ps).Fits t up) :
    readName t side id = .ok name ↔ isName (blockName ps) = true ∧ name = blockName ps := by
  rw [Fits] at h
  have hparameter : t.parameter id 0 = (ps.map Plan.id)[0]? := by
    simp [Tree.parameter, Tree.node_of_look h.1, Node.parameters]
  rw [readName, hparameter]
  cases ps with
  | nil => simp [blockName, not_isName_empty]
  | cons p ps =>
    have hp := (allFit_cons.mp h.2).1
    have hname : blockName (p :: ps) = (p.shape.soleText .braces).getD "" := by
      rcases hp.soleElement .braces with ⟨-, hnone⟩ | ⟨n, cell, q, rfl, -, hsome⟩
      · rw [Shape.soleText, hnone]
        unfold blockName
        split
        · rename_i heq
          obtain ⟨rfl, -⟩ := List.cons.inj heq
          simp [shape, Shape.soleElement] at hnone
        · rfl
      · rw [Shape.soleText, hsome]
        cases q <;> simp [blockName, shape]
    simp only [List.map_cons, List.getElem?_cons_zero]
    rw [hp.soleText, hname]
    rcases p.shape.soleText .braces with _ | text
    · simp [not_isName_empty]
    · by_cases htext : isName text = true
      · simp [Option.filter, htext, eq_comm]
      · simp [Option.filter, htext]

/-- What is noted of an element itself. -/
theorem note_eq_ok_iff {p : Plan} {d : Nat} (h : p.Fits t up) (hd : noted p.id = d) :
    note t (d, p.id) = .ok ms ↔
      (∀ m ∈ delims noted p, isName m.name = true) ∧ ms = delims noted p := by
  cases p with
  | command id word ps =>
    have hnode : t.node id = .command word (ps.map Plan.id) := by
      rw [Fits] at h
      exact Tree.node_of_look h.1
    rw [id_command] at hd ⊢
    rw [note, hnode, delims]
    dsimp only
    rcases side? word with _ | side
    · simp [eq_comm (b := ms)]
    · have hread : ∀ name, readName t side id = .ok name ↔ _ := fun _ => readName_eq_ok_iff h
      dsimp only
      rcases hname : readName t side id with e | name
      · have hnot : ¬isName (blockName ps) = true := by
          intro hok
          rw [(hread _).mpr ⟨hok, rfl⟩] at hname
          cases hname
        simp [Except.map, hnot]
      · obtain ⟨hok, rfl⟩ := (hread _).mp hname
        simp [Except.map, hok, hd, eq_comm (b := ms)]
  | literal | empty =>
    rw [Fits] at h
    simp [note, Tree.node_of_look h, eq_comm (b := ms)]
  | script =>
    rw [Fits] at h
    simp [note, Tree.node_of_look h.1, eq_comm (b := ms)]
  | group | block =>
    rw [Fits] at h
    obtain ⟨⟨first, -, hlook⟩, -⟩ := h
    simp [note, Tree.node_of_look hlook, eq_comm (b := ms)]

/-- Nothing is noted of a cell. -/
theorem note_cell {cell : NodeId} (h : t.isSequence cell = true) (d : Nat) :
    note t (d, cell) = .ok [] := by
  rw [Tree.isSequence] at h
  rw [note]
  cases hnode : t.node cell <;> simp_all [Node.isSequence]

theorem gathers_notes (t : Tree) (noted : NodeId → Nat) : Gathers t (delims noted)
    fun xs ms => (∀ x ∈ xs, noted x.2 = x.1) → Notes t xs ms where
  nil _ := notes_nil
  append hxs hys hd := by
    rw [List.forall_mem_append] at hd
    exact (hxs hd.1).append (hys hd.2)
  element d h hd := notes_one fun _ => note_eq_ok_iff h (hd _ List.mem_cons_self)
  cell {cell} d h _ := by
    refine notes_one fun ms => ?_
    rw [note_cell h]
    simp [eq_comm (b := ms)]

/-! ## Depths -/

/-- A depth is noted once for each position. -/
theorem exists_noted (hn : (rowIds row).Nodup) (d : Nat) :
    ∃ noted : NodeId → Nat, ∀ x ∈ rowVisits d row, noted x.2 = x.1 := by
  have hkeys := (nodup_rowVisits hn d).of_append_right
  refine ⟨fun i => (((rowVisits d row).find? fun x => x.2 == i).map Prod.fst).getD 0, ?_⟩
  intro x hx
  obtain ⟨y, hy⟩ : ∃ y, (rowVisits d row).find? (fun y => y.2 == x.2) = some y := by
    rw [← Option.isSome_iff_exists, List.find?_isSome]
    exact ⟨x, hx, by simp⟩
  have heq : y = x :=
    List.inj_on_of_nodup_map hkeys (List.mem_of_find?_eq_some hy) hx (by simpa using List.find?_some hy)
  simp [hy, heq]

end Plan

open Plan

namespace BlockMarker

variable {t : Tree} {row : Row} {up : Option NodeId}

theorem run_forM_note {enter : Nat → NodeId → StateT (List BlockMarker) (Except BlockError) Unit}
    (henter : ∀ d id acc, (enter d id).run acc =
      (note t (d, id)).map fun ms => ((), ms.reverse ++ acc)) (xs : List (Nat × NodeId))
    (acc : List BlockMarker) :
    (forM xs fun x => enter x.1 x.2).run acc =
      (noteAll t xs).map fun ms => ((), ms.reverse ++ acc) := by
  induction xs generalizing acc with
  | nil => rfl
  | cons x xs ih =>
    rw [List.forM_cons, StateT.run_bind, henter, noteAll]
    rcases note t x with e | l
    · rfl
    · have hrest : (forM xs fun x => enter x.1 x.2).run (l.reverse ++ acc) = _ := ih _
      change (forM xs fun x => enter x.1 x.2).run (l.reverse ++ acc) = _
      rw [hrest]
      rcases noteAll t xs with e | r
      · rfl
      · simp [Except.map]

/-- Collecting notes what a visit shows below the root. -/
theorem collect_eq (hfirst : nextCell row = some t.root) (h : RowFits t up row)
    (hn : (rowIds row).Nodup) : collect t = noteAll t (rowVisits 0 row) := by
  unfold collect
  extract_lets enter
  have henter : ∀ d id acc, (enter d id).run acc =
      (note t (d, id)).map fun ms => ((), ms.reverse ++ acc) := by
    intro d id acc
    simp only [enter, note]
    rcases t.node id with _ | _ | _ | _ | _ | ⟨word, -⟩ | _
    case command =>
      dsimp only
      rcases side? word with _ | side
      · rfl
      · rcases hname : readName t side id with e | name <;> simp only [hname] <;> rfl
    all_goals rfl
  have hvisit : (t.visit enter t.root).run [] =
      (noteAll t (rowVisits 0 row)).map fun ms => ((), ms.reverse) := by
    rw [Tree.visit, (descends_visitBelow t enter).chain h hfirst (h.card_le hn), StateT.run_bind,
      henter, note_cell (h.isSequence_first hfirst)]
    have hrest := run_forM_note henter (rowVisits 0 row) []
    simp only [List.append_nil] at hrest
    exact hrest
  rw [hvisit]
  rcases noteAll t (rowVisits 0 row) with e | ms
  · rfl
  · exact congrArg Except.ok (List.reverse_reverse ms)

/-- Collecting finds the delimiting commands of a formula in the order of its text, unless one of
them is without a proper name. -/
theorem collect_eq_ok_iff {noted : NodeId → Nat} {ms : List BlockMarker}
    (hfirst : nextCell row = some t.root) (h : RowFits t up row) (hn : (rowIds row).Nodup)
    (hnoted : ∀ x ∈ rowVisits 0 row, noted x.2 = x.1) :
    collect t = .ok ms ↔
      (∀ m ∈ gatherRow (delims noted) row, isName m.name = true) ∧
        ms = gatherRow (delims noted) row := by
  rw [collect_eq hfirst h hn]
  exact (gathers_notes t noted).chain h hnoted ms

end BlockMarker

end Formulary
