import Formulary.Proofs.Tidy

/-!
# Names of commands

The commands of a formula, by their names: read off a shape (`Shape.commandsOf`), off the nodes that
a tree reaches (`Tree.Depicts.mem_commandsOf`), or off those that a visit of it shows
(`Tree.Depicts.commandNames`).

The body of a macro with arguments in the place of its placeholders has no commands but those of the
body and of the arguments (`Macro.commandsOf_instantiate`).
-/

namespace Formulary

open Plan

variable {fs gs : List Shape}

namespace Shape

mutual

/-- The names of the commands of an element, at any depth. -/
def commands : Shape → List String
  | .literal _ | .empty => []
  | .group _ inner => commandsOf inner
  | .script _ operand => operand.commands
  | .command name parameters => name :: commandsOf parameters
  | .block _ parameters body => commandsOf parameters ++ commandsOf body

/-- The names of the commands of some elements, at any depth. -/
def commandsOf : List Shape → List String
  | [] => []
  | f :: fs => f.commands ++ commandsOf fs

end

@[simp] theorem commandsOf_nil : commandsOf [] = [] := by rw [commandsOf]

@[simp] theorem commandsOf_cons (f : Shape) (fs : List Shape) :
    commandsOf (f :: fs) = f.commands ++ commandsOf fs := by
  rw [commandsOf]

@[simp] theorem commandsOf_append (fs gs : List Shape) :
    commandsOf (fs ++ gs) = commandsOf fs ++ commandsOf gs := by
  induction fs with
  | nil => rfl
  | cons f fs ih => rw [List.cons_append, commandsOf_cons, ih, commandsOf_cons, List.append_assoc]

@[simp] theorem commandsOf_chain (fs : List Shape) : commandsOf (chain fs) = commandsOf fs := by
  cases fs with
  | nil => simp [commands]
  | cons => rfl

@[simp] theorem commandsOf_contents (fs : List Shape) :
    commandsOf (contents fs) = commandsOf fs := by
  unfold contents
  split
  · simp [commands]
  · rfl

@[simp] theorem commands_asOperand (fs : List Shape) : (asOperand fs).commands = commandsOf fs := by
  unfold asOperand
  split
  · split <;> simp [commands]
  · simp [commands]

/-- A command is used in a chain if it is used in one of the elements. -/
theorem mem_commandsOf {name : String} : name ∈ commandsOf fs ↔ ∃ f ∈ fs, name ∈ f.commands := by
  induction fs with
  | nil => simp
  | cons f fs ih => simp [ih]

/-- Fewer elements have fewer commands. -/
theorem commandsOf_subset (h : fs ⊆ gs) : commandsOf fs ⊆ commandsOf gs := by
  intro name hname
  obtain ⟨f, hf, hname⟩ := mem_commandsOf.mp hname
  exact mem_commandsOf.mpr ⟨f, h hf, hname⟩

end Shape

open Shape

/-! ## In a tree -/

section

variable {t : Tree} {up : Option NodeId} {name : String} {id : NodeId} {p : Plan}

/-- The names of the commands of a part. -/
def Part.commands : Part → List String
  | .element p => p.shape.commands
  | .chain _ p rest => commandsOf (p.shape :: rowShapes rest)

theorem Part.commands_subset_of_mem {x y : Part} (h : y ∈ x.children) :
    y.commands ⊆ x.commands := by
  have hrow : ∀ {row : Row}, y ∈ ofRow row → y.commands = commandsOf (rowShapes row) := by
    intro row hy
    cases row with
    | nil => cases hy
    | cons x row =>
      obtain rfl := List.mem_singleton.mp hy
      rw [rowShapes_cons]
      rfl
  have hall : ∀ {ps : List Plan}, y ∈ ps.map Part.element →
      y.commands ⊆ commandsOf (Plan.shapes ps) := by
    intro ps hy
    obtain ⟨p, hp, rfl⟩ := List.mem_map.mp hy
    rw [shapes_eq_map]
    exact fun name hname => mem_commandsOf.mpr ⟨p.shape, List.mem_map_of_mem hp, hname⟩
  cases x with
  | chain cell p rest =>
    rcases List.mem_cons.mp h with rfl | hy
    · simp [commands]
    · rw [hrow hy, commands, commandsOf_cons]
      exact List.subset_append_right _ _
  | element p =>
    rw [commands]
    cases p with
    | literal | empty => cases h
    | group id fence inner =>
      rw [hrow h, shape, Shape.commands]
      exact List.Subset.refl _
    | script id marker operand =>
      obtain rfl := List.mem_singleton.mp h
      rw [shape, Shape.commands]
      exact List.Subset.refl _
    | command id name ps =>
      rw [shape, Shape.commands]
      exact List.Subset.trans (hall h) (List.subset_cons_self _ _)
    | block id name ps body =>
      rw [shape, Shape.commands]
      rcases List.mem_append.mp h with hy | hy
      · exact List.Subset.trans (hall hy) (List.subset_append_left _ _)
      · rw [hrow hy]
        exact List.subset_append_right _ _

/-- Commands down a path are commands of the whole. -/
theorem Part.commands_subset_of_down {x y : Part} {path : List Nat} (h : x.down path = some y) :
    y.commands ⊆ x.commands := by
  induction path generalizing x with
  | nil =>
    obtain rfl := Option.some.inj h
    exact List.Subset.refl _
  | cons k path ih =>
    rw [down] at h
    obtain ⟨z, hz, h⟩ := Option.bind_eq_some_iff.mp h
    exact List.Subset.trans (ih h) (commands_subset_of_mem (List.mem_of_getElem? hz))

/-- A command that a tree reaches is a command of its shape. -/
theorem Tree.Depicts.mem_commandsOf {parameters : List NodeId} (h : t.Depicts fs)
    (hid : t.Reaches t.root id) (hnode : t.node id = .command name parameters) :
    name ∈ commandsOf fs := by
  obtain ⟨cell, p, rest, hroot, hfits, -, rfl⟩ := h.exists_part
  rw [hroot] at hid
  obtain ⟨path, y, up', hy, rfl, hyfits⟩ := hfits.exists_of_reaches hid
  refine Part.commands_subset_of_down hy ?_
  rw [hyfits.node] at hnode
  cases y with
  | chain => cases hnode
  | element q =>
    cases q with
    | command id name' ps =>
      obtain ⟨rfl, -⟩ := Node.command.inj hnode
      rw [Part.commands, shape, Shape.commands]
      exact List.mem_cons_self
    | literal | empty | group | script | block => cases hnode

/-- The name of the command at a position. -/
def Tree.commandAt (t : Tree) (id : NodeId) : Option String :=
  if (t.node id).isCommand then (t.node id).name? else none

/-- The name of an element that is a command. -/
def Plan.commandName : Plan → List String
  | .command _ name _ => [name]
  | _ => []

/-- Reading command names off a listing gathers them part by part. -/
theorem gathers_commandAt (t : Tree) : Gathers t commandName
    fun xs names => (xs.map Prod.snd).filterMap t.commandAt = names where
  nil := rfl
  append hxs hys := by rw [List.map_append, List.filterMap_append, hxs, hys]
  element {p up} d h := by
    have hname : t.commandAt p.id = p.commandName.head? := by
      rw [Tree.commandAt, h.node]
      cases p <;> rfl
    rw [List.map_singleton, List.filterMap_cons, hname]
    cases p <;> rfl
  cell {cell} d h := by
    obtain ⟨head, tail, hnode⟩ := Tree.exists_of_isSequence h
    simp [Tree.commandAt, hnode, Node.isCommand]

mutual

theorem gather_commandName : ∀ p : Plan,
    commandName p ++ gather commandName p = p.shape.commands
  | .literal .. | .empty _ => by simp [commandName, gather, shape, Shape.commands]
  | .group _ _ inner => by
    rw [gather, shape, Shape.commands]
    exact gatherRow_commandName inner
  | .script _ _ operand => by
    rw [gather, shape, Shape.commands]
    exact gather_commandName operand
  | .command _ name ps => by
    rw [gather, gatherAll_commandName ps, shape, Shape.commands]
    rfl
  | .block _ _ ps body => by
    rw [gather, gatherAll_commandName ps, gatherRow_commandName body, shape, Shape.commands]
    rfl

theorem gatherAll_commandName : ∀ ps : List Plan,
    gatherAll commandName ps = commandsOf (shapes ps)
  | [] => by simp
  | p :: ps => by
    rw [gatherAll_cons, ← List.append_assoc, gather_commandName p, gatherAll_commandName ps,
      shapes_cons, commandsOf_cons]

theorem gatherRow_commandName : ∀ row : Row,
    gatherRow commandName row = commandsOf (rowShapes row)
  | [] => by simp
  | (_, p) :: row => by
    rw [gatherRow_cons, ← List.append_assoc, gather_commandName p, gatherRow_commandName row,
      rowShapes_cons, commandsOf_cons]

end

/-- The commands of a formula, read off its tree. -/
theorem Tree.Depicts.commandNames {fs : List Shape} (h : t.Depicts fs) :
    t.commandNames t.root = commandsOf fs := by
  obtain ⟨row, hfirst, hfits, hn, rfl⟩ := h
  have hg := gathers_commandAt t
  rw [Tree.commandNames, hfits.visited hn hfirst, ← gatherRow_commandName]
  exact hg.append (hg.cell 0 (hfits.isSequence_first hfirst)) (hg.chain hfits)

/-- The commands of an element, read off its tree. -/
theorem Plan.Fits.commandNames {p : Plan} (h : p.Fits t up) (hn : p.ids.Nodup) :
    t.commandNames p.id = p.shape.commands := by
  have hg := gathers_commandAt t
  rw [Tree.commandNames, h.visited hn, ← gather_commandName]
  exact hg.append (hg.element 0 h) (hg.below h)

end

/-! ## In an instance of a macro -/

namespace Shape

variable {arguments : List Shape} {text : List Char}

/-- An argument has no commands but those of the arguments. -/
theorem commandsOf_argument? {index : Nat} (h : argument? arguments index = some fs) :
    commandsOf fs ⊆ commandsOf arguments := by
  cases index with
  | zero => cases h
  | succ index =>
    rw [argument?] at h
    obtain ⟨f, hf, rfl⟩ := Option.map_eq_some_iff.mp h
    intro name hname
    refine mem_commandsOf.mpr ⟨f, List.mem_of_getElem? hf, ?_⟩
    cases f with
    | group fence inner =>
      rw [commands]
      exact commandsOf_subset (List.filter_subset_self _) hname
    | literal | empty | script | command | block => simp [argumentElements] at hname

/-- Filled in pieces have no commands but those of the arguments. -/
theorem commandsOf_filledPieces {pieces : List Piece} (h : FilledPieces arguments pieces gs) :
    commandsOf gs ⊆ commandsOf arguments := by
  induction h with
  | nil => exact List.nil_subset _
  | text _ ih =>
    rw [commandsOf_cons, commands, List.nil_append]
    exact ih
  | argument helements _ ih =>
    rw [commandsOf_append]
    exact List.append_subset.mpr ⟨commandsOf_argument? helements, ih⟩

theorem commandsOf_fillText (h : fillText arguments text = some gs) :
    commandsOf gs ⊆ commandsOf arguments := by
  rw [fillText] at h
  split at h
  · obtain ⟨fs, hfs, heq⟩ := Option.bind_eq_some_iff.mp h
    obtain rfl := Option.some.inj heq
    rw [commandsOf_chain]
    exact commandsOf_filledPieces (filledPieces hfs)
  · obtain rfl := Option.some.inj h
    simp [commands]

theorem commandsOf_fillRest (h : fillRest arguments text = some gs) :
    commandsOf gs ⊆ commandsOf arguments := by
  rw [fillRest] at h
  split at h
  · obtain rfl := Option.some.inj h
    exact List.nil_subset _
  · exact commandsOf_fillText h

theorem subset_beside_left {as bs ds : List String} (h : as ⊆ bs ++ ds) (cs : List String) :
    as ⊆ bs ++ cs ++ ds :=
  List.Subset.trans h (List.append_subset.mpr
    ⟨List.subset_append_of_subset_left _ (List.subset_append_left bs cs),
      List.subset_append_right _ ds⟩)

theorem subset_beside_right {as cs ds : List String} (h : as ⊆ cs ++ ds) (bs : List String) :
    as ⊆ bs ++ cs ++ ds := by
  rw [List.append_assoc]
  exact List.subset_append_of_subset_right bs h

/-- What is filled in has the commands of the arguments. -/
theorem fills_commands : Fills arguments
    (fun f gs => commandsOf gs ⊆ f.commands ++ commandsOf arguments)
    (fun fs gs => commandsOf gs ⊆ commandsOf fs ++ commandsOf arguments) where
  literal hsome := List.subset_append_of_subset_right _ (commandsOf_fillText hsome)
  empty := by simp [commands]
  group fence fs gs _ h := by simpa [commands] using h
  script marker f g _ h := by simpa [commands] using h
  command name fs gs _ h := by
    simpa [commands] using List.Subset.trans h (List.subset_cons_self _ _)
  block name fs gs fs' gs' _ _ h h' := by
    simp only [commandsOf_cons, commands, commandsOf_nil, List.append_nil, List.append_subset]
    exact ⟨subset_beside_left h _, subset_beside_right h' _⟩
  nil := List.nil_subset _
  cons {f fs gs gs'} h h' := by
    rw [commandsOf_append, commandsOf_cons, List.append_subset]
    exact ⟨subset_beside_left h _, subset_beside_right h' _⟩
  placeholder marker text c rest index operand between fs gs _ _ hoperand hbetween h := by
    simp only [commandsOf_cons, commands, commands_asOperand, commandsOf_chain, commandsOf_append,
      List.append_subset, List.nil_append]
    exact ⟨List.subset_append_of_subset_right _ (commandsOf_argument? hoperand),
      List.subset_append_of_subset_right _ (commandsOf_fillRest hbetween), h⟩

end Shape

/-- An instance of a macro has no commands but those of the body and of the arguments. -/
theorem Macro.commandsOf_instantiate {m : Macro} {arguments : List Shape}
    (h : m.instantiate arguments = .ok gs) :
    commandsOf gs ⊆ commandsOf m.body ++ commandsOf arguments :=
  fills_commands.fillRow (fillRow_of_instantiate h)

end Formulary
