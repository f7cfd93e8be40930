import Formulary.Proofs.Visiting

/-!
# Which definitions are accepted

What a defining command has to look like, said of the nodes around it and not in the order in which
they are looked at:

* `Tree.Defines`: the two forms of a definition. The command that is defined stands alone in the first
  group, or it follows the defining command.
* `Tree.DefinesBlock`: a block stands alone in the first group. Its name is taken for the name of a
  command.

Expansion accepts these definitions, if their name is new, and no others: `read_eq_ok_iff` for the
reading, `run_visitor_accepted` and `run_visitor_refused` for what comes of it.
-/

namespace Formulary

open Plan Shape

/-! ## Numbers -/

/-- Decimal digits and their value. -/
inductive Decimal : List Char → Nat → Prop
  | digit {c : Char} : c.isDigit = true → Decimal [c] (c.toNat - '0'.toNat)
  | snoc {digits : List Char} {n : Nat} {c : Char} : Decimal digits n → c.isDigit = true →
    Decimal (digits ++ [c]) (10 * n + (c.toNat - '0'.toNat))

theorem Decimal.all_isDigit {digits : List Char} {n : Nat} (h : Decimal digits n) :
    digits.all Char.isDigit = true := by
  induction h with
  | digit hc => simpa using hc
  | snoc _ hc ih => simp [List.all_append, ih, hc]

theorem decimal?_eq_some_iff {digits : List Char} {n : Nat} :
    decimal? digits = some n ↔ Decimal digits n := by
  constructor
  · intro h
    induction digits using List.reverseRecOn generalizing n with
    | nil => cases h
    | append_singleton digits c ih =>
      rw [decimal?, List.all_append, List.foldl_append] at h
      rcases Option.ite_none_right_eq_some.mp h with ⟨hall, heq⟩
      simp only [List.all_cons, List.all_nil, Bool.and_true, Bool.and_eq_true] at hall
      obtain ⟨-, hdigits, hc⟩ := hall
      rw [← Option.some.inj heq]
      cases digits with
      | nil => simpa using Decimal.digit hc
      | cons d digits =>
        refine .snoc (ih ?_) hc
        rw [decimal?, hdigits]
        rfl
  · intro h
    have hall := h.all_isDigit
    rw [decimal?, hall]
    induction h with
    | digit hc => simp
    | @snoc digits n c hdigits hc ih =>
      have hih := ih hdigits.all_isDigit
      cases digits with
      | nil => cases hih
      | cons d digits =>
        rw [List.foldl_append, List.foldl_cons, List.foldl_nil, Option.some.inj hih]
        rfl

/-- A text that asks for a number of arguments: blanks, a plus sign or none, digits, blanks. -/
def AsksFor (text : String) (arity : Nat) : Prop :=
  ∃ digits, ((Text.trim text).toList = digits ∨ (Text.trim text).toList = '+' :: digits) ∧
    Decimal digits arity ∧ arity ≤ maxArity

theorem arityOf?_eq_some_iff {text : String} {arity : Nat} :
    arityOf? text = some arity ↔ AsksFor text arity := by
  rw [arityOf?, AsksFor, Option.filter_eq_some_iff, decimal?_eq_some_iff, decide_eq_true_eq]
  split
  · next digits heq =>
    constructor
    · rintro ⟨hdigits, hle⟩
      exact ⟨digits, Or.inr heq, hdigits, hle⟩
    · rintro ⟨digits', hor, hdigits, hle⟩
      rw [heq] at hor
      -- A plus sign is no digit, so the digits are those after it.
      rcases hor with rfl | hcons
      · have hall := hdigits.all_isDigit
        simp at hall
      · rw [(List.cons.inj hcons).2]
        exact ⟨hdigits, hle⟩
  · next digits hplus =>
    constructor
    · rintro ⟨hdigits, hle⟩
      exact ⟨_, Or.inl rfl, hdigits, hle⟩
    · rintro ⟨digits', rfl | hcons, hdigits, hle⟩
      · exact ⟨hdigits, hle⟩
      · exact absurd hcons (hplus digits')

/-! ## Shapes of definitions -/

namespace Tree

variable (t : Tree)

/-- A group in brackets that holds a number of arguments and nothing else. -/
def Counts (group : NodeId) (arity : Nat) : Prop :=
  ∃ inner head text, t.node group = .group .brackets inner ∧ t.node inner = .sequence head none ∧
    t.node head = .literal text ∧ AsksFor text arity

/-- The groups after the name of a macro: its body, after the number of its arguments or not. -/
inductive Groups : List NodeId → Nat → NodeId → Prop
  | body {group inner : NodeId} : t.node group = .group .braces inner → Groups [group] 0 inner
  | counted {count group inner : NodeId} {arity : Nat} : t.Counts count arity →
    t.node group = .group .braces inner → Groups [count, group] arity inner

/-- The definition that a defining command makes: the name, the number of arguments and the chain of
the body. -/
inductive Defines (id : NodeId) : String → Nat → NodeId → Prop
  | inside {cell group inner head body : NodeId} {groups : List NodeId} {name : String} {arity : Nat} :
    t.owningCell id = some cell → t.node id = .command definingCommand (group :: groups) →
    t.node group = .group .braces inner → t.node inner = .sequence head none →
    t.node head = .command name [] → name ≠ definingCommand → t.Groups groups arity body →
    Defines id name arity body
  | before {cell next target body : NodeId} {groups : List NodeId} {name : String} {arity : Nat} :
    t.owningCell id = some cell → t.node id = .command definingCommand [] →
    t.tail cell = some next → t.head next = some target → t.node target = .command name groups →
    name ≠ definingCommand → t.Groups groups arity body → Defines id name arity body

/-- A defining command whose first group holds a block and nothing else. -/
inductive DefinesBlock (id : NodeId) : String → Nat → NodeId → Prop
  | inside {cell group inner head chain body : NodeId} {groups : List NodeId} {name : String}
    {arity : Nat} :
    t.owningCell id = some cell → t.node id = .command definingCommand (group :: groups) →
    t.node group = .group .braces inner → t.node inner = .sequence head none →
    t.node head = .block name [] chain → name ≠ definingCommand → t.Groups groups arity body →
    DefinesBlock id name arity body

end Tree

/-! ## Reading a definition -/

section

variable {group : NodeId} {name : String} {d : Definition} {groups : List NodeId} {e : MacroError}
  {t : Tree} {id cell : NodeId}

theorem Tree.soleElement_eq_some_iff {fence : Fence} {head : NodeId} :
    t.soleElement fence group = some head ↔
      ∃ inner, t.node group = .group fence inner ∧ t.node inner = .sequence head none := by
  rw [Tree.soleElement]
  constructor
  · intro h
    split at h
    · next found inner hgroup =>
      obtain ⟨rfl, hsingle⟩ := Option.ite_none_right_eq_some.mp h
      refine ⟨inner, hgroup, ?_⟩
      rw [Tree.singleHead] at hsingle
      split at hsingle
      · next head' hinner => rw [hinner, Option.some.inj hsingle]
      · cases hsingle
    · cases h
  · rintro ⟨inner, hgroup, hinner⟩
    rw [hgroup]
    dsimp only
    rw [if_pos rfl, Tree.singleHead, hinner]

theorem arityIn_eq_ok_iff {arity : Nat} :
    Definition.arityIn t name group = .ok arity ↔ t.Counts group arity := by
  have hliteral : ∀ {node : Node} {text : String}, node.literal? = some text ↔ node = .literal text := by
    intro node text
    cases node <;> simp [Node.literal?]
  have hsole : (t.soleText .brackets group).bind arityOf? = some arity ↔ t.Counts group arity := by
    simp only [Tree.soleText, Option.bind_eq_some_iff, Tree.soleElement_eq_some_iff, hliteral,
      arityOf?_eq_some_iff, Tree.Counts]
    constructor
    · rintro ⟨text, ⟨head, ⟨inner, hgroup, hinner⟩, htext⟩, hasks⟩
      exact ⟨inner, head, text, hgroup, hinner, htext, hasks⟩
    · rintro ⟨inner, head, text, hgroup, hinner, htext, hasks⟩
      exact ⟨text, ⟨head, ⟨inner, hgroup, hinner⟩, htext⟩, hasks⟩
  rw [← hsole, Definition.arityIn]
  rcases (t.soleText .brackets group).bind arityOf? with _ | found <;> simp

theorem withBody_eq_ok_iff {arity : Nat} :
    Definition.withBody t name arity group = .ok d ↔
      ∃ inner, t.node group = .group .braces inner ∧ d = ⟨name, arity, t.extract inner⟩ := by
  rw [Definition.withBody]
  split
  · next inner hgroup =>
    constructor
    · intro h
      exact ⟨inner, hgroup, (Except.ok.inj h).symm⟩
    · rintro ⟨inner', hgroup', rfl⟩
      obtain ⟨-, rfl⟩ := Node.group.inj (hgroup.symm.trans hgroup')
      rfl
  · next hno =>
    constructor
    · intro h
      cases h
    · rintro ⟨inner, hgroup, -⟩
      exact absurd hgroup (hno inner)

theorem ofGroups_eq_ok_iff (place : Span) :
    Definition.ofGroups t name groups place = .ok d ↔
      ∃ arity body, t.Groups groups arity body ∧ d = ⟨name, arity, t.extract body⟩ := by
  constructor
  · intro h
    rcases groups with _ | ⟨first, _ | ⟨second, _ | ⟨third, groups⟩⟩⟩
    · cases h
    · obtain ⟨inner, hgroup, rfl⟩ := withBody_eq_ok_iff.mp h
      exact ⟨0, inner, .body hgroup, rfl⟩
    · obtain ⟨arity, harity, hbody⟩ := exists_of_bind_eq_ok h
      obtain ⟨inner, hgroup, rfl⟩ := withBody_eq_ok_iff.mp hbody
      exact ⟨arity, inner, .counted (arityIn_eq_ok_iff.mp harity) hgroup, rfl⟩
    · cases h
  · rintro ⟨arity, body, hgroups, rfl⟩
    cases hgroups with
    | body hgroup => exact withBody_eq_ok_iff.mpr ⟨body, hgroup, rfl⟩
    | counted hcount hgroup =>
      rw [Definition.ofGroups, arityIn_eq_ok_iff.mpr hcount]
      exact withBody_eq_ok_iff.mpr ⟨body, hgroup, rfl⟩

theorem nameOf_eq_ok_iff {command : NodeId} :
    Definition.nameOf t command = .ok name ↔
      (t.node command).name? = some name ∧ name ≠ definingCommand := by
  rw [Definition.nameOf]
  rcases (t.node command).name? with _ | found
  · simp
  · by_cases hfound : found = definingCommand
    · simp [hfound, eq_comm]
    · simp only [if_neg hfound, Except.ok.injEq, Option.some.injEq]
      constructor
      · rintro rfl
        exact ⟨rfl, hfound⟩
      · exact And.left

/-- What stands alone in a group and has a name is a command or a block. -/
theorem nameIn_eq_ok_iff :
    Definition.nameIn t group = .ok name ↔
      ∃ inner head, t.node group = .group .braces inner ∧ t.node inner = .sequence head none ∧
        (t.node head = .command name [] ∨ ∃ chain, t.node head = .block name [] chain) ∧
          name ≠ definingCommand := by
  have hnamed : ∀ {node : Node}, node.parameters.isEmpty = true ∧ node.name? = some name ↔
      node = .command name [] ∨ ∃ chain, node = .block name [] chain := by
    intro node
    cases node <;> simp [Node.parameters, Node.name?, and_comm]
  rw [Definition.nameIn]
  constructor
  · intro h
    split at h
    · next head hhead =>
      rw [Option.filter_eq_some_iff, Tree.soleElement_eq_some_iff] at hhead
      obtain ⟨⟨inner, hgroup, hinner⟩, hempty⟩ := hhead
      obtain ⟨hname, hne⟩ := nameOf_eq_ok_iff.mp h
      exact ⟨inner, head, hgroup, hinner, hnamed.mp ⟨hempty, hname⟩, hne⟩
    · cases h
  · rintro ⟨inner, head, hgroup, hinner, hnode, hne⟩
    obtain ⟨hempty, hname⟩ := hnamed.mpr hnode
    have hsole := Tree.soleElement_eq_some_iff.mpr ⟨inner, hgroup, hinner⟩
    rw [hsole, Option.filter_some, if_pos hempty]
    exact nameOf_eq_ok_iff.mpr ⟨hname, hne⟩

/-- With parameters, the first of them holds the name. -/
theorem read_inside_eq_ok_iff (hnode : t.node id = .command definingCommand (group :: groups)) :
    (∃ count, Definition.read t id cell = .ok (d, count)) ↔
      ∃ name arity body, Definition.nameIn t group = .ok name ∧ t.Groups groups arity body ∧
        d = ⟨name, arity, t.extract body⟩ := by
  have hread : Definition.read t id cell = (do
      let name ← Definition.nameIn t group
      return (← Definition.ofGroups t name groups (t.span id), 1)) := by
    rw [Definition.read, hnode]
    rfl
  rw [hread]
  constructor
  · rintro ⟨count, h⟩
    obtain ⟨name, hname, h⟩ := exists_of_bind_eq_ok h
    obtain ⟨d', hd, h⟩ := exists_of_bind_eq_ok h
    cases h
    obtain ⟨arity, body, hgroups, heq⟩ := (ofGroups_eq_ok_iff _).mp hd
    exact ⟨name, arity, body, hname, hgroups, heq⟩
  · rintro ⟨name, arity, body, hname, hgroups, heq⟩
    have hd := (ofGroups_eq_ok_iff (t.span id)).mpr ⟨arity, body, hgroups, heq⟩
    exact ⟨1, by rw [hname]; exact congrArg (· >>= fun d => .ok (d, 1)) hd⟩

theorem read_of_noParameters (hnode : t.node id = .command definingCommand []) :
    Definition.read t id cell =
      match ((t.tail cell).bind t.head).filter fun head => (t.node head).isCommand with
      | none => .error (.nothingFollows (t.span id))
      | some target => do
        let name ← Definition.nameOf t target
        return (← Definition.ofGroups t name (t.node target).parameters
          ((t.span id).union (t.span target)), 2) := by
  rw [Definition.read, hnode]
  rfl

/-- Without parameters, the command that follows has the name and the groups. -/
theorem read_before_eq_ok_iff (hnode : t.node id = .command definingCommand []) :
    (∃ count, Definition.read t id cell = .ok (d, count)) ↔
      ∃ next target name groups arity body, t.tail cell = some next ∧ t.head next = some target ∧
        t.node target = .command name groups ∧ name ≠ definingCommand ∧ t.Groups groups arity body ∧
          d = ⟨name, arity, t.extract body⟩ := by
  rw [read_of_noParameters hnode]
  constructor
  · rintro ⟨count, h⟩
    rcases htarget : ((t.tail cell).bind t.head).filter fun head => (t.node head).isCommand with
      _ | target
    · rw [htarget] at h
      cases h
    · rw [htarget] at h
      obtain ⟨name, hname, h⟩ := exists_of_bind_eq_ok h
      obtain ⟨d', hd, h⟩ := exists_of_bind_eq_ok h
      cases h
      obtain ⟨arity, body, hgroups, heq⟩ := (ofGroups_eq_ok_iff _).mp hd
      obtain ⟨hname, hne⟩ := nameOf_eq_ok_iff.mp hname
      rw [Option.filter_eq_some_iff, Option.bind_eq_some_iff] at htarget
      obtain ⟨⟨next, hnext, hhead⟩, hcommand⟩ := htarget
      cases htop : t.node target with
      | command word groups =>
        rw [htop] at hname hgroups
        cases hname
        exact ⟨next, target, name, groups, arity, body, hnext, hhead, htop, hne, hgroups, heq⟩
      | literal | empty | sequence | group | script | block =>
        rw [htop] at hcommand
        cases hcommand
  · rintro ⟨next, target, name, groups, arity, body, hnext, hhead, htarget, hne, hgroups, heq⟩
    have hname := nameOf_eq_ok_iff.mpr ⟨congrArg Node.name? htarget, hne⟩
    have hcommand : (t.node target).isCommand = true := congrArg Node.isCommand htarget
    have hparameters : (t.node target).parameters = groups := congrArg Node.parameters htarget
    have hd := (ofGroups_eq_ok_iff ((t.span id).union (t.span target))).mpr
      ⟨arity, body, hgroups, heq⟩
    refine ⟨2, ?_⟩
    rw [hnext, Option.bind_some, hhead, Option.filter_some, if_pos hcommand]
    dsimp only
    rw [hname, hparameters]
    exact congrArg (· >>= fun d => .ok (d, 2)) hd

/-- The definitions that are read are those of the two forms, and those that take the name of a
block. -/
theorem read_eq_ok_iff {parameters : List NodeId} (hcell : t.owningCell id = some cell)
    (hnode : t.node id = .command definingCommand parameters) :
    (∃ count, Definition.read t id cell = .ok (d, count)) ↔
      ∃ name arity body, (t.Defines id name arity body ∨ t.DefinesBlock id name arity body) ∧
        d = ⟨name, arity, t.extract body⟩ := by
  cases parameters with
  | cons group groups =>
    rw [read_inside_eq_ok_iff hnode]
    constructor
    · rintro ⟨name, arity, body, hname, hgroups, heq⟩
      obtain ⟨inner, head, hgroup, hinner, hhead | ⟨chain, hhead⟩, hne⟩ := nameIn_eq_ok_iff.mp hname
      · exact ⟨name, arity, body, Or.inl (.inside hcell hnode hgroup hinner hhead hne hgroups), heq⟩
      · exact ⟨name, arity, body, Or.inr (.inside hcell hnode hgroup hinner hhead hne hgroups), heq⟩
    · rintro ⟨name, arity, body, hdefines | hblock, heq⟩
      · cases hdefines with
        | inside _ hnode' hgroup hinner hhead hne hgroups =>
          cases hnode.symm.trans hnode'
          exact ⟨name, arity, body, nameIn_eq_ok_iff.mpr ⟨_, _, hgroup, hinner, Or.inl hhead, hne⟩,
            hgroups, heq⟩
        | before _ hnode' => cases hnode.symm.trans hnode'
      · cases hblock with
        | inside _ hnode' hgroup hinner hhead hne hgroups =>
          cases hnode.symm.trans hnode'
          exact ⟨name, arity, body,
            nameIn_eq_ok_iff.mpr ⟨_, _, hgroup, hinner, Or.inr ⟨_, hhead⟩, hne⟩, hgroups, heq⟩
  | nil =>
    rw [read_before_eq_ok_iff hnode]
    constructor
    · rintro ⟨next, target, name, groups, arity, body, hnext, hhead, htarget, hne, hgroups, heq⟩
      exact ⟨name, arity, body, Or.inl (.before hcell hnode hnext hhead htarget hne hgroups), heq⟩
    · rintro ⟨name, arity, body, hdefines | hblock, heq⟩
      · cases hdefines with
        | inside _ hnode' => cases hnode.symm.trans hnode'
        | before hcell' _ hnext hhead htarget hne hgroups =>
          cases hcell.symm.trans hcell'
          exact ⟨_, _, name, _, arity, body, hnext, hhead, htarget, hne, hgroups, heq⟩
      · cases hblock with
        | inside _ hnode' => cases hnode.symm.trans hnode'

/-! ## What is refused -/

/-- The codes that tell what is wrong with a definition. -/
def definitionCodes : List Code :=
  [.malformedDefinition, .invalidMacroName, .invalidArgumentCount, .duplicateDefinition,
    .misplacedDefinition]

theorem code_of_nameOf {command : NodeId} (h : Definition.nameOf t command = .error e) :
    e.code = .invalidMacroName := by
  rw [Definition.nameOf] at h
  split at h
  · cases h
    rfl
  · split at h <;> cases h
    rfl

theorem code_of_nameIn (h : Definition.nameIn t group = .error e) : e.code = .invalidMacroName := by
  rw [Definition.nameIn] at h
  split at h
  · exact code_of_nameOf h
  · cases h
    rfl

theorem code_of_ofGroups {place : Span} (h : Definition.ofGroups t name groups place = .error e) :
    e.code = .malformedDefinition ∨ e.code = .invalidArgumentCount := by
  have hbody : ∀ {arity : Nat} {group : NodeId}, Definition.withBody t name arity group = .error e →
      e.code = .malformedDefinition := by
    intro arity group h
    rw [Definition.withBody] at h
    split at h <;> cases h
    rfl
  rcases groups with _ | ⟨first, _ | ⟨second, _ | ⟨third, groups⟩⟩⟩
  · cases h
    exact Or.inl rfl
  · exact Or.inl (hbody h)
  · rw [Definition.ofGroups] at h
    rcases harity : Definition.arityIn t name first with e' | arity
    · rw [harity] at h
      cases h
      rw [Definition.arityIn] at harity
      split at harity <;> cases harity
      exact Or.inr rfl
    · rw [harity] at h
      exact Or.inl (hbody h)
  · cases h
    exact Or.inl rfl

theorem error_of_bind_eq_error {ε α β : Type} {x : Except ε α} {f : α → Except ε β} {e : ε}
    (h : x >>= f = .error e) : x = .error e ∨ ∃ a, x = .ok a ∧ f a = .error e := by
  cases x with
  | error e' =>
    cases h
    exact Or.inl rfl
  | ok a => exact Or.inr ⟨a, rfl, h⟩

theorem code_of_read (h : Definition.read t id cell = .error e) : e.code ∈ definitionCodes := by
  have hname : e.code = .invalidMacroName → e.code ∈ definitionCodes := by
    intro hcode
    rw [hcode]
    decide
  have hgroups : ∀ {name : String} {groups : List NodeId} {place : Span} {count : Nat},
      (do return (← Definition.ofGroups t name groups place, count)) = Except.error e →
        e.code ∈ definitionCodes := by
    intro name groups place count h
    rcases error_of_bind_eq_error h with h | ⟨d, -, h⟩
    · rcases code_of_ofGroups h with hcode | hcode <;> rw [hcode] <;> decide
    · cases h
  -- The name is looked at first, in the first group or in the command that follows.
  rw [Definition.read] at h
  dsimp only at h
  split at h
  · rcases error_of_bind_eq_error h with h | ⟨name, -, h⟩
    · exact hname (code_of_nameIn h)
    · exact hgroups h
  · split at h
    · cases h
      exact hname rfl
    · rcases error_of_bind_eq_error h with h | ⟨name, -, h⟩
      · exact hname (code_of_nameOf h)
      · exact hgroups h

/-! ## What comes of a definition -/

open Definitions (visitor define)

variable {ds : Definitions} {up : Option NodeId} {ps : List Plan} {row : Row}

/-- A definition that can be read and whose name is new is added, and nothing stands in the way of
taking it out of its chain. -/
theorem run_define_of_read {count : Nat}
    (h : RowLive t up ((cell, command id definingCommand ps) :: row))
    (hread : Definition.read t id cell = .ok (d, count)) (hnew : ds.find? d.name = none) :
    ∃ t', (define id).run.run (t, ds) = some (.ok (), t', ⟨ds.toList ++ [d]⟩) := by
  have hinsert : ds.insert d (t.span id) = .ok ⟨ds.toList ++ [d]⟩ := by
    rw [Definitions.insert, Definitions.contains, hnew]
    rfl
  -- What is read off the nodes is read off the shapes too, so the elements to take out are there.
  have hanswers := answers_read h.fits h.nodup
  rw [hread] at hanswers
  rcases htaken : Macro.read (shapes ps) (rowShapes row) with code | ⟨m, rest⟩
  · rw [htaken] at hanswers
    cases hanswers
  · rw [htaken] at hanswers
    obtain ⟨-, taken, left, rfl, rfl, -⟩ := hanswers
    obtain ⟨fresh, t', hdelete, -, -⟩ := run_deleteElements h.fits h.nodup
    refine ⟨t', ?_⟩
    have howner : t.owningCell id = some cell := h.fits.owningCell
    rw [define, run_bind_of_ok run_tree, howner]
    dsimp only
    rw [hread]
    dsimp only
    rw [run_bind_of_ok run_notes, hinsert]
    dsimp only
    rw [run_bind_of_ok (run_note _), run_edit, Edit.run_reportedAt_of_ok hdelete]

/-- A definition that cannot be read, or whose name is taken, is refused and stays. -/
theorem run_define_refused (hcell : t.owningCell id = some cell)
    (hrefused : ∀ d count, Definition.read t id cell = .ok (d, count) → ds.find? d.name ≠ none) :
    ∃ e, (define id).run.run (t, ds) = some (.error (.expansion e), t, ds) ∧
      e.code ∈ definitionCodes := by
  rw [define, run_bind_of_ok run_tree, hcell]
  dsimp only
  rcases hread : Definition.read t id cell with e | ⟨d, count⟩
  · exact ⟨e, rfl, code_of_read hread⟩
  · have hinsert : ds.insert d (t.span id) = .error (.duplicate d.name (t.span id)) := by
      rw [Definitions.insert, Definitions.contains,
        if_pos (Option.isSome_iff_ne_none.mpr (hrefused d count hread))]
    refine ⟨.duplicate d.name (t.span id), ?_, by rw [MacroError.code]; decide⟩
    dsimp only
    rw [run_bind_of_ok run_notes, hinsert]
    rfl

/-- A definition that is no element of a chain is refused. -/
theorem run_define_misplaced (ds : Definitions) (hcell : t.owningCell id = none) :
    (define id).run.run (t, ds) = some (.error (.expansion (.misplaced (t.span id))), t, ds) := by
  rw [define, run_bind_of_ok run_tree, hcell]
  rfl

end

/-! ## Names and bodies -/

/-- A chain of the store has the given elements. -/
def Tree.Holds (t : Tree) (first : NodeId) (fs : List Shape) : Prop :=
  ∃ up row, RowFits t up row ∧ (rowIds row).Nodup ∧ nextCell row = some first ∧ rowShapes row = fs

section

variable {t : Tree} {id cell : NodeId} {up : Option NodeId} {ps : List Plan} {row : Row}
  {name : String} {arity : Nat} {body : NodeId}

theorem Tree.Holds.depicts_extract {first : NodeId} {fs : List Shape} (h : t.Holds first fs) :
    (t.extract first).Depicts fs := by
  obtain ⟨up, row, hfits, hn, hfirst, rfl⟩ := h
  exact Tree.depicts_extract hfits hn hfirst

/-- A node that is a group stands for a plan that is one. -/
theorem Live.of_group {p : Plan} {fence : Fence} {inner : NodeId} (h : Live t up p)
    (hnode : t.node p.id = .group fence inner) :
    ∃ row, p = group p.id fence row ∧ nextCell row = some inner ∧ RowLive t (some p.id) row := by
  have hfits := h.fits.node
  rw [hnode] at hfits
  cases p with
  | group id fence' row =>
    obtain ⟨hrow, first, hfirst⟩ := h.inner
    rw [top, hfirst] at hfits
    cases hfits
    exact ⟨row, rfl, hfirst, hrow⟩
  | literal | empty | script | command | block => cases hfits

/-- A node that is a command has a name for commands. -/
theorem Live.isCommandName {p : Plan} {parameters : List NodeId} (h : Live t up p)
    (hnode : t.node p.id = .command name parameters) :
    isCommandName name = true ∧ ∃ qs, p = command p.id name qs ∧ parameters = qs.map Plan.id := by
  have hfits := h.fits.node
  rw [hnode] at hfits
  cases p with
  | command id name' qs =>
    cases hfits
    have hneat := h.neat
    rw [shape, Neat] at hneat
    exact ⟨hneat.1, qs, rfl, rfl⟩
  | literal | empty | group | script | block => cases hfits

theorem Tree.Groups.holds {groups : List NodeId} (h : t.Groups groups arity body)
    (hgroups : groups = ps.map Plan.id) (hps : AllLive t up ps) : ∃ fs, t.Holds body fs := by
  have hbody : ∀ {p : Plan}, Live t up p → t.node p.id = .group .braces body →
      ∃ fs, t.Holds body fs := by
    intro p hp hnode
    obtain ⟨row, -, hfirst, hrow⟩ := hp.of_group hnode
    exact ⟨_, _, row, hrow.fits, hrow.nodup, hfirst, rfl⟩
  cases h with
  | body hnode =>
    rcases ps with _ | ⟨p, _ | ⟨q, ps⟩⟩ <;> cases hgroups
    exact hbody hps.cons.1 hnode
  | counted _ hnode =>
    rcases ps with _ | ⟨p, _ | ⟨q, _ | ⟨r, ps⟩⟩⟩ <;> cases hgroups
    exact hbody hps.cons.2.2.cons.1 hnode

/-- The first group of a command and the others. -/
theorem Live.first_group {group : NodeId} {groups : List NodeId} {word : String}
    (h : Live t up (command id name ps)) (hnode : t.node id = .command word (group :: groups)) :
    ∃ p qs, group = p.id ∧ groups = qs.map Plan.id ∧ Live t (some id) p ∧
      AllLive t (some id) qs := by
  have hnode' : t.node id = .command name (ps.map Plan.id) := h.fits.node
  obtain ⟨-, heq⟩ := Node.command.inj (hnode'.symm.trans hnode)
  rcases ps with _ | ⟨p, qs⟩ <;> cases heq
  obtain ⟨hp, -, hqs⟩ := h.parameters.1.cons
  exact ⟨p, qs, rfl, rfl, hp, hqs⟩

/-- What is defined has a name for commands, and a body that is a chain of the formula. -/
theorem Tree.Defines.sound (h : t.Defines id name arity body)
    (hlive : RowLive t up ((cell, command id definingCommand ps) :: row)) :
    isCommandName name = true ∧ ∃ fs, t.Holds body fs := by
  cases h with
  | inside _ hnode hgroup hinner hhead _ hgroups =>
    obtain ⟨p, qs, rfl, hqs, hp, hlives⟩ := hlive.element.first_group hnode
    obtain ⟨inner, -, hfirst, hrow⟩ := hp.of_group hgroup
    obtain ⟨q, rest, rfl⟩ := exists_of_nextCell hfirst
    rw [hrow.fits.node] at hinner
    obtain ⟨rfl, -⟩ := Node.sequence.inj hinner
    exact ⟨(hrow.element.isCommandName hhead).1, hgroups.holds hqs hlives⟩
  | before hcell _ hnext hhead htarget _ hgroups =>
    -- The groups are those of the next element of the chain.
    have howner : t.owningCell id = some cell := hlive.fits.owningCell
    cases howner.symm.trans hcell
    rw [hlive.fits.tail] at hnext
    obtain ⟨q, rest, rfl⟩ := exists_of_nextCell hnext
    rw [hlive.rest.fits.head] at hhead
    cases hhead
    obtain ⟨hname, qs, hq, hparameters⟩ := hlive.rest.element.isCommandName htarget
    have htargetlive := hlive.rest.element
    rw [hq] at htargetlive
    exact ⟨hname, hgroups.holds hparameters htargetlive.parameters.1⟩

theorem Tree.DefinesBlock.holds (h : t.DefinesBlock id name arity body)
    (hlive : RowLive t up ((cell, command id definingCommand ps) :: row)) :
    ∃ fs, t.Holds body fs := by
  cases h with
  | inside _ hnode _ _ _ _ hgroups =>
    obtain ⟨p, qs, -, hqs, -, hlives⟩ := hlive.element.first_group hnode
    exact hgroups.holds hqs hlives

end

/-! ## Definitions in a formula -/

section

open Definitions (visitor)

variable {source : String} {steps arity : Nat} {t₀ t : Tree} {ds₀ ds : Definitions} {id body : NodeId}
  {name : String} {parameters : List NodeId}

/-- A definition that is accepted: it is of one of the forms, and its name is new. -/
def Tree.Accepts (t : Tree) (ds : Definitions) (id : NodeId) (name : String) (arity : Nat)
    (body : NodeId) : Prop :=
  (t.Defines id name arity body ∨ t.DefinesBlock id name arity body) ∧ ds.find? name = none

/-- An operand is no definition that can be accepted. -/
theorem Tree.Accepts.live {ps : List Plan} (h : t.Accepts ds id name arity body)
    (hplace : (∃ up cell rest, RowLive t up ((cell, command id definingCommand ps) :: rest)) ∨
      ∃ up s marker, Live t up (script s marker (command id definingCommand ps))) :
    ∃ up cell rest, RowLive t up ((cell, command id definingCommand ps) :: rest) := by
  rcases hplace with hlive | ⟨up, s, marker, hlive⟩
  · exact hlive
  · have hnone : t.owningCell id = none := hlive.fits.owningCell_operand
    rcases h.1 with hdefines | hblock
    · cases hdefines with
      | inside hcell | before hcell => cases hnone.symm.trans hcell
    · cases hblock with
      | inside hcell => cases hnone.symm.trans hcell

theorem run_visitor_accepted {up : Option NodeId} {cell : NodeId} {ps : List Plan} {rest : Row}
    (h : t.Accepts ds id name arity body)
    (hlive : RowLive t up ((cell, command id definingCommand ps) :: rest)) :
    (∃ t', (visitor id).run.run (t, ds) =
        some (.ok .past, t', ⟨ds.toList ++ [⟨name, arity, t.extract body⟩]⟩)) ∧
      ∃ fs, t.Holds body fs ∧ (t.extract body).Depicts fs := by
  obtain ⟨hdefines, hnew⟩ := h
  have hnode : t.node id = .command definingCommand (ps.map Plan.id) := hlive.element.fits.node
  obtain ⟨count, hread⟩ := (read_eq_ok_iff hlive.fits.owningCell hnode).mpr
    ⟨name, arity, body, hdefines, rfl⟩
  obtain ⟨t', hrun⟩ := run_define_of_read hlive hread hnew
  obtain ⟨fs, hfs⟩ : ∃ fs, t.Holds body fs :=
    hdefines.elim (fun hdefines => (hdefines.sound hlive).2) fun hblock => hblock.holds hlive
  refine ⟨⟨t', ?_⟩, fs, hfs, hfs.depicts_extract⟩
  rw [run_visitor_define hnode]
  exact run_bind_of_ok hrun

theorem run_visitor_refused (hnode : t.node id = .command definingCommand parameters)
    (hnone : ∀ name arity body, ¬t.Accepts ds id name arity body) :
    ∃ e, (visitor id).run.run (t, ds) = some (.error (.expansion e), t, ds) ∧
      e.code ∈ definitionCodes := by
  rw [run_visitor_define hnode]
  rcases hcell : t.owningCell id with _ | cell
  · refine ⟨_, run_bind_of_error (run_define_misplaced ds hcell), ?_⟩
    rw [MacroError.code]
    decide
  · have hrefused : ∀ d count, Definition.read t id cell = .ok (d, count) → ds.find? d.name ≠ none := by
      intro d count hread hnew
      obtain ⟨name, arity, body, hdefines, rfl⟩ := (read_eq_ok_iff hcell hnode).mp ⟨count, hread⟩
      exact hnone name arity body ⟨hdefines, hnew⟩
    obtain ⟨e, hrun, hcode⟩ := run_define_refused hcell hrefused
    exact ⟨e, run_bind_of_error hrun, hcode⟩

/-- Expansion accepts a defining command that it comes to exactly if the command makes a definition of
one of the two forms, or one that takes the name of a block, and the name is new. Then it adds this
definition after those it knows, with a copy of the body as it stands there; the name is one for
commands, if it is not that of a block. Otherwise it tells what is wrong with the definition and
leaves the formula and the definitions as they are. -/
theorem accepts_definition_iff (hparse : Tree.parseMath source = .ok t₀) (hds : ds₀.Reached)
    (hshown : Definitions.Shown steps (t₀, ds₀) id (t, ds))
    (hnode : t.node id = .command definingCommand parameters) :
    ((∃ t' ds', (visitor id).run.run (t, ds) = some (.ok .past, t', ds')) ↔
      ∃ name arity body, t.Accepts ds id name arity body) ∧
    (∀ name arity body, t.Accepts ds id name arity body →
      (∃ t', (visitor id).run.run (t, ds) =
          some (.ok .past, t', ⟨ds.toList ++ [⟨name, arity, t.extract body⟩]⟩)) ∧
        (∃ fs, t.Holds body fs ∧ (t.extract body).Depicts fs) ∧
        (isCommandName name = true ∨ t.DefinesBlock id name arity body)) ∧
    ((∀ name arity body, ¬t.Accepts ds id name arity body) →
      ∃ e, (visitor id).run.run (t, ds) = some (.error (.expansion e), t, ds) ∧
        e.code ∈ definitionCodes) := by
  obtain ⟨hmeets, -⟩ := hshown.meets hparse hds
  obtain ⟨ps, -, hplace⟩ := hmeets.command hnode
  have haccepted : ∀ name arity body, t.Accepts ds id name arity body →
      (∃ t', (visitor id).run.run (t, ds) =
          some (.ok .past, t', ⟨ds.toList ++ [⟨name, arity, t.extract body⟩]⟩)) ∧
        (∃ fs, t.Holds body fs ∧ (t.extract body).Depicts fs) ∧
        (isCommandName name = true ∨ t.DefinesBlock id name arity body) := by
    intro name arity body haccepts
    obtain ⟨up, cell, rest, hlive⟩ := haccepts.live hplace
    obtain ⟨hrun, hcopy⟩ := run_visitor_accepted haccepts hlive
    exact ⟨hrun, hcopy, haccepts.1.imp_left fun hdefines => (hdefines.sound hlive).1⟩
  refine ⟨⟨?_, ?_⟩, haccepted, run_visitor_refused hnode⟩
  · rintro ⟨t', ds', hrun⟩
    by_contra hnone
    obtain ⟨e, hrefused, -⟩ := run_visitor_refused hnode fun name arity body haccepts =>
      hnone ⟨name, arity, body, haccepts⟩
    cases hrun.symm.trans hrefused
  · rintro ⟨name, arity, body, haccepts⟩
    obtain ⟨⟨t', hrun⟩, -⟩ := haccepted name arity body haccepts
    exact ⟨t', _, hrun⟩

end

/-- The number of arguments is written with a sign and blanks, after the command that is defined. -/
theorem accepts_definition_iff_counted :
    let source := r"\newcommand\p[ +2 ]{a#1_#2}x"
    ∃ t t' fs, Tree.parseMath source = .ok t ∧ Definitions.Shown 20 (t, .empty) 0 (t, .empty) ∧
      t.node 0 = .command definingCommand [] ∧ t.Defines 0 "p" 2 10 ∧
      (Definitions.visitor 0).run.run (t, .empty) =
        some (.ok .past, t', ⟨[⟨"p", 2, t.extract 10⟩]⟩) ∧
      t.Holds 10 fs ∧ (t.extract 10).Depicts fs := by
  intro source
  have hran : ((Tree.parseMath source).toOption.map fun t =>
      ((((do Walk.through Definitions.visitor 20 (← Walk.tree).root :
          Walk Definitions Fault Unit).run.run (t, .empty)).isSome,
        ((do Walk.through (Definitions.visitor.haltedAt 0 (t, .empty)) 20 (← Walk.tree).root :
          Walk Definitions Fault Unit).run.run (t, .empty)).isSome),
        t.owningCell 0, [0, 16, 15, 12, 3, 2, 1, 11].map t.node)) =
      some ((true, false), some 16,
        [.command definingCommand [], .sequence 0 (some 15), .sequence 12 (some 14),
          .command "p" [3, 11], .group .brackets 2, .sequence 1 none, .literal " +2 ",
          .group .braces 10]) := by
    decide +kernel
  obtain ⟨t, hparse, hout⟩ := Option.map_eq_some_iff.mp hran
  replace hparse := Tree.eq_ok_of_toOption hparse
  simp only [Prod.mk.injEq, List.map_cons, List.map_nil, List.cons.injEq, and_true] at hout
  obtain ⟨⟨hends, hhalts⟩, hcell, hnode, hfirst, hnext, htarget, hcount, hinner, htext, hbody⟩ := hout
  have hshown : Definitions.Shown 20 (t, .empty) 0 (t, .empty) := .of_halted hends hhalts
  have hasks : AsksFor " +2 " 2 := arityOf?_eq_some_iff.mp (by decide +kernel)
  have hdefines : t.Defines 0 "p" 2 10 :=
    .before hcell hnode (by rw [Tree.tail, hfirst]) (by rw [Tree.head, hnext]) htarget (by decide)
      (.counted ⟨2, 1, _, hcount, hinner, htext, hasks⟩ hbody)
  obtain ⟨-, haccepted, -⟩ := accepts_definition_iff hparse .empty hshown hnode
  obtain ⟨⟨t', hrun⟩, ⟨fs, hholds, hcopy⟩, -⟩ := haccepted "p" 2 10 ⟨Or.inl hdefines, rfl⟩
  exact ⟨t, t', fs, hparse, hshown, hnode, hdefines, hrun, hholds, hcopy⟩

/-- A block is taken for a command: no definition of either form is there, and yet the name of the
block is defined. -/
theorem defines_name_of_block :
    let source := r"\newcommand{\begin{a}x\end{a}}{y}"
    ∃ t t' d, Tree.parseMath source = .ok t ∧ Definitions.Shown 20 (t, .empty) 16 (t, .empty) ∧
      t.node 16 = .command definingCommand [12, 15] ∧
      (∀ name arity body, ¬t.Defines 16 name arity body) ∧
      (Definitions.visitor 16).run.run (t, .empty) = some (.ok .past, t', ⟨[d]⟩) ∧ d.name = "a" := by
  intro source
  have hran : ((Tree.parseMath source).toOption.map fun t =>
      ((((do Walk.through Definitions.visitor 20 (← Walk.tree).root :
          Walk Definitions Fault Unit).run.run (t, .empty)).isSome,
        ((do Walk.through (Definitions.visitor.haltedAt 16 (t, .empty)) 20 (← Walk.tree).root :
          Walk Definitions Fault Unit).run.run (t, .empty)).isSome),
        ((Definitions.visitor 16).run.run (t, .empty)).map fun out =>
          (out.1.toOption == some .past, out.2.2.toList.map fun d => d.name),
        [16, 12, 11, 18].map t.node)) =
      some ((true, false), some (true, ["a"]),
        [.command definingCommand [12, 15], .group .braces 11, .sequence 18 none,
          .block "a" [] 10]) := by
    decide +kernel
  obtain ⟨t, hparse, hout⟩ := Option.map_eq_some_iff.mp hran
  replace hparse := Tree.eq_ok_of_toOption hparse
  simp only [Prod.mk.injEq, List.map_cons, List.map_nil, List.cons.injEq, and_true] at hout
  obtain ⟨⟨hends, hhalts⟩, hvisit, hnode, hgroup, hinner, hblock⟩ := hout
  obtain ⟨⟨r, t', ds⟩, hrun, hr⟩ := Option.map_eq_some_iff.mp hvisit
  obtain ⟨hok, hnames⟩ := Prod.mk.inj hr
  obtain ⟨d, hd, hname⟩ := List.map_eq_singleton_iff.mp hnames
  obtain ⟨list⟩ := ds
  cases hd
  cases r with
  | error x => cases hok
  | ok descent =>
    cases Option.some.inj (eq_of_beq hok)
    refine ⟨t, t', d, hparse, .of_halted hends hhalts, hnode, ?_, hrun, hname⟩
    rintro name arity body (⟨-, hnode', hgroup', hinner', hhead, -, -⟩ | ⟨-, hnode', -⟩)
    · cases hnode.symm.trans hnode'
      cases hgroup.symm.trans hgroup'
      cases hinner.symm.trans hinner'
      cases hblock.symm.trans hhead
    · cases hnode.symm.trans hnode'

end Formulary
