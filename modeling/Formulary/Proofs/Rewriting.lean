import Formulary.Macro.Definition
import Formulary.Macro.Placeholder
import Formulary.Proofs.Spread
import Formulary.Proofs.Steps

/-!
# Macros as a rewriting of shapes

What macro expansion means, said of shapes alone: a chain is the list of its elements, and there is
nothing to hold on to while it changes.

* `Shape.fillRow`: the body of a macro with arguments in the place of its placeholders. What it does
  is said once, as an induction (`Shape.Fills`).
* `Macro.read`: the definition that a chain starts with.
* `Rewriting.rewriteRow`: a chain is gone through from left to right with the macros known so far.
  A definition is recorded and taken out. A use gives way to what it stands for, and the rewriting
  goes on with what has come there. Of any other element the inside is rewritten.

Taking out the last element of a chain leaves an empty one in its place (`Shape.chain`). A macro
that brings itself back is rewritten forever, so rewriting is a partial function.
-/

namespace Formulary

namespace Shape

/-! ## Placeholders -/

/-- Whether an element is the empty one. -/
def isEmpty : Shape → Bool
  | .empty => true
  | _ => false

/-- What an argument puts into a text: the elements of the group, without those that are empty. -/
def argumentElements : Shape → List Shape
  | .group _ inner => inner.filter fun f => !f.isEmpty
  | _ => []

/-- Elements in the place of an operand: one that can stand there as it is, or else a group around
them. -/
def asOperand : List Shape → Shape
  | [f] => if f.isAtomic then f else .group .braces [f]
  | fs => .group .braces (chain fs)

/-- The placeholder that a script stands for together with the element after it: a lone hash sign as
operand, and a literal that starts with the digit. Answers the marker, the number of the argument
and the text after the digit. -/
def scriptPlaceholder? : Shape → Shape → Option (Marker × Nat × List Char)
  | .script marker (.literal operand), .literal text =>
    if operand = "#" then
      match text.toList with
      | c :: rest => (argumentDigit? c).map fun index => (marker, index, rest)
      | [] => none
    else none
  | _, _ => none

section

variable (arguments : List Shape)

/-- The elements of the argument with a number. -/
def argument? : Nat → Option (List Shape)
  | 0 => none
  | index + 1 => arguments[index]?.map argumentElements

/-- The elements that the pieces of a literal become. -/
def fillPieces : List Piece → Option (List Shape)
  | [] => some []
  | .text run :: pieces => do return .literal (String.ofList run) :: (← fillPieces pieces)
  | .argument index :: pieces => do return (← argument? arguments index) ++ (← fillPieces pieces)

/-- The elements that a text becomes. -/
def fillText (text : List Char) : Option (List Shape) :=
  if hasPlaceholder text then do return chain (← fillPieces arguments (Piece.split text))
  else some [.literal (String.ofList text)]

/-- The elements that the text after the digit of a placeholder becomes. When the digit was all of a
literal, the literal goes with it. -/
def fillRest (text : List Char) : Option (List Shape) :=
  if text.isEmpty then some [] else fillText arguments text

/-- Whether an element is a text that asks for an argument. -/
def asks : Shape → Bool
  | .literal text => hasPlaceholder text.toList
  | _ => false

/-- What becomes of an element outside of chains, given what becomes of it inside. Nothing can come
beside it, so its own text cannot be filled in. -/
def alone (f : Shape) (inside : Option Shape) : Option Shape := if f.asks then none else inside

/-- What becomes of an element of a chain, given what becomes of it inside. -/
def woven : Shape → Option Shape → Option (List Shape)
  | .literal text, _ => fillText arguments text.toList
  | _, inside => inside.map ([·])

mutual

/-- An element with the arguments in the place of the placeholders inside of it. -/
def fillInside : Shape → Option Shape
  | .literal text => some (.literal text)
  | .empty => some .empty
  | .group fence inner => (fillRow inner).map (.group fence)
  | .script marker operand => (alone operand (fillInside operand)).map (.script marker)
  | .command name parameters => (fillAll parameters).map (.command name)
  | .block name parameters body => do
    return .block name (← fillAll parameters) (← fillRow body)

/-- Parameters with the arguments in the place of their placeholders. -/
def fillAll : List Shape → Option (List Shape)
  | [] => some []
  | f :: fs => do return (← alone f (fillInside f)) :: (← fillAll fs)

/-- A chain with the arguments in the place of its placeholders; none if it asks for an argument
that is not there. -/
def fillRow : List Shape → Option (List Shape)
  | [] => some []
  | [f] => woven arguments f (fillInside f)
  | f :: g :: fs =>
    match scriptPlaceholder? f g with
    | some (marker, index, rest) => do
      let operand ← argument? arguments index
      return .script marker (asOperand operand) ::
        chain ((← fillRest arguments rest) ++ (← fillRow fs))
    | none => do return (← woven arguments f (fillInside f)) ++ (← fillRow (g :: fs))

end

end

/-- A placeholder after a marker is a script of a hash sign before a digit. -/
theorem scriptPlaceholder?_eq_some {f g : Shape} {marker : Marker} {index : Nat} {rest : List Char}
    (h : scriptPlaceholder? f g = some (marker, index, rest)) :
    ∃ text c, f = .script marker (.literal "#") ∧ g = .literal text ∧ text.toList = c :: rest ∧
      argumentDigit? c = some index := by
  unfold scriptPlaceholder? at h
  split at h
  · split at h
    · rename_i hoperand
      subst hoperand
      split at h
      · rename_i c rest' htext
        obtain ⟨index', hdigit, heq⟩ := Option.map_eq_some_iff.mp h
        obtain ⟨rfl, rfl, rfl⟩ : _ = marker ∧ index' = index ∧ rest' = rest := by simpa using heq
        exact ⟨_, c, rfl, rfl, htext, hdigit⟩
      · cases h
    · cases h
  · cases h

/-- What pieces become, piece by piece. -/
inductive FilledPieces (arguments : List Shape) : List Piece → List Shape → Prop
  | nil : FilledPieces arguments [] []
  | text {run : List Char} {pieces : List Piece} {gs : List Shape} :
    FilledPieces arguments pieces gs →
      FilledPieces arguments (.text run :: pieces) (.literal (String.ofList run) :: gs)
  | argument {index : Nat} {pieces : List Piece} {elements gs : List Shape} :
    argument? arguments index = some elements → FilledPieces arguments pieces gs →
      FilledPieces arguments (.argument index :: pieces) (elements ++ gs)

/-- What pieces are filled in with, piece by piece. -/
theorem filledPieces {arguments gs : List Shape} {pieces : List Piece}
    (h : fillPieces arguments pieces = some gs) : FilledPieces arguments pieces gs := by
  induction pieces generalizing gs with
  | nil =>
    obtain rfl := Option.some.inj h
    exact .nil
  | cons piece pieces ih =>
    cases piece with
    | text run =>
      obtain ⟨rest, hrest, heq⟩ := Option.bind_eq_some_iff.mp h
      obtain rfl := Option.some.inj heq
      exact .text (ih hrest)
    | argument index =>
      obtain ⟨elements, helements, h⟩ := Option.bind_eq_some_iff.mp h
      obtain ⟨rest, hrest, heq⟩ := Option.bind_eq_some_iff.mp h
      obtain rfl := Option.some.inj heq
      exact .argument helements (ih hrest)

/-- Relations of an element and of a chain to what they become when arguments are filled in: they
respect each way in which that happens. -/
structure Fills (arguments : List Shape) (R : Shape → List Shape → Prop)
    (S : List Shape → List Shape → Prop) : Prop where
  literal : ∀ {text : String} {gs : List Shape}, fillText arguments text.toList = some gs →
    R (.literal text) gs
  empty : R .empty [.empty]
  group : ∀ (fence : Fence) {fs gs : List Shape}, fillRow arguments fs = some gs → S fs gs →
    R (.group fence fs) [.group fence gs]
  script : ∀ (marker : Marker) {f g : Shape}, fillInside arguments f = some g → R f [g] →
    R (.script marker f) [.script marker g]
  command : ∀ (name : String) {fs gs : List Shape}, fillAll arguments fs = some gs → S fs gs →
    R (.command name fs) [.command name gs]
  block : ∀ (name : String) {fs gs fs' gs' : List Shape}, fillAll arguments fs = some gs →
    fillRow arguments fs' = some gs' → S fs gs → S fs' gs' →
      R (.block name fs fs') [.block name gs gs']
  nil : S [] []
  cons : ∀ {f : Shape} {fs gs gs' : List Shape}, R f gs → S fs gs' → S (f :: fs) (gs ++ gs')
  placeholder : ∀ (marker : Marker) {text : String} {c : Char} {rest : List Char} {index : Nat}
    {operand between fs gs : List Shape}, text.toList = c :: rest →
      argumentDigit? c = some index → argument? arguments index = some operand →
      fillRest arguments rest = some between → S fs gs →
      S (.script marker (.literal "#") :: .literal text :: fs)
        (.script marker (asOperand operand) :: chain (between ++ gs))

/-- Outside of a chain nothing asks for an argument where filling in succeeds. -/
theorem alone_eq_some {f g : Shape} {inside : Option Shape} (h : alone f inside = some g) :
    f.asks = false ∧ inside = some g := by
  rw [alone] at h
  split at h
  · cases h
  · rename_i hasks
    exact ⟨Bool.eq_false_iff.mpr hasks, h⟩

section

variable {arguments : List Shape} {R : Shape → List Shape → Prop}
  {S : List Shape → List Shape → Prop}

/-- In a chain the own text of an element may ask for arguments as well. -/
theorem Fills.woven (h : Fills arguments R S) {f : Shape} {inside : Option Shape} {gs : List Shape}
    (hsome : Shape.woven arguments f inside = some gs)
    (hinside : ∀ g, f.asks = false → inside = some g → R f [g]) : R f gs := by
  cases f with
  | literal text => exact h.literal hsome
  | empty | group | script | command | block =>
    obtain ⟨g, hg, rfl⟩ := Option.map_eq_some_iff.mp hsome
    exact hinside g rfl hg

mutual

/-- An element whose own text asks for nothing. -/
theorem Fills.inside (h : Fills arguments R S) : ∀ {f g : Shape}, f.asks = false →
    fillInside arguments f = some g → R f [g]
  | .literal text, g, hasks, hsome => by
    rw [fillInside] at hsome
    obtain rfl := Option.some.inj hsome
    refine h.literal ?_
    rw [asks] at hasks
    rw [fillText, hasks, String.ofList_toList]
    rfl
  | .empty, g, _, hsome => by
    rw [fillInside] at hsome
    obtain rfl := Option.some.inj hsome
    exact h.empty
  | .group fence fs, g, _, hsome => by
    rw [fillInside] at hsome
    obtain ⟨gs, hgs, rfl⟩ := Option.map_eq_some_iff.mp hsome
    exact h.group fence hgs (Fills.fillRow h hgs)
  | .script marker f, g, _, hsome => by
    rw [fillInside] at hsome
    obtain ⟨g', hg, rfl⟩ := Option.map_eq_some_iff.mp hsome
    obtain ⟨hasks, hg⟩ := alone_eq_some hg
    exact h.script marker hg (Fills.inside h hasks hg)
  | .command name fs, g, _, hsome => by
    rw [fillInside] at hsome
    obtain ⟨gs, hgs, rfl⟩ := Option.map_eq_some_iff.mp hsome
    exact h.command name hgs (Fills.fillAll h hgs)
  | .block name fs body, g, _, hsome => by
    rw [fillInside] at hsome
    obtain ⟨gs, hgs, hsome⟩ := Option.bind_eq_some_iff.mp hsome
    obtain ⟨gs', hgs', heq⟩ := Option.bind_eq_some_iff.mp hsome
    obtain rfl := Option.some.inj heq
    exact h.block name hgs hgs' (Fills.fillAll h hgs) (Fills.fillRow h hgs')

theorem Fills.fillAll (h : Fills arguments R S) : ∀ {fs gs : List Shape},
    Shape.fillAll arguments fs = some gs → S fs gs
  | [], gs, hsome => by
    rw [Shape.fillAll] at hsome
    obtain rfl := Option.some.inj hsome
    exact h.nil
  | f :: fs, gs, hsome => by
    rw [Shape.fillAll] at hsome
    obtain ⟨g, hg, hsome⟩ := Option.bind_eq_some_iff.mp hsome
    obtain ⟨gs', hgs', heq⟩ := Option.bind_eq_some_iff.mp hsome
    obtain rfl := Option.some.inj heq
    obtain ⟨hasks, hg⟩ := alone_eq_some hg
    have hcons : S (f :: fs) ([g] ++ gs') :=
      h.cons (Fills.inside h hasks hg) (Fills.fillAll h hgs')
    exact hcons

/-- What holds of filling in piece by piece holds of a chain. -/
theorem Fills.fillRow (h : Fills arguments R S) : ∀ {fs gs : List Shape},
    Shape.fillRow arguments fs = some gs → S fs gs
  | [], gs, hsome => by
    rw [Shape.fillRow] at hsome
    obtain rfl := Option.some.inj hsome
    exact h.nil
  | [f], gs, hsome => by
    rw [Shape.fillRow] at hsome
    rw [← List.append_nil gs]
    exact h.cons (h.woven hsome fun _ => Fills.inside h) h.nil
  | f :: g :: fs, gs, hsome => by
    rw [Shape.fillRow] at hsome
    split at hsome
    · rename_i marker index rest hplaceholder
      obtain ⟨text, c, rfl, rfl, htext, hdigit⟩ := scriptPlaceholder?_eq_some hplaceholder
      obtain ⟨operand, hoperand, hsome⟩ := Option.bind_eq_some_iff.mp hsome
      obtain ⟨between, hbetween, hsome⟩ := Option.bind_eq_some_iff.mp hsome
      obtain ⟨after, hafter, heq⟩ := Option.bind_eq_some_iff.mp hsome
      obtain rfl := Option.some.inj heq
      exact h.placeholder marker htext hdigit hoperand hbetween (Fills.fillRow h hafter)
    · obtain ⟨first, hfirst, hsome⟩ := Option.bind_eq_some_iff.mp hsome
      obtain ⟨rest, hrest, heq⟩ := Option.bind_eq_some_iff.mp hsome
      obtain rfl := Option.some.inj heq
      exact h.cons (h.woven hfirst fun _ => Fills.inside h) (Fills.fillRow h hrest)

end

end

end Shape

/-! ## Macros -/

/-- A macro: its name, its number of arguments and the chain of its body. -/
structure Macro where
  name : String
  arity : Nat
  body : List Shape

namespace Macro

open Shape

/-- What a use with the given arguments stands for. -/
def instantiate (m : Macro) (arguments : List Shape) : Except Code (List Shape) :=
  if arguments.length ≠ m.arity then .error .wrongArgumentCount
  else
    match fillRow arguments m.body with
    | some fs => .ok fs
    | none => .error .placeholderOutOfRange

/-- An instance of a macro is its body filled in. -/
theorem fillRow_of_instantiate {m : Macro} {arguments fs : List Shape}
    (h : m.instantiate arguments = .ok fs) : fillRow arguments m.body = some fs := by
  unfold instantiate at h
  split at h
  · cases h
  · split at h
    · rename_i hfill
      rw [hfill, Except.ok.inj h]
    · cases h

/-- The name of an element that is to be a macro. -/
def nameOf : Shape → Except Code String
  | .command name _ | .block name _ _ =>
    if name = definingCommand then .error .invalidMacroName else .ok name
  | _ => .error .invalidMacroName

/-- The name that stands alone in a group. -/
def nameIn (f : Shape) : Except Code String :=
  match f.soleElement .braces with
  | some (.command name []) => nameOf (.command name [])
  | some (.block name [] body) => nameOf (.block name [] body)
  | _ => .error .invalidMacroName

/-- The number of arguments that a group asks for. -/
def arityIn (f : Shape) : Except Code Nat :=
  match (f.soleText .brackets).bind arityOf? with
  | some arity => .ok arity
  | none => .error .invalidArgumentCount

/-- The macro with the given body. -/
def withBody (name : String) (arity : Nat) : Shape → Except Code Macro
  | .group .braces inner => .ok ⟨name, arity, inner⟩
  | _ => .error .malformedDefinition

/-- Reads the groups after the name. -/
def ofGroups (name : String) : List Shape → Except Code Macro
  | [body] => withBody name 0 body
  | [count, body] => do withBody name (← arityIn count) body
  | _ => .error .malformedDefinition

/-- Reads the definition made by a defining command with the given parameters, before the rest of its
chain. Answers also what is left of that rest. -/
def read : List Shape → List Shape → Except Code (Macro × List Shape)
  | first :: groups, rest => do
    let name ← nameIn first
    return (← ofGroups name groups, rest)
  | [], .command name groups :: rest => do
    let name ← nameOf (.command name groups)
    return (← ofGroups name groups, rest)
  | [], _ => .error .invalidMacroName

end Macro

/-! ## Rewriting -/

/-- Programs that know macros, fail with a code, or do not end. -/
abbrev Rewriting := ExceptT Code (StateT (List Macro) Option)

namespace Rewriting

open Shape

/-- Records a macro, unless its name is taken. -/
def record (m : Macro) : Rewriting Unit := do
  if (← get).any fun known => known.name == m.name then throw .duplicateDefinition
  else modify (· ++ [m])

/-- The macro with a name. -/
def known? (name : String) : Rewriting (Option Macro) :=
  return (← get).find? fun m => m.name == name

/-- A part of a formula that is rewritten: a chain, what is inside of an element, an operand, where no
definition can stand, or parameters. -/
inductive Task where
  | row (fs : List Shape)
  | inside (f : Shape)
  | operand (f : Shape)
  | all (fs : List Shape)

namespace Task

/-- What a part becomes. -/
abbrev Result : Task → Type
  | .row _ | .all _ => List Shape
  | .inside _ | .operand _ => Shape

/-- Rewrites a part. -/
def perform (task : Task) : Rewriting task.Result :=
  match task with
  | .row fs => (do
    match fs with
    | [] => return []
    | .command name parameters :: fs =>
      if name = definingCommand then
        let (m, rest) ← Macro.read parameters fs
        record m
        row (chain rest) |>.perform
      else
        match ← known? name with
        | some m =>
          let gs ← m.instantiate parameters
          row (chain (contents gs ++ fs)) |>.perform
        | none =>
          let parameters ← all parameters |>.perform
          return .command name parameters :: (← row fs |>.perform)
    | f :: fs =>
      let f ← inside f |>.perform
      return f :: (← row fs |>.perform) : Rewriting (List Shape))
  | .inside f => (do
    match f with
    | .literal text => return .literal text
    | .empty => return .empty
    | .group fence inner => return .group fence (← row inner |>.perform)
    | .script marker f => return .script marker (← operand f |>.perform)
    | .command name parameters => return .command name (← all parameters |>.perform)
    | .block name parameters body =>
      let parameters ← all parameters |>.perform
      return .block name parameters (← row body |>.perform) : Rewriting Shape)
  | .operand f => (do
    match f with
    | .command name parameters =>
      if name = definingCommand then throw .misplacedDefinition
      else
        match ← known? name with
        | some m =>
          let gs ← m.instantiate parameters
          operand (asOperand gs) |>.perform
        | none => return .command name (← all parameters |>.perform)
    | f => inside f |>.perform : Rewriting Shape)
  | .all fs => (do
    match fs with
    | [] => return []
    | f :: fs =>
      let f ← inside f |>.perform
      return f :: (← all fs |>.perform) : Rewriting (List Shape))
partial_fixpoint

end Task

/-- Rewrites a chain. -/
abbrev rewriteRow (fs : List Shape) : Rewriting (List Shape) := (Task.row fs).perform

/-- Rewrites what is inside of an element. -/
abbrev rewriteInside (f : Shape) : Rewriting Shape := (Task.inside f).perform

/-- Rewrites an operand, where no definition can stand. -/
abbrev rewriteOperand (f : Shape) : Rewriting Shape := (Task.operand f).perform

/-- Rewrites what is inside of parameters. -/
abbrev rewriteAll (fs : List Shape) : Rewriting (List Shape) := (Task.all fs).perform

/-! ## Step by step -/

variable {ms : List Macro} {f : Shape} {name : String} {m : Macro}

/-- A macro is recorded unless its name is taken. -/
theorem run_record (m : Macro) (ms : List Macro) : (record m).run.run ms =
    if ms.any fun known => known.name == m.name then some (.error .duplicateDefinition, ms)
    else some (.ok (), ms ++ [m]) := by
  have hget : (get : Rewriting (List Macro)).run.run ms = some (.ok ms, ms) := rfl
  rw [record, run_bind_of_ok hget]
  split <;> rfl

/-- What becomes of a chain that starts with a definition, before it is looked at again. -/
def takeOut (parameters fs : List Shape) : Rewriting (List Shape) := do
  let (m, rest) ← Macro.read parameters fs
  record m
  return chain rest

/-- What becomes of a chain that starts with a use, before it is looked at again. -/
def putIn (m : Macro) (parameters fs : List Shape) : Rewriting (List Shape) := do
  return chain (contents (← m.instantiate parameters) ++ fs)

/-- What becomes of an operand that is a use, before it is looked at again. -/
def putInOperand (m : Macro) (parameters : List Shape) : Rewriting Shape := do
  return asOperand (← m.instantiate parameters)

/-- A definition in a chain is taken out, and then the rest is rewritten. -/
theorem rewriteRow_define (parameters fs : List Shape) :
    rewriteRow (.command definingCommand parameters :: fs) =
      takeOut parameters fs >>= rewriteRow := by
  rw [rewriteRow, Task.perform, if_pos rfl, takeOut]
  simp only [bind_assoc, pure_bind]

/-- Whether a rewriting only looks at an element. -/
def PassesOver (ms : List Macro) (f : Shape) : Prop :=
  ∀ name parameters, f = .command name parameters →
    name ≠ definingCommand ∧ (ms.find? fun m => m.name == name) = none

theorem run_known? :
    (known? name).run.run ms = some (.ok (ms.find? fun m => m.name == name), ms) := rfl

/-- A use in a chain gives way to the body, and that is rewritten with the rest. -/
theorem run_rewriteRow_use (hname : name ≠ definingCommand)
    (hfind : (ms.find? fun m => m.name == name) = some m) (parameters fs : List Shape) :
    (rewriteRow (.command name parameters :: fs)).run.run ms =
      (putIn m parameters fs >>= rewriteRow).run.run ms := by
  rw [rewriteRow, Task.perform, if_neg hname, run_bind_of_ok run_known?, hfind,
    putIn]
  simp only [bind_assoc, pure_bind]

/-- An element that is passed over is rewritten inside, and then the rest is. -/
theorem run_rewriteRow_cons (h : PassesOver ms f) (fs : List Shape) :
    (rewriteRow (f :: fs)).run.run ms =
      (do let f ← rewriteInside f; return f :: (← rewriteRow fs)).run.run ms := by
  cases f with
  | command name parameters =>
    obtain ⟨hname, hfind⟩ := h name parameters rfl
    rw [rewriteRow, Task.perform, if_neg hname, run_bind_of_ok run_known?, hfind,
      rewriteInside, Task.perform]
    simp only [bind_assoc, pure_bind]
  | literal | empty | group | script | block =>
    rw [rewriteRow, Task.perform]
    simp

/-- A use that is an operand gives way to the body, and that is rewritten. -/
theorem run_rewriteOperand_use (hname : name ≠ definingCommand)
    (hfind : (ms.find? fun m => m.name == name) = some m) (parameters : List Shape) :
    (rewriteOperand (.command name parameters)).run.run ms =
      (putInOperand m parameters >>= rewriteOperand).run.run ms := by
  rw [rewriteOperand, Task.perform, if_neg hname, run_bind_of_ok run_known?, hfind,
    putInOperand]
  simp only [bind_assoc, pure_bind]

/-- An operand that is passed over is rewritten inside. -/
theorem run_rewriteOperand_inside (h : PassesOver ms f) :
    (rewriteOperand f).run.run ms = (rewriteInside f).run.run ms := by
  cases f with
  | command name parameters =>
    obtain ⟨hname, hfind⟩ := h name parameters rfl
    rw [rewriteOperand, Task.perform, if_neg hname, run_bind_of_ok run_known?, hfind,
      rewriteInside, Task.perform]
  | literal | empty | group | script | block =>
    rw [rewriteOperand, Task.perform]
    simp

end Rewriting

end Formulary
