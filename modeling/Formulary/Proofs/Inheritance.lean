import Formulary.Proofs.Pipeline
import Formulary.Proofs.Traits

/-!
# What a fixed formula takes from its source

The programs of a fixer keep the traits of a formula: a trait of the elements that were read, and of
the bodies of the definitions that are known, is a trait of the formula after every pass and of the
bodies that are known then, and every fault on the way is reported at a place with the trait.

* `Admits.parseMath`: reading a formula with its blocks.
* `keepsOr_expand`, `walks_expandAll`: expanding macros.
* `keepsOr_setMargins`, `OfTree.renames`: the other passes.
* `inherits_fixExpression`, `ofDefinitions_fixExpression`: fixing a formula.
-/

namespace Formulary

open BlockMarker (isName)

/-- What every step of a visit does, and what is kept by doing one thing after another, the whole
visit does. -/
theorem Tree.visitBelow_induction {m : Type → Type} [Monad m] {P : m Unit → Prop} (t : Tree)
    {enter : Nat → NodeId → m Unit} (hpure : P (pure ()))
    (hbind : ∀ x y : m Unit, P x → P y → P (x >>= fun _ => y))
    (henter : ∀ depth id, P (enter depth id)) (limit depth : Nat) (id : NodeId) :
    P (t.visitBelow enter limit depth id) := by
  induction limit generalizing depth id with
  | zero => exact hpure
  | succ limit ih =>
    have hshow : ∀ depth child,
        P (enter depth child >>= fun _ => t.visitBelow enter limit depth child) :=
      fun depth child => hbind _ _ (henter depth child) (ih depth child)
    have hall : ∀ depth (children : List NodeId), P (children.forM fun child =>
        enter depth child >>= fun _ => t.visitBelow enter limit depth child) := by
      intro depth children
      induction children with
      | nil => exact hpure
      | cons child children ihs => exact hbind _ _ (hshow depth child) ihs
    rw [visitBelow]
    cases t.node id with
    | literal | empty => exact hpure
    | sequence head tail =>
      cases tail with
      | none => exact hshow depth head
      | some next => exact hbind _ _ (hshow depth head) (ih depth next)
    | group _ inner => exact hshow (depth + 1) inner
    | script _ operand => exact hshow depth operand
    | command _ parameters => exact hall (depth + 1) parameters
    | block _ parameters body => exact hbind _ _ (hall depth parameters) (hshow depth body)

namespace Trait

variable {source : String} {steps : Nat} {T : Trait} {t : Tree}

/-! ## Faults -/

theorem ofFault_of_label {x : Fault} {label : Label} (hx : x.diagnostic.labels = [label])
    (h : T.place label.span) : T.OfFault x := by
  rw [OfFault, hx, List.forall_mem_singleton]
  exact h

theorem ofFault_of_labels {x : Fault} {first second : Label}
    (hx : x.diagnostic.labels = [first, second]) (hfirst : T.place first.span)
    (hsecond : T.place second.span) : T.OfFault x := by
  rw [OfFault, hx, List.forall_mem_cons, List.forall_mem_singleton]
  exact ⟨hfirst, hsecond⟩

/-! ## Reading -/

section

open Formulary.Tree (layElement layElements chain ofElements)

variable (T) in
mutual

/-- The parts of an element have the trait, and so has the place of what is inside an empty
group. -/
def OfElement : Element → Prop
  | .literal text span => T.text text ∧ T.place span
  | .group _ inner span => OfElements inner ∧ T.place span ∧ T.place ((span.drop 1).take 0)
  | .script _ operand span => OfElement operand ∧ T.place span
  | .command name parameters span => T.command name ∧ OfElements parameters ∧ T.place span

/-- Elements with the trait. -/
def OfElements : List Element → Prop
  | [] => True
  | e :: es => OfElement e ∧ OfElements es

end

mutual

/-- Laying an element out adds nodes with the trait. -/
theorem keeps_layElement : ∀ {e : Element}, T.OfElement e → T.Keeps (layElement e)
  | .literal text span, h => by
    rw [OfElement] at h
    exact keeps_alloc h.1 h.2
  | .group fence inner span, h => by
    rw [OfElement] at h
    refine (keeps_layElements h.1).bind fun heads => ?_
    exact (keeps_chain h.2.2 heads).bind fun inner => keeps_alloc trivial h.2.1
  | .script marker operand span, h => by
    rw [OfElement] at h
    exact (keeps_layElement h.1).bind fun operand => keeps_alloc trivial h.2
  | .command name parameters span, h => by
    rw [OfElement] at h
    exact (keeps_layElements h.2.1).bind fun parameters => keeps_alloc h.1 h.2.2

theorem keeps_layElements : ∀ {es : List Element}, T.OfElements es → T.Keeps (layElements es)
  | [], _ => Keeps.pure []
  | e :: es, h => by
    rw [OfElements] at h
    exact (keeps_layElement h.1).bind fun id => (keeps_layElements h.2).bind fun ids => Keeps.pure _

end

/-- The tree of elements with the trait has it. -/
theorem OfElements.ofElements {es : List Element} (h : T.OfElements es) : T.OfTree (ofElements es) :=
  Keeps.build ((keeps_layElements h).bind fun heads => keeps_chain T.place_zero heads)

end

/-! ## Blocks -/

section

open Formulary.Tree (cutBetween insertAllAfter spliceBlock pairBlocks resolveBlocks)

variable {markers : List BlockMarker}

variable (T) in
/-- A part of collecting: it notes names only, and fails at a place with the trait. -/
def Collects (x : StateT (List BlockMarker) (Except BlockError) Unit) : Prop :=
  ∀ ms, (∀ m ∈ ms, isName m.name = true) →
    (∀ e, x.run ms = .error e → T.OfFault (.block e)) ∧
      ∀ found, x.run ms = .ok ((), found) → ∀ m ∈ found, isName m.name = true

theorem Collects.pure : T.Collects (Pure.pure ()) := by
  intro ms hms
  refine ⟨fun e he => ?_, fun found hfound => ?_⟩
  · cases he
  · cases hfound
    exact hms

theorem Collects.bind {x y : StateT (List BlockMarker) (Except BlockError) Unit} (hx : T.Collects x)
    (hy : T.Collects y) : T.Collects (x >>= fun _ => y) := by
  intro ms hms
  obtain ⟨hbad, hgood⟩ := hx ms hms
  rw [StateT.run_bind]
  rcases hrun : x.run ms with e | ⟨⟨⟩, found⟩
  · refine ⟨fun e' he' => ?_, fun found hfound => ?_⟩
    · cases he'
      exact hbad e hrun
    · cases hfound
  · exact hy found (hgood found hrun)

/-- A block name is read off a node of the formula, or refused there. -/
theorem OfTree.readName (h : T.OfTree t) (side : Delimiting) (command : NodeId) :
    (∀ e, BlockMarker.readName t side command = .error e → T.OfFault (.block e)) ∧
      ∀ name, BlockMarker.readName t side command = .ok name → isName name = true := by
  rw [BlockMarker.readName]
  rcases t.parameter command 0 with _ | parameter
  · exact result_of_error (ofFault_of_label rfl (h.place command))
  · dsimp only
    rcases hfilter : (t.soleText .braces parameter).filter isName with _ | written
    · exact result_of_error (ofFault_of_label rfl (h.place command))
    · exact result_of_ok (Option.filter_eq_some_iff.mp hfilter).2

/-- Collecting notes names only, and fails at a node of the formula. -/
theorem OfTree.collect (h : T.OfTree t) :
    (∀ e, BlockMarker.collect t = .error e → T.OfFault (.block e)) ∧
      ∀ markers, BlockMarker.collect t = .ok markers → ∀ m ∈ markers, isName m.name = true := by
  unfold BlockMarker.collect
  extract_lets enter
  have henter : ∀ depth id, T.Collects (enter depth id) := by
    intro depth id
    simp only [enter]
    rcases t.node id with _ | _ | _ | _ | _ | ⟨word, -⟩ | _
    case command =>
      dsimp only
      rcases BlockMarker.side? word with _ | side
      · exact Collects.pure
      · dsimp only
        intro ms hms
        obtain ⟨hbad, hgood⟩ := h.readName side id
        rcases hname : BlockMarker.readName t side id with e | name
        · refine ⟨fun e' he' => ?_, fun found hfound => ?_⟩
          · cases he'
            exact hbad e hname
          · cases hfound
        · refine ⟨fun e he => ?_, fun found hfound => ?_⟩
          · cases he
          · cases hfound
            exact List.forall_mem_cons.mpr ⟨hgood name hname, hms⟩
    all_goals exact Collects.pure
  have hvisit : T.Collects (t.visit enter t.root) :=
    (henter 0 t.root).bind
      (t.visitBelow_induction Collects.pure (fun _ _ => Collects.bind) henter t.size 0 t.root)
  obtain ⟨hbad, hgood⟩ := hvisit [] (List.forall_mem_nil _)
  rcases hrun : (t.visit enter t.root).run [] with e | ⟨⟨⟩, found⟩
  · exact result_of_error (hbad e hrun)
  · exact result_of_ok fun m hm => hgood found hrun m (List.mem_reverse.mp hm)

theorem keeps_cutBetween (first last : NodeId) {place : Span} (hplace : T.place place) :
    T.Keeps (cutBetween first last place) := by
  rw [cutBetween]
  refine Keeps.get_bind fun t ht => ?_
  rcases (t.tail first).filter (· ≠ last) with _ | start
  · exact keeps_chain hplace []
  · dsimp only
    have hfree : T.Keeps (do
        modify (·.setParent start none)
        return start) :=
      (Keeps.of_modify fun t ht => ht.setParent _ _).bind fun _ => Keeps.pure start
    rcases (t.cells start).find? _ with _ | ⟨before, _⟩
    · exact hfree
    · exact (Keeps.of_modify fun t ht => ht.setTail _ _).bind fun _ => hfree

theorem keepsOr_insertAllAfter (cell : NodeId) (nodes : List NodeId) :
    T.KeepsOr (fun _ => True) (insertAllAfter cell nodes) := by
  induction nodes generalizing cell with
  | nil => exact KeepsOr.pure _
  | cons node nodes ih =>
    refine (keepsOr_setParent node none).bind fun _ => ?_
    exact (keepsOr_insertAfter cell node).bind fun next => ih next

theorem keepsOr_spliceBlock {first last : BlockMarker} (hname : isName first.name = true) :
    T.KeepsOr T.OfFault (spliceBlock first last) := by
  rw [spliceBlock]
  refine KeepsOr.get_bind fun t ht => ?_
  split
  · rename_i start stop _ _
    have hplace := T.place_union (ht.place first.command) (ht.place last.command)
    refine (KeepsOr.lift ?_).bind fun body => ?_
    · exact keeps_cutBetween start stop (T.place_stop (ht.place _))
    refine KeepsOr.get_bind fun t₁ ht₁ => ?_
    have hblock : T.OfNode (.block first.name ((t.node first.command).parameters.drop 1) body) :=
      T.block_of_isName hname
    refine (KeepsOr.lift (keeps_alloc hblock hplace)).bind fun block => ?_
    refine (KeepsOr.of_modify fun t ht => ?_).bind fun _ => ?_
    · exact ((ht.setParent _ _).setParent _ _).setCell _ _ _
    · exact (keepsOr_insertAllAfter _ _).reportedAt hplace
  · exact KeepsOr.throw (ofFault_of_label rfl (ht.place first.command))

/-- Commands that do not go together are reported at a node of the formula. -/
theorem OfTree.pairError (h : T.OfTree t) {first last : BlockMarker} {e : BlockError}
    (he : t.pairError? first last = some e) : T.OfFault (.block e) := by
  rw [Tree.pairError?] at he
  split at he
  · cases he
    exact ofFault_of_labels rfl (h.place _) (h.place _)
  · split at he
    · cases he
      exact ofFault_of_labels rfl (h.place _) (h.place _)
    · cases he

/-- Pairing keeps the trait, and fails at a place with it. -/
theorem keepsOr_pairBlocks {opened : List BlockMarker} (hopened : ∀ m ∈ opened, isName m.name = true)
    (hmarkers : ∀ m ∈ markers, isName m.name = true) :
    T.KeepsOr T.OfFault (pairBlocks opened markers) := by
  induction markers generalizing opened with
  | nil =>
    rw [pairBlocks]
    split
    · refine KeepsOr.get_bind fun t ht => KeepsOr.throw ?_
      intro label hlabel
      change label ∈ List.map _ _ at hlabel
      rw [List.map_map, List.mem_map] at hlabel
      obtain ⟨m, -, rfl⟩ := hlabel
      exact ht.place m.command
    · exact KeepsOr.pure _
  | cons marker markers ih =>
    rw [List.forall_mem_cons] at hmarkers
    unfold pairBlocks
    split
    · exact ih (List.forall_mem_cons.mpr ⟨hmarkers.1, hopened⟩) hmarkers.2
    · exact KeepsOr.get_bind fun t ht => KeepsOr.throw (ofFault_of_label rfl (ht.place _))
    · rename_i first opened _
      rw [List.forall_mem_cons] at hopened
      refine KeepsOr.get_bind fun t ht => ?_
      cases he : t.pairError? first marker with
      | some e => exact KeepsOr.throw (ht.pairError he)
      | none => exact (keepsOr_spliceBlock hopened.1).bind fun _ => ih hopened.2 hmarkers.2

/-- Resolving blocks keeps the trait. -/
theorem keepsOr_resolveBlocks : T.KeepsOr T.OfFault resolveBlocks := by
  rw [resolveBlocks]
  refine KeepsOr.get_bind fun t ht => ?_
  obtain ⟨hbad, hnames⟩ := ht.collect
  split
  · rename_i e he
    exact KeepsOr.throw (hbad e he)
  · rename_i markers hmarkers
    exact keepsOr_pairBlocks (List.forall_mem_nil _) (hnames markers hmarkers)

end

variable (T) in
/-- A text that is read as elements with the trait, or not at all for a reason at a place with
it. -/
structure Admits (source : String) : Prop where
  of_ok : ∀ es, Element.readAll source = .ok es → T.OfElements es
  of_error : ∀ e, Element.readAll source = .error e → T.OfFault (.text e)

/-- A formula that is read has the trait of what it is read from. -/
theorem Admits.parseMath (h : T.Admits source) :
    (∀ x, Tree.parseMath source = .error x → T.OfFault x) ∧
      ∀ t, Tree.parseMath source = .ok t → T.OfTree t := by
  rw [Tree.parseMath, Tree.parse]
  rcases hread : Element.readAll source with e | es
  · exact result_of_error (h.of_error e hread)
  · obtain ⟨hkept, hbad⟩ := keepsOr_resolveBlocks (T := T) _ (h.of_ok es hread).ofElements
    rw [Except.map]
    dsimp only
    rcases hrun : Tree.resolveBlocks.run.run (Tree.ofElements es) with ⟨e | ⟨⟩, t'⟩
    · rw [hrun] at hbad
      exact result_of_error (hbad e rfl)
    · rw [hrun] at hkept
      exact result_of_ok hkept

/-! ## Macros -/

section

open Formulary.Tree (copyArgument operandOf chain alloc deepCopy)

variable {e : MacroError}

theorem keeps_copyArgument (argument : NodeId) : T.Keeps (copyArgument argument) := by
  rw [copyArgument]
  refine Keeps.get_bind fun t _ => ?_
  exact (keeps_deepCopy _).bind fun copy => Keeps.get_bind fun t _ => Keeps.pure _

theorem keeps_operandOf {place : Span} (hplace : T.place place) (heads : List NodeId) :
    T.Keeps (operandOf place heads) := by
  have hgroup : T.Keeps (do alloc (.group .braces (← chain place heads)) place) :=
    (keeps_chain hplace heads).bind fun _ => keeps_alloc trivial hplace
  unfold operandOf
  split
  · refine Keeps.get_bind fun t _ => ?_
    split
    · exact keeps_deepCopy _
    · exact hgroup
  · exact hgroup

variable {d : Definition} {arguments : List NodeId} {place : Span}

theorem keepsOr_argumentAt (hplace : T.place place) (index : Nat) :
    T.KeepsOr T.OfFault (liftM (d.argumentAt arguments index place) : Edit Fault NodeId) := by
  refine KeepsOr.ofExcept fun x hx => ?_
  rw [Definition.argumentAt] at hx
  split at hx
  · cases hx
  · cases hx
    exact ofFault_of_label rfl hplace

theorem OfTree.scriptPlaceholder (h : T.OfTree t) {script next literal : NodeId} {rest : List Char}
    {index : Nat}
    (hscript : Definition.scriptPlaceholder? t script = some (next, literal, rest, index)) :
    T.text (String.ofList rest) := by
  rw [Definition.scriptPlaceholder?, Option.bind_eq_bind, Option.bind_eq_some_iff] at hscript
  obtain ⟨_, -, hscript⟩ := hscript
  rw [Option.bind_eq_some_iff] at hscript
  obtain ⟨found, -, hscript⟩ := hscript
  split at hscript
  · rename_i c chars heq
    rw [Option.bind_eq_some_iff] at hscript
    obtain ⟨digit, hdigit, hscript⟩ := hscript
    cases hscript
    rw [Option.map_eq_some_iff] at heq
    obtain ⟨text, htext, heq⟩ := heq
    cases hnode : t.node literal with
    | literal written =>
      rw [hnode] at htext
      cases htext
      exact T.text_afterDigit (h.literal hnode) heq hdigit
    | _ =>
      rw [hnode] at htext
      cases htext
  · cases hscript

theorem keepsOr_fillScript (script : NodeId) :
    T.KeepsOr T.OfFault (d.fillScript arguments script) := by
  rw [Definition.fillScript]
  refine KeepsOr.get_bind fun t ht => ?_
  split
  · rename_i operand next literal rest index _ hscript
    have hplace := ht.place script
    have hunion := T.place_union hplace (ht.place literal)
    refine (keepsOr_argumentAt hunion index).bind fun argument => ?_
    refine (KeepsOr.lift (keeps_copyArgument argument)).bind fun heads => ?_
    refine (KeepsOr.lift (keeps_operandOf hplace heads)).bind fun replacement => ?_
    refine ((keepsOr_replace operand replacement).reportedAt hplace).bind fun _ => ?_
    have hrest := ht.scriptPlaceholder hscript
    refine (KeepsOr.of_modify fun t' ht' => ht'.setText _ hrest).bind fun _ => ?_
    split
    · exact ((keepsOr_delete next).reportedAt hplace).discard
    · exact KeepsOr.pure _
  · exact KeepsOr.pure _

theorem keepsOr_fillPieces (hplace : T.place place) {pieces : List Piece}
    (h : ∀ run, .text run ∈ pieces → T.text (String.ofList run)) :
    T.KeepsOr T.OfFault (d.fillPieces arguments place pieces) := by
  induction pieces with
  | nil => exact KeepsOr.pure []
  | cons piece pieces ih =>
    have hrest := ih fun run hrun => h run (List.mem_cons_of_mem _ hrun)
    cases piece with
    | text run =>
      have hliteral : T.OfNode (.literal (String.ofList run)) := h run List.mem_cons_self
      exact (KeepsOr.lift (keeps_alloc hliteral hplace)).bind fun head =>
        hrest.bind fun heads => KeepsOr.pure _
    | argument index =>
      refine (keepsOr_argumentAt hplace index).bind fun argument => ?_
      exact (KeepsOr.lift (keeps_copyArgument argument)).bind fun heads =>
        hrest.bind fun heads' => KeepsOr.pure _

theorem OfTree.pieces (h : T.OfTree t) (literal : NodeId) {run : List Char}
    (hrun : .text run ∈ Piece.split (((t.node literal).literal?).getD "").toList) :
    T.text (String.ofList run) := by
  cases hnode : t.node literal with
  | literal text =>
    rw [hnode] at hrun
    exact T.text_piece (h.literal hnode) hrun
  | _ =>
    rw [hnode] at hrun
    cases hrun

theorem keepsOr_fillLiteral (literal : NodeId) :
    T.KeepsOr T.OfFault (d.fillLiteral arguments literal) := by
  rw [Definition.fillLiteral]
  refine KeepsOr.get_bind fun t ht => ?_
  have hplace := ht.place literal
  refine (keepsOr_fillPieces hplace fun run hrun => ht.pieces literal hrun).bind fun heads => ?_
  refine (KeepsOr.lift (keeps_chain hplace heads)).bind fun filled => ?_
  refine KeepsOr.get_bind fun t' _ => ?_
  split
  · exact KeepsOr.throw (ofFault_of_label rfl hplace)
  · exact (keepsOr_replace _ _).reportedAt hplace

/-- Filling a body in keeps the trait. -/
theorem keepsOr_fill (body : NodeId) : T.KeepsOr T.OfFault (d.fill arguments body) := by
  rw [Definition.fill]
  refine KeepsOr.get_bind fun t _ => ?_
  exact (KeepsOr.forM keepsOr_fillScript _).bind fun _ => KeepsOr.forM keepsOr_fillLiteral _

theorem keepsOr_placeOperand (use body : NodeId) (hplace : T.place place) :
    T.KeepsOr (fun _ => True) (Definition.placeOperand use body place) := by
  rw [Definition.placeOperand]
  refine KeepsOr.get_bind fun t _ => ?_
  split
  · exact (KeepsOr.lift (keeps_deepCopy _)).bind fun _ => keepsOr_replace _ _
  · have hgroup : T.OfNode (.group .braces body) := trivial
    exact (KeepsOr.lift (keeps_alloc hgroup hplace)).bind fun _ => keepsOr_replace _ _

theorem keepsOr_place (use body : NodeId) (hplace : T.place place) :
    T.KeepsOr (fun _ => True) (Definition.place use body place) := by
  rw [Definition.place]
  refine KeepsOr.get_bind fun t _ => ?_
  split
  · split
    · exact (keepsOr_delete _).discard
    · exact keepsOr_replace _ _
  · exact keepsOr_placeOperand use body hplace

theorem keepsOr_instantiated (hbody : T.OfBody d) (hplace : T.place place) :
    T.KeepsOr T.OfFault (d.instantiated arguments place) := by
  rw [Definition.instantiated]
  refine (KeepsOr.lift (keeps_graft hbody hplace)).bind fun body => ?_
  exact (keepsOr_fill body).bind fun _ => KeepsOr.pure body

/-- Expanding a use keeps the trait if the body has it. -/
theorem keepsOr_expand (hbody : T.OfBody d) (use : NodeId) : T.KeepsOr T.OfFault (d.expand use) := by
  rw [Definition.expand]
  refine KeepsOr.get_bind fun t ht => ?_
  have hplace := ht.place use
  dsimp only
  split
  · exact KeepsOr.throw (ofFault_of_label rfl hplace)
  · refine (keepsOr_instantiated hbody hplace).bind fun body => ?_
    exact (keepsOr_place use body hplace).reportedAt hplace

theorem keepsOr_deleteElements (cell : NodeId) (count : Nat) :
    T.KeepsOr (fun _ => True) (Definitions.deleteElements cell count) := by
  induction count with
  | zero => exact KeepsOr.pure _
  | succ count ih => exact (keepsOr_delete cell).discard.bind fun _ => ih

/-! ### Definitions -/

theorem OfTree.nameOf (h : T.OfTree t) {command : NodeId}
    (he : Definition.nameOf t command = .error e) : T.OfFault (.expansion e) := by
  rw [Definition.nameOf] at he
  split at he
  · cases he
    exact ofFault_of_label rfl (h.place command)
  · split at he
    · cases he
      exact ofFault_of_label rfl (h.place command)
    · cases he

theorem OfTree.nameIn (h : T.OfTree t) {group : NodeId}
    (he : Definition.nameIn t group = .error e) : T.OfFault (.expansion e) := by
  rw [Definition.nameIn] at he
  split at he
  · exact h.nameOf he
  · cases he
    exact ofFault_of_label rfl (h.place group)

theorem OfTree.arityIn (h : T.OfTree t) {name : String} {group : NodeId}
    (he : Definition.arityIn t name group = .error e) : T.OfFault (.expansion e) := by
  rw [Definition.arityIn] at he
  split at he
  · cases he
  · cases he
    exact ofFault_of_label rfl (h.place group)

variable (T) in
/-- A definition that was read has a body with the trait, or was not read for a reason at a place
with it. -/
def OfReading {α : Type} (body : α → Definition) (r : Except MacroError α) : Prop :=
  (∀ e, r = .error e → T.OfFault (.expansion e)) ∧ ∀ a, r = .ok a → T.OfBody (body a)

theorem ofReading_bind {α β : Type} {body : β → Definition} {r : Except MacroError α}
    {f : α → Except MacroError β} (hr : ∀ e, r = .error e → T.OfFault (.expansion e))
    (hf : ∀ a, T.OfReading body (f a)) : T.OfReading body (r >>= f) := by
  cases r with
  | ok a => exact hf a
  | error e => exact result_of_error (hr e rfl)

theorem OfTree.withBody (h : T.OfTree t) (name : String) (arity : Nat) (group : NodeId) :
    T.OfReading id (Definition.withBody t name arity group) := by
  rw [Definition.withBody]
  split
  · exact result_of_ok fun id => (h.extract _).node id
  · exact result_of_error (ofFault_of_label rfl (h.place group))

theorem OfTree.ofGroups (h : T.OfTree t) (name : String) (groups : List NodeId)
    (hplace : T.place place) : T.OfReading id (Definition.ofGroups t name groups place) := by
  unfold Definition.ofGroups
  split
  · exact h.withBody name 0 _
  · exact ofReading_bind (fun e he => h.arityIn he) fun arity => h.withBody name arity _
  · exact result_of_error (ofFault_of_label rfl hplace)

/-- A definition that is read off a formula has its trait. -/
theorem OfTree.read (h : T.OfTree t) (command cell : NodeId) :
    T.OfReading Prod.fst (Definition.read t command cell) := by
  have hcount : ∀ {r : Except MacroError Definition} (count : Nat), T.OfReading id r →
      T.OfReading Prod.fst (r >>= fun d => .ok (d, count)) := by
    intro r count hr
    cases r with
    | ok d => exact result_of_ok (hr.2 d rfl)
    | error e => exact result_of_error (hr.1 e rfl)
  rw [Definition.read]
  split
  · exact ofReading_bind (fun e he => h.nameIn he) fun name =>
      hcount 1 (h.ofGroups name _ (h.place command))
  · split
    · exact result_of_error (ofFault_of_label rfl (h.place command))
    · exact ofReading_bind (fun e he => h.nameOf he) fun name =>
        hcount 2 (h.ofGroups name _ (T.place_union (h.place command) (h.place _)))

/-! ### Walking -/

variable {α β : Type} {ds : Definitions}

theorem OfDefinitions.find? (h : T.OfDefinitions ds) {name : String} (hd : ds.find? name = some d) :
    T.OfBody d :=
  h d (List.mem_of_find?_eq_some hd)

theorem OfDefinitions.insert_ok (h : T.OfDefinitions ds) (hd : T.OfBody d) {ds' : Definitions}
    (hinsert : ds.insert d place = .ok ds') : T.OfDefinitions ds' := by
  rw [Definitions.insert] at hinsert
  split at hinsert
  · cases hinsert
  · cases hinsert
    rw [OfDefinitions, List.forall_mem_append, List.forall_mem_singleton]
    exact ⟨h, hd⟩

theorem insert_error (hplace : T.place place) (hinsert : ds.insert d place = .error e) :
    T.OfFault (.expansion e) := by
  rw [Definitions.insert] at hinsert
  split at hinsert
  · cases hinsert
    exact ofFault_of_label rfl hplace
  · cases hinsert

variable (T) in
/-- A walk that keeps the trait of the formula and of the definitions, whether or not it fails, and
fails at places with the trait only. -/
def Walks (w : Walk Definitions Fault α) : Prop :=
  ∀ t ds r t' ds', T.OfTree t → T.OfDefinitions ds → w.run.run (t, ds) = some (r, t', ds') →
    T.OfTree t' ∧ T.OfDefinitions ds' ∧ ∀ x, r = .error x → T.OfFault x

namespace Walks

variable {w : Walk Definitions Fault α}

theorem pure (a : α) : T.Walks (Pure.pure a) := by
  intro t ds r t' ds' ht hds hrun
  cases hrun
  refine ⟨ht, hds, fun x hx => ?_⟩
  cases hx

theorem throw {x : Fault} (hx : T.OfFault x) :
    T.Walks (MonadExcept.throw x : Walk Definitions Fault α) := by
  intro t ds r t' ds' ht hds hrun
  cases hrun
  refine ⟨ht, hds, fun y hy => ?_⟩
  cases hy
  exact hx

theorem bind {f : α → Walk Definitions Fault β} (h : T.Walks w) (hnext : ∀ a, T.Walks (f a)) :
    T.Walks (w >>= f) := by
  intro t ds r t' ds' ht hds hrun
  rcases run_bind_eq_some hrun with ⟨a, ⟨t₁, ds₁⟩, hfirst, hrest⟩ | ⟨x, ⟨t₁, ds₁⟩, hfirst, hout⟩
  · obtain ⟨ht₁, hds₁, -⟩ := h _ _ _ _ _ ht hds hfirst
    exact hnext a _ _ _ _ _ ht₁ hds₁ hrest
  · obtain ⟨ht₁, hds₁, hbad⟩ := h _ _ _ _ _ ht hds hfirst
    cases hout
    refine ⟨ht₁, hds₁, fun y hy => ?_⟩
    cases hy
    exact hbad x rfl

theorem tree : T.Walks (Walk.tree : Walk Definitions Fault Tree) := by
  intro t ds r t' ds' ht hds hrun
  cases hrun
  refine ⟨ht, hds, fun x hx => ?_⟩
  cases hx

theorem tree_bind {f : Tree → Walk Definitions Fault α} (h : ∀ t, T.OfTree t → T.Walks (f t)) :
    T.Walks (Walk.tree >>= f) :=
  fun t ds r t' ds' ht hds hrun => h t ht t ds r t' ds' ht hds hrun

theorem notes_bind {f : Definitions → Walk Definitions Fault α}
    (h : ∀ ds, T.OfDefinitions ds → T.Walks (f ds)) : T.Walks (Walk.notes >>= f) :=
  fun t ds r t' ds' ht hds hrun => h ds hds t ds r t' ds' ht hds hrun

theorem note (h : T.OfDefinitions ds) :
    T.Walks (Walk.note fun _ => ds : Walk Definitions Fault Unit) := by
  intro t ds₀ r t' ds' ht _ hrun
  cases hrun
  refine ⟨ht, h, fun x hx => ?_⟩
  cases hx

theorem edit {e : Edit Fault α} (h : T.KeepsOr T.OfFault e) : T.Walks (Walk.edit e) := by
  intro t ds r t' ds' ht hds hrun
  obtain ⟨hkept, hbad⟩ := h t ht
  rw [run_edit] at hrun
  cases hrun
  exact ⟨hkept, hds, hbad⟩

theorem endless : T.Walks (Walk.endless : Walk Definitions Fault α) := by
  intro t ds r t' ds' _ _ hrun
  cases hrun

end Walks

/-- Taking a definition in keeps the trait. -/
theorem walks_define (command : NodeId) : T.Walks (Definitions.define command) := by
  rw [Definitions.define]
  refine Walks.tree_bind fun t ht => ?_
  have hplace := ht.place command
  dsimp only
  split
  · exact Walks.throw (ofFault_of_label rfl hplace)
  · rename_i cell _
    obtain ⟨hbad, hgood⟩ := ht.read command cell
    split
    · rename_i e he
      exact Walks.throw (hbad e he)
    · rename_i d count hread
      refine Walks.notes_bind fun ds hds => ?_
      split
      · rename_i e he
        exact Walks.throw (insert_error hplace he)
      · rename_i ds' hinsert
        refine (Walks.note (hds.insert_ok (hgood _ hread) hinsert)).bind fun _ => ?_
        exact Walks.edit ((keepsOr_deleteElements cell count).reportedAt hplace)

/-- A visit keeps the trait. -/
theorem walks_visitor (id : NodeId) : T.Walks (Definitions.visitor id) := by
  rw [Definitions.visitor]
  refine Walks.tree_bind fun t ht => ?_
  split
  · split
    · exact (walks_define id).bind fun _ => Walks.pure _
    · refine Walks.notes_bind fun ds hds => ?_
      split
      · rename_i d hd
        exact (Walks.edit (keepsOr_expand (hds.find? hd) id)).bind fun _ => Walks.pure _
      · exact Walks.pure _
  · exact Walks.pure _

/-- What is done one after the other keeps a trait if each of it does. -/
theorem relates_walks : Walk.Relates fun {α : Type} (w _ : Walk Definitions Fault α) => T.Walks w where
  pure := Walks.pure
  bind := Walks.bind
  tree := Walks.tree
  endless _ := Walks.endless

/-- Expansion keeps the trait of the formula and of the definitions. -/
theorem walks_expandAll (steps : Nat) : T.Walks (Definitions.expandAll steps) :=
  Walks.tree.bind fun t => (relates_walks.steps walks_visitor (Nat.le_refl steps)).1 t.root

end

/-! ## Margins -/

section

open Formulary.Tree (trimStart trimEnd padStart padEnd setMargins alloc)

theorem keepsOr_trimStart (root : NodeId) (limit : Nat) :
    T.KeepsOr (fun _ => True) (trimStart root limit) := by
  induction limit with
  | zero => exact KeepsOr.pure _
  | succ limit ih =>
    rw [trimStart]
    refine KeepsOr.get_bind fun t ht => ?_
    split
    · exact KeepsOr.pure _
    · dsimp only
      split
      · split
        · exact (keepsOr_delete root).discard.bind fun _ => ih
        · exact KeepsOr.pure _
      · rename_i text hnode
        split
        · split
          · have htext := T.text_trimLeft (ht.literal hnode)
            exact KeepsOr.of_modify fun t' ht' => ht'.setText _ htext
          · refine (keepsOr_delete root).discard.bind fun _ => ?_
            split
            · exact ih
            · exact KeepsOr.pure _
        · exact KeepsOr.pure _
      · exact KeepsOr.pure _

theorem keepsOr_trimEnd (cells : List (NodeId × NodeId)) :
    T.KeepsOr (fun _ => True) (trimEnd cells) := by
  induction cells with
  | nil => exact KeepsOr.pure _
  | cons cell before ih =>
    obtain ⟨cell, head⟩ := cell
    rw [trimEnd]
    refine KeepsOr.get_bind fun t ht => ?_
    split
    · exact ih
    · rename_i text hnode
      split
      · dsimp only
        split
        · have htext := T.text_trimRight (ht.literal hnode)
          exact KeepsOr.of_modify fun t' ht' => ht'.setText _ htext
        · exact (keepsOr_delete cell).discard.bind fun _ => ih
      · exact KeepsOr.pure _
    · exact KeepsOr.pure _

theorem keeps_alloc_lineBreak {edge : Span} (hedge : T.place edge) :
    T.Keeps (alloc (.literal "\n") edge) := by
  have hnode : T.OfNode (.literal "\n") := T.text_lineBreak
  exact keeps_alloc hnode hedge

/-- The literal at an end of a chain. -/
theorem OfTree.literal_of_map (h : T.OfTree t) {first : Option NodeId} {head : NodeId}
    {text : String}
    (hfirst : (first.map fun head => (head, t.node head)) = some (head, .literal text)) :
    T.text text := by
  obtain ⟨_, -, heq⟩ := Option.map_eq_some_iff.mp hfirst
  obtain ⟨rfl, hnode⟩ := Prod.mk.inj heq
  exact h.literal hnode

theorem keepsOr_padStart (root : NodeId) : T.KeepsOr (fun _ => True) (padStart root) := by
  rw [padStart]
  refine KeepsOr.get_bind fun t ht => ?_
  have hbreak := keeps_alloc_lineBreak (T.place_start (ht.place root))
  dsimp only
  split
  · rename_i head text hfirst
    have htext := T.text_lineBreak_append (ht.literal_of_map hfirst)
    exact KeepsOr.of_modify fun t' ht' => ht'.setText _ htext
  · exact (KeepsOr.lift hbreak).bind fun _ => keepsOr_replace _ _
  · exact (KeepsOr.lift hbreak).bind fun _ => (keepsOr_insertBefore _ _).discard

theorem keepsOr_padEnd (root : NodeId) : T.KeepsOr (fun _ => True) (padEnd root) := by
  rw [padEnd]
  refine KeepsOr.get_bind fun t ht => ?_
  have hbreak := keeps_alloc_lineBreak (T.place_stop (ht.place root))
  dsimp only
  split
  · rename_i head text hlast
    have htext := T.text_append_lineBreak (ht.literal_of_map hlast)
    exact KeepsOr.of_modify fun t' ht' => ht'.setText _ htext
  · exact (KeepsOr.lift hbreak).bind fun _ => keepsOr_replace _ _
  · exact (KeepsOr.lift hbreak).bind fun _ => (keepsOr_insertAfter _ _).discard

/-- Trimming and padding keep the trait. -/
theorem keepsOr_setMargins (pad : Bool) : T.KeepsOr (fun _ => True) (setMargins pad) := by
  rw [setMargins]
  refine KeepsOr.get_bind fun t _ => KeepsOr.get_bind fun t₁ _ => ?_
  refine (keepsOr_trimStart _ _).bind fun _ => KeepsOr.get_bind fun t₂ _ => ?_
  refine (keepsOr_trimEnd _).bind fun _ => KeepsOr.get_bind fun t₃ _ => ?_
  split
  · exact (keepsOr_padStart _).bind fun _ => keepsOr_padEnd _
  · exact KeepsOr.pure _

end

/-! ## Fixing -/

theorem OfTree.rename_block (h : T.OfTree t) {id : NodeId} {old : String} {parameters : List NodeId}
    {body : NodeId} (hnode : t.node id = .block old parameters body) {name : String}
    (hname : T.block name) : T.OfTree (t.rename id name) := by
  rw [Tree.rename, hnode]
  exact h.setNode id hname

/-- Renaming keeps the trait if the new names have it. -/
theorem OfTree.renames (h : T.OfTree t) {r : Renames} (hr : ∀ x ∈ r.toList, T.block x.2) :
    T.OfTree (r.apply t) := by
  have hstep : ∀ (t : Tree) (id : NodeId), T.OfTree t → T.OfTree (r.renameNode t id) := by
    intro t id ht
    rw [Renames.renameNode]
    split
    · rename_i old _ _ hnode
      split
      · rename_i new hnew
        rw [Renames.find?, List.lookup_eq_some_iff] at hnew
        obtain ⟨before, after, hlist, -⟩ := hnew
        have hmem : (old, new) ∈ r.toList := by simp [hlist]
        exact ht.rename_block hnode (hr _ hmem)
      · exact ht
    · exact ht
  rw [Renames.apply]
  generalize t.visited t.root = ids
  induction ids generalizing t with
  | nil => exact h
  | cons id ids ih => exact ih (hstep t id h)

/-- The built-in passes keep the trait if environments get names with it. -/
theorem walks_of_mem_passesOf {s : FixSettings} (hs : ∀ x ∈ s.renames.toList, T.block x.2)
    {p : Pass} (hp : p ∈ Fixer.passesOf steps s) : T.Walks p.run := by
  rcases mem_passesOf.mp hp with ⟨-, rfl⟩ | ⟨-, rfl⟩ | ⟨-, rfl⟩
  · exact walks_expandAll steps
  · intro t ds r t' ds' ht hds hrun
    cases hrun
    refine ⟨ht.renames hs, hds, fun x hx => ?_⟩
    cases hx
  · exact Walks.tree_bind fun t ht =>
      Walks.edit ((keepsOr_setMargins s.padBlocks).reportedAt (ht.place t.root))

/-- Passes keep the trait together if each one does. -/
theorem walks_runPasses {passes : List Pass} (h : ∀ p ∈ passes, T.Walks p.run) :
    T.Walks (Fixer.runPasses passes) := by
  induction passes with
  | nil => exact Walks.pure _
  | cons p passes ih =>
    rw [List.forall_mem_cons] at h
    rw [runPasses_cons]
    exact h.1.bind fun _ => ih h.2

/-- Fixing a formula gives the text of a formula with the trait, or fails at a place with the
trait. -/
theorem inherits_fixExpression {c : Config} {ds ds' : Definitions} {r : Except Fault String}
    (hc : ∀ x ∈ c.fixes.renames.toList, T.block x.2) (hsource : T.Admits source)
    (hds : T.OfDefinitions ds)
    (hrun : ((Fixer.ofConfig steps c).fixExpression source).run.run ds = some (r, ds')) :
    (∀ x, r = .error x → T.OfFault x) ∧ ∀ text, r = .ok text → ∃ t, T.OfTree t ∧ text = t.text := by
  obtain ⟨hbad, hgood⟩ := hsource.parseMath
  rw [Fixer.fixExpression] at hrun
  cases hparse : Tree.parseMath source with
  | error e =>
    rw [hparse] at hrun
    cases hrun
    exact result_of_error (hbad e hparse)
  | ok t =>
    rw [hparse] at hrun
    obtain ⟨⟨r', t', ds₁⟩, hpasses, hout⟩ := Option.bind_eq_some_iff.mp hrun
    obtain ⟨ht', -, hfault⟩ := walks_runPasses (fun p hp => walks_of_mem_passesOf hc hp)
      t ds r' t' ds₁ (hgood t hparse) hds hpasses
    cases hout
    cases r' with
    | ok => exact result_of_ok ⟨t', ht', rfl⟩
    | error x => exact result_of_error (hfault x rfl)

/-- The definitions that are known after fixing a formula have the trait, whether or not that failed
and whatever names environments get: expansion comes first, and only expansion teaches macros. -/
theorem ofDefinitions_fixExpression {c : Config} {ds ds' : Definitions} {r : Except Fault String}
    (hsource : T.Admits source) (hds : T.OfDefinitions ds)
    (hrun : ((Fixer.ofConfig steps c).fixExpression source).run.run ds = some (r, ds')) :
    T.OfDefinitions ds' := by
  rw [Fixer.fixExpression] at hrun
  cases hparse : Tree.parseMath source with
  | error e =>
    rw [hparse] at hrun
    cases hrun
    exact hds
  | ok t =>
    rw [hparse] at hrun
    obtain ⟨⟨r', t', ds₁⟩, hpasses, hout⟩ := Option.bind_eq_some_iff.mp hrun
    cases hout
    have ht := hsource.parseMath.2 t hparse
    cases hs : c.fixes.expandMacros with
    | false =>
      -- No pass teaches anything.
      rw [maintains_runPasses (fun p => untaught_of_mem_passesOf ds hs) _ _ _ _ _ rfl hpasses]
      exact hds
    | true =>
      rw [Fixer.ofConfig, passesOf_expandMacros hs, runPasses_cons] at hpasses
      rcases run_bind_eq_some hpasses with ⟨⟨⟩, ⟨t₁, ds₂⟩, hfirst, hrest⟩ |
        ⟨x, ⟨t₁, ds₂⟩, hfirst, hout⟩
      · -- The passes after expansion teach nothing, so what they do to blocks does not matter.
        rw [maintains_runPasses (fun p => untaught_of_mem_passesOf ds₂ rfl) _ _ _ _ _ rfl hrest]
        exact (walks_expandAll steps _ _ _ _ _ ht hds hfirst).2.1
      · cases hout
        exact (walks_expandAll steps _ _ _ _ _ ht hds hfirst).2.1

end Trait

end Formulary
