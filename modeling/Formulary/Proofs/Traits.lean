import Formulary.Fixer
import Formulary.Proofs.Footprint

/-!
# Traits of formulas

A trait is said of the nodes of a formula one by one, of whatever a node holds besides links: the
text of a literal, the name of a command or a block, and the stretch of text that the node stands
for. Programs that change a formula move nodes around, and now and then make a text or a stretch out
of others. A trait that holds of those as well holds of everything that comes of a formula, wherever
its links lead, and every fault is reported at a stretch of which it holds.

So nothing here speaks of how nodes hang together. There is one lemma for each program, in the order
in which the programs are built on each other.
-/

namespace Formulary

open BlockMarker (isName)

/-- A trait of formulas: what their texts, names and places are like. -/
structure Trait where
  text : String → Prop
  command : String → Prop
  block : String → Prop
  place : Span → Prop
  /-- The text between the placeholders of a literal. -/
  text_piece : ∀ {s : String} {run : List Char}, text s → .text run ∈ Piece.split s.toList →
    text (String.ofList run)
  /-- What is left of a literal without the digit of a placeholder. -/
  text_afterDigit : ∀ {s : String} {c : Char} {rest : List Char} {index : Nat}, text s →
    s.toList = c :: rest → argumentDigit? c = some index → text (String.ofList rest)
  text_trimLeft : ∀ {s : String}, text s → text (Text.trimLeft s)
  text_trimRight : ∀ {s : String}, text s → text (Text.trimRight s)
  text_lineBreak : text "\n"
  text_lineBreak_append : ∀ {s : String}, text s → text ("\n" ++ s)
  text_append_lineBreak : ∀ {s : String}, text s → text (s ++ "\n")
  block_of_isName : ∀ {name : String}, isName name = true → block name
  place_zero : place (.point 0)
  place_union : ∀ {p q : Span}, place p → place q → place (p.union q)
  place_start : ∀ {p : Span}, place p → place (.point p.start)
  place_stop : ∀ {p : Span}, place p → place (.point p.stop)
  place_take : ∀ {p : Span}, place p → place (p.take 0)

namespace Trait

variable (T : Trait)

/-- What a node holds has the trait. -/
def OfNode : Node → Prop
  | .literal text => T.text text
  | .command name _ => T.command name
  | .block name _ _ => T.block name
  | _ => True

/-- A node and the place it stands for have the trait. -/
def OfSlot (s : Slot) : Prop := T.OfNode s.node ∧ T.place s.span

/-- Everything in the store has the trait, whether or not the formula reaches it. -/
def OfTree (t : Tree) : Prop := ∀ id, T.OfSlot (t.slot id)

/-- The body of a definition has the trait, apart from the places that it comes from. -/
def OfBody (d : Definition) : Prop := ∀ id, T.OfNode (d.body.node id)

/-- The bodies of all definitions have the trait. -/
def OfDefinitions (ds : Definitions) : Prop := ∀ d ∈ ds.toList, T.OfBody d

/-- A fault is reported at places with the trait. -/
def OfFault (x : Fault) : Prop := ∀ label ∈ x.diagnostic.labels, T.place label.span

variable {T} {t : Tree}

theorem OfTree.node (h : T.OfTree t) (id : NodeId) : T.OfNode (t.node id) := (h id).1

theorem OfTree.place (h : T.OfTree t) (id : NodeId) : T.place (t.span id) := (h id).2

theorem OfTree.literal (h : T.OfTree t) {id : NodeId} {text : String}
    (hnode : t.node id = .literal text) : T.text text := by
  have hof := h.node id
  rwa [hnode] at hof

/-! ## Changes in the store -/

/-- A change of one slot keeps the trait if it does so for a slot. -/
theorem OfTree.modifySlot (h : T.OfTree t) (id : NodeId) {f : Slot → Slot}
    (hf : ∀ s, T.OfSlot s → T.OfSlot (f s)) : T.OfTree (t.modifySlot id f) := by
  intro j
  have hj := h j
  rw [Tree.slot, Array.getD_eq_getD_getElem?] at hj ⊢
  rw [Tree.modifySlot, Array.getElem?_modify]
  split
  · cases hget : t.slots[j]? with
    | none => rwa [hget] at hj
    | some s =>
      rw [hget] at hj
      exact hf s hj
  · exact hj

theorem OfTree.setNode (h : T.OfTree t) (id : NodeId) {node : Node} (hnode : T.OfNode node) :
    T.OfTree (t.setNode id node) :=
  h.modifySlot id fun _ hs => ⟨hnode, hs.2⟩

theorem OfTree.setParent (h : T.OfTree t) (id : NodeId) (parent : Option NodeId) :
    T.OfTree (t.setParent id parent) :=
  h.modifySlot id fun _ hs => hs

theorem OfTree.adopt (h : T.OfTree t) (parent : NodeId) (children : List NodeId) :
    T.OfTree (t.adopt parent children) := by
  induction children generalizing t with
  | nil => exact h
  | cons child children ih => exact ih (h.setParent child (some parent))

theorem OfTree.setCell (h : T.OfTree t) (cell head : NodeId) (tail : Option NodeId) :
    T.OfTree (t.setCell cell head tail) := by
  have hcell : T.OfNode (.sequence head tail) := trivial
  exact (h.setNode cell hcell).adopt cell _

theorem OfTree.setTail (h : T.OfTree t) (cell : NodeId) (tail : Option NodeId) :
    T.OfTree (t.setTail cell tail) := by
  rw [Tree.setTail]
  apply OfTree.adopt
  split
  · exact h.setNode cell trivial
  · exact h

theorem OfTree.setText (h : T.OfTree t) (id : NodeId) {text : String} (htext : T.text text) :
    T.OfTree (t.setText id text) := by
  rw [Tree.setText]
  split
  · exact h.setNode id htext
  · exact h

theorem OfTree.redirect (h : T.OfTree t) (parent old new : NodeId) :
    T.OfTree (t.redirect parent old new) := by
  have hparent := h.node parent
  rw [Tree.redirect]
  cases hnode : t.node parent with
  | literal | empty => exact h
  | sequence | group | script => exact h.setNode parent trivial
  | command | block =>
    rw [hnode] at hparent
    exact h.setNode parent hparent

/-- A new node with the trait keeps it. -/
theorem OfTree.grown (h : T.OfTree t) {node : Node} {span : Span} (hnode : T.OfNode node)
    (hspan : T.place span) : T.OfTree (t.grown node span) := by
  have hpush : T.OfTree { t with slots := t.slots.push ⟨node, none, span⟩ } := by
    intro j
    have hj := h j
    rw [Tree.slot, Array.getD_eq_getD_getElem?] at hj ⊢
    rw [Array.getElem?_push]
    split
    · exact ⟨hnode, hspan⟩
    · exact hj
  exact hpush.adopt _ _

/-- The empty store. -/
theorem ofTree_empty (root : NodeId) : T.OfTree ⟨#[], root⟩ := fun _ => ⟨trivial, T.place_zero⟩

theorem OfTree.setRoot (h : T.OfTree t) (root : NodeId) : T.OfTree { t with root := root } := h

/-! ## Results -/

section

variable {α ε : Type} {bad : ε → Prop} {good : α → Prop}

theorem result_of_error {e : ε} (h : bad e) :
    (∀ x, (.error e : Except ε α) = .error x → bad x) ∧
      ∀ a, (.error e : Except ε α) = .ok a → good a := by
  refine ⟨fun x hx => ?_, fun a ha => ?_⟩
  · cases hx
    exact h
  · cases ha

theorem result_of_ok {a : α} (h : good a) :
    (∀ x, (.ok a : Except ε α) = .error x → bad x) ∧
      ∀ b, (.ok a : Except ε α) = .ok b → good b := by
  refine ⟨fun x hx => ?_, fun b hb => ?_⟩
  · cases hx
  · cases hb
    exact h

end

/-! ## Programs -/

section

variable {α β ε : Type}

variable (T) in
/-- A program that keeps the trait. -/
def Keeps (x : StateM Tree α) : Prop := ∀ t, T.OfTree t → T.OfTree (x.run t).2

variable (T) in
/-- An edit that keeps the trait, whether or not it fails, and fails only as said. -/
def KeepsOr (bad : ε → Prop) (e : Edit ε α) : Prop :=
  ∀ t, T.OfTree t → T.OfTree (e.run.run t).2 ∧ ∀ x, (e.run.run t).1 = .error x → bad x

namespace Keeps

variable {x : StateM Tree α} {f : α → StateM Tree β}

theorem pure (a : α) : T.Keeps (Pure.pure a) := fun _ h => h

/-- One program after another keeps the trait. -/
theorem bind (h : T.Keeps x) (hnext : ∀ a, T.Keeps (f a)) : T.Keeps (x >>= f) :=
  fun t ht => hnext _ _ (h t ht)

/-- What is read off a formula with the trait may be used later on. -/
theorem get_bind {f : Tree → StateM Tree α} (h : ∀ t, T.OfTree t → T.Keeps (f t)) :
    T.Keeps (get >>= f) :=
  fun t ht => h t ht t ht

theorem of_modify {g : Tree → Tree} (h : ∀ t, T.OfTree t → T.OfTree (g t)) : T.Keeps (modify g) := h

theorem mapM {f : α → StateM Tree β} (h : ∀ a, T.Keeps (f a)) (as : List α) :
    T.Keeps (as.mapM f) := by
  induction as with
  | nil => exact pure []
  | cons a as ih =>
    rw [List.mapM_cons]
    exact (h a).bind fun b => ih.bind fun bs => pure _

end Keeps

namespace KeepsOr

variable {bad : ε → Prop} {e : Edit ε α} {f : α → Edit ε β}

theorem pure (a : α) : T.KeepsOr bad (Pure.pure a) := by
  intro t ht
  refine ⟨ht, fun x hx => ?_⟩
  cases hx

theorem throw {x : ε} (hx : bad x) : T.KeepsOr bad (MonadExcept.throw x : Edit ε α) := by
  intro t ht
  refine ⟨ht, fun y hy => ?_⟩
  cases hy
  exact hx

theorem bind (h : T.KeepsOr bad e) (hnext : ∀ a, T.KeepsOr bad (f a)) :
    T.KeepsOr bad (e >>= f) := by
  intro t ht
  obtain ⟨hkept, hbad⟩ := h t ht
  rcases hrun : e.run.run t with ⟨x | a, t'⟩
  · rw [hrun] at hkept hbad
    rw [Edit.run_bind_of_error hrun]
    refine ⟨hkept, fun y hy => ?_⟩
    cases hy
    exact hbad x rfl
  · rw [hrun] at hkept
    rw [Edit.run_bind_of_ok hrun]
    exact hnext a t' hkept

theorem get_bind {f : Tree → Edit ε α} (h : ∀ t, T.OfTree t → T.KeepsOr bad (f t)) :
    T.KeepsOr bad (get >>= f) :=
  fun t ht => h t ht t ht

theorem lift {x : StateM Tree α} (h : T.Keeps x) : T.KeepsOr bad (liftM x : Edit ε α) := by
  intro t ht
  have hrun : (liftM x : Edit ε α).run.run t = (.ok (x.run t).1, (x.run t).2) := Edit.run_lift rfl
  rw [hrun]
  refine ⟨h t ht, fun y hy => ?_⟩
  cases hy

theorem of_modify {g : Tree → Tree} (h : ∀ t, T.OfTree t → T.OfTree (g t)) :
    T.KeepsOr bad (modify g : Edit ε Unit) := by
  intro t ht
  refine ⟨h t ht, fun y hy => ?_⟩
  cases hy

theorem discard (h : T.KeepsOr bad e) : T.KeepsOr bad (Functor.discard e) := by
  intro t ht
  obtain ⟨hkept, hbad⟩ := h t ht
  have hrun :
      (Functor.discard e).run.run t = ((e.run.run t).1.map fun _ => (), (e.run.run t).2) := by
    change (Function.const α () <$> e).run.run t = _
    rw [ExceptT.run_map, StateT.run_map]
    rfl
  rw [hrun]
  refine ⟨hkept, fun y hy => hbad y ?_⟩
  cases hresult : (e.run.run t).1 with
  | ok a =>
    rw [hresult] at hy
    cases hy
  | error x =>
    rw [hresult] at hy
    cases hy
    rfl

/-- A reading that may fail. -/
theorem ofExcept {r : Except ε α} (h : ∀ x, r = .error x → bad x) :
    T.KeepsOr bad (liftM r : Edit ε α) := by
  intro t ht
  cases r with
  | ok a => exact pure a t ht
  | error x => exact throw (h x rfl) t ht

theorem forM {f : α → Edit ε PUnit} (h : ∀ a, T.KeepsOr bad (f a)) (as : List α) :
    T.KeepsOr bad (as.forM f) := by
  induction as with
  | nil => exact pure _
  | cons a as ih => exact (h a).bind fun _ => ih

/-- Misuse of surgery is reported at a place with the trait. -/
theorem reportedAt {e : Edit SurgeryError α} {bad : SurgeryError → Prop} {place : Span}
    (h : T.KeepsOr bad e) (hplace : T.place place) : T.KeepsOr T.OfFault (e.reportedAt place) := by
  intro t ht
  obtain ⟨hkept, -⟩ := h t ht
  have hrun : (e.reportedAt place).run.run t =
      ((e.run.run t).1.mapError (Fault.surgery · place), (e.run.run t).2) := by
    change (Except.mapError _ <$> e.run : StateM Tree _).run t = _
    rw [StateT.run_map]
    rfl
  rw [hrun]
  refine ⟨hkept, fun x hx => ?_⟩
  cases hresult : (e.run.run t).1 with
  | ok a =>
    rw [hresult] at hx
    cases hx
  | error y =>
    rw [hresult] at hx
    cases hx
    rw [OfFault, Fault.diagnostic, SurgeryError.diagnostic, Diagnostic.error,
      List.forall_mem_singleton]
    exact hplace

end KeepsOr

end

/-! ## Growing and copying -/

section

open Formulary.Tree (alloc chain copyUpTo copy build extract graft deepCopy)

theorem keeps_alloc {node : Node} {span : Span} (hnode : T.OfNode node) (hspan : T.place span) :
    T.Keeps (alloc node span) :=
  fun _ ht => ht.grown hnode hspan

/-- Linking elements to a chain keeps the trait. -/
theorem keeps_chain {fallback : Span} (hfallback : T.place fallback) (heads : List NodeId) :
    T.Keeps (chain fallback heads) := by
  induction heads with
  | nil =>
    have hempty : T.OfNode .empty := trivial
    exact (keeps_alloc hempty hfallback).bind fun _ => keeps_alloc trivial hfallback
  | cons head heads ih =>
    cases heads with
    | nil =>
      rw [chain]
      exact Keeps.get_bind fun t ht => keeps_alloc trivial (ht.place head)
    | cons next heads =>
      rw [chain]
      refine ih.bind fun tail => Keeps.get_bind fun t ht => ?_
      exact keeps_alloc trivial (T.place_union (ht.place head) (ht.place tail))
      exact List.cons_ne_nil _ _

/-- A copy has the trait if its source has, and if it stands for places with the trait. -/
theorem keeps_copyUpTo (source : Tree) (place : Option Span)
    (hnode : ∀ id, T.OfNode (source.node id)) (hplace : ∀ id, T.place (place.getD (source.span id)))
    (depth : Nat) (id : NodeId) : T.Keeps (copyUpTo source place depth id) := by
  induction depth generalizing id with
  | zero => exact keeps_alloc trivial (hplace id)
  | succ depth ih =>
    have hover : ∀ ids, T.OfNode ((source.node id).atop ids) := by
      have hid := hnode id
      cases hsource : source.node id <;> rw [hsource] at hid <;> exact fun _ => hid
    rw [Tree.copyUpTo_succ]
    exact (Keeps.mapM ih _).bind fun _ => keeps_alloc (hover _) (hplace id)

theorem Keeps.build {program : StateM Tree NodeId} (h : T.Keeps program) :
    T.OfTree (build program) :=
  OfTree.setParent (OfTree.setRoot (h _ (ofTree_empty 0)) _) _ none

theorem OfTree.extract (h : T.OfTree t) (id : NodeId) : T.OfTree (t.extract id) :=
  Keeps.build (keeps_copyUpTo t none h.node h.place _ _)

theorem keeps_graft {source : Tree} {place : Span} (hnode : ∀ id, T.OfNode (source.node id))
    (hplace : T.place place) : T.Keeps (graft source (some place)) :=
  keeps_copyUpTo source (some place) hnode (fun _ => hplace) _ _

theorem keeps_deepCopy (id : NodeId) : T.Keeps (deepCopy id) := by
  refine Keeps.get_bind fun t ht => ?_
  exact keeps_copyUpTo (t.extract id) none (ht.extract id).node (ht.extract id).place _ _

end

/-! ## Surgery -/

section

open Formulary.Tree (delete replaceCell replaceElement replace insertAfter insertBefore)

theorem keepsOr_setParent (id : NodeId) (parent : Option NodeId) :
    T.KeepsOr (fun _ => True) (modify (·.setParent id parent) : Edit SurgeryError Unit) :=
  KeepsOr.of_modify fun _ ht => ht.setParent id parent

/-- Surgery keeps the trait if all that it can do to the store does. -/
theorem KeepsOr.of_run {α : Type} {e : Edit SurgeryError α}
    (h : ∀ {t t' : Tree} {r : Except SurgeryError α}, e.run.run t = (r, t') → T.OfTree t →
      T.OfTree t') : T.KeepsOr (fun _ => True) e :=
  fun _ ht => ⟨h rfl ht, fun _ _ => trivial⟩

/-- Taking an element out keeps the trait. -/
theorem keepsOr_delete (id : NodeId) : T.KeepsOr (fun _ => True) (delete id) := by
  refine KeepsOr.of_run fun hrun ht => ?_
  cases Tree.deletion_of_run hrun with
  | misused => exact ht
  | last hcell hnode =>
    have hempty : T.OfNode .empty := trivial
    exact ((ht.setParent _ _).grown hempty (T.place_take (ht.place _))).setCell _ _ _
  | broken hcell hnode hnext => exact ht.setParent _ _
  | pulled hcell hnode hnext => exact ((ht.setParent _ _).setCell _ _ _).setParent _ _

theorem keepsOr_replaceCell (cell chain : NodeId) :
    T.KeepsOr (fun _ => True) (replaceCell cell chain) := by
  rw [replaceCell]
  refine KeepsOr.get_bind fun t ht => ?_
  have hset : ∀ head tail, T.KeepsOr (fun _ => True)
      (modify (·.setCell cell head tail) : Edit SurgeryError Unit) := fun head tail =>
    KeepsOr.of_modify fun t ht => ht.setCell _ _ _
  have hlink : ∀ last next, T.KeepsOr (fun _ => True)
      (modify (·.setTail last next) : Edit SurgeryError Unit) := fun last next =>
    KeepsOr.of_modify fun t ht => ht.setTail _ _
  rcases t.head chain with _ | head
  · rcases t.head cell with _ | old
    · exact KeepsOr.throw trivial
    · exact (keepsOr_setParent old none).bind fun _ => KeepsOr.throw trivial
  · rcases t.head cell with _ | old <;> rcases t.tail cell with _ | next
    · exact (hset head _).bind fun _ => KeepsOr.pure _
    · exact (hset head _).bind fun _ => hlink _ _
    · exact (keepsOr_setParent old none).bind fun _ => (hset head _).bind fun _ => KeepsOr.pure _
    · exact (keepsOr_setParent old none).bind fun _ => (hset head _).bind fun _ => hlink _ _

theorem keepsOr_replaceElement (old new : NodeId) :
    T.KeepsOr (fun _ => True) (replaceElement old new) := by
  refine KeepsOr.of_run fun hrun ht => ?_
  rcases Tree.replaceElement_cases hrun with ⟨-, rfl⟩ | ⟨parent, -, rfl⟩
  · exact ht
  · exact ((ht.redirect _ _ _).setParent _ _).setParent _ _

/-- Replacing keeps the trait, of an element or of a cell. -/
theorem keepsOr_replace (old new : NodeId) : T.KeepsOr (fun _ => True) (replace old new) := by
  rw [replace]
  refine KeepsOr.get_bind fun t ht => ?_
  split
  · exact KeepsOr.throw trivial
  · split
    · exact keepsOr_replaceCell old new
    · exact keepsOr_replaceElement old new
    · exact KeepsOr.throw trivial

theorem keepsOr_insertAfter (cell node : NodeId) :
    T.KeepsOr (fun _ => True) (insertAfter cell node) := by
  refine KeepsOr.of_run fun hrun ht => ?_
  rcases Tree.insertAfter_cases hrun with ⟨-, rfl⟩ | ⟨-, -, -, rfl⟩
  · exact ht
  · have hcell : ∀ tail, T.OfNode (.sequence node tail) := fun _ => trivial
    exact (ht.grown (hcell _) (ht.place node)).setTail _ _

theorem keepsOr_insertBefore (cell node : NodeId) :
    T.KeepsOr (fun _ => True) (insertBefore cell node) := by
  refine KeepsOr.of_run fun hrun ht => ?_
  rcases Tree.insertBefore_cases hrun with ⟨-, rfl⟩ | ⟨head, tail, -, -, -, rfl⟩
  · exact ht
  · have hcell : T.OfNode (.sequence head tail) := trivial
    exact (ht.grown hcell (ht.place cell)).setCell _ _ _

end

end Trait

end Formulary
