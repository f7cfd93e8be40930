import Formulary.Block
import Formulary.Macro.Expansion

/-!
# Walks, step by step

A walk is put together from what its visitor does, from looks at the tree, and from one thing done
after the other. So whatever these keep is kept by the walk, however it goes: `Walk.Relates.steps`.
It is said of two walks with one visitor, of which the second may take more steps. With a property
of one walk alone in the place of a relation, it is the induction over all steps of a walk.

A walk is given a number of steps only because it may go on forever. If it ends, it ends in the same
way with more of them (`Walk.through_mono`).
-/

namespace Formulary

/-! ## Programs that fail or do not end -/

theorem exists_of_bind_eq_ok {ε α β : Type} {x : Except ε α} {f : α → Except ε β} {b : β}
    (h : x >>= f = .ok b) : ∃ a, x = .ok a ∧ f a = .ok b := by
  cases x with
  | error e => cases h
  | ok a => exact ⟨a, rfl, h⟩

section

variable {ε σ α β : Type} {x : ExceptT ε (StateT σ Option) α}
  {f : α → ExceptT ε (StateT σ Option) β} {s s' : σ}

theorem run_bind_of_ok {a : α} (h : x.run.run s = some (.ok a, s')) :
    (x >>= f).run.run s = (f a).run.run s' := by
  rw [ExceptT.run_bind, StateT.run_bind, h]
  rfl

theorem run_bind_of_error {e : ε} (h : x.run.run s = some (.error e, s')) :
    (x >>= f).run.run s = some (.error e, s') := by
  rw [ExceptT.run_bind, StateT.run_bind, h]
  rfl

/-- What does not end does not go on. -/
theorem run_bind_of_none (h : x.run.run s = none) : (x >>= f).run.run s = none := by
  rw [ExceptT.run_bind, StateT.run_bind, h]
  rfl

theorem run_bind_congr {y : ExceptT ε (StateT σ Option) α} (h : x.run.run s = y.run.run s) :
    (x >>= f).run.run s = (y >>= f).run.run s := by
  rw [ExceptT.run_bind, ExceptT.run_bind, StateT.run_bind, StateT.run_bind, h]

/-- One thing after the other ends alike if the first does and the second does from there on. -/
theorem run_bind_agree {y : ExceptT ε (StateT σ Option) α} {g : α → ExceptT ε (StateT σ Option) β}
    (h : x.run.run s = y.run.run s)
    (hnext : ∀ a s', y.run.run s = some (.ok a, s') → (f a).run.run s' = (g a).run.run s') :
    (x >>= f).run.run s = (y >>= g).run.run s := by
  rw [run_bind_congr h]
  rcases hy : y.run.run s with _ | ⟨e | a, s'⟩
  · rw [run_bind_of_none hy, run_bind_of_none hy]
  · rw [run_bind_of_error hy, run_bind_of_error hy]
  · rw [run_bind_of_ok hy, run_bind_of_ok hy, hnext a s' hy]

/-- What is done one after the other ends if the first ends and then the second does. -/
theorem run_bind_eq_some {out : Except ε β × σ} (h : (x >>= f).run.run s = some out) :
    (∃ a s₁, x.run.run s = some (.ok a, s₁) ∧ (f a).run.run s₁ = some out) ∨
      ∃ e s₁, x.run.run s = some (.error e, s₁) ∧ out = (.error e, s₁) := by
  rcases hx : x.run.run s with _ | ⟨e | a, s₁⟩
  · rw [ExceptT.run_bind, StateT.run_bind, hx] at h
    cases h
  · rw [run_bind_of_error hx] at h
    exact Or.inr ⟨e, s₁, rfl, (Option.some.inj h).symm⟩
  · rw [run_bind_of_ok hx] at h
    exact Or.inl ⟨a, s₁, rfl, h⟩

/-- Whenever the first program ends, the second does so in the same way. -/
def EndsAs (x y : ExceptT ε (StateT σ Option) α) : Prop :=
  ∀ s out, x.run.run s = some out → y.run.run s = some out

theorem EndsAs.refl (x : ExceptT ε (StateT σ Option) α) : EndsAs x x := fun _ _ hrun => hrun

/-- Programs end alike if their parts do. -/
theorem EndsAs.bind {y : ExceptT ε (StateT σ Option) α} {g : α → ExceptT ε (StateT σ Option) β}
    (hx : EndsAs x y) (hf : ∀ a, EndsAs (f a) (g a)) : EndsAs (x >>= f) (y >>= g) := by
  intro s out hrun
  rcases run_bind_eq_some hrun with ⟨a, s₁, hfirst, hrest⟩ | ⟨e, s₁, hfirst, rfl⟩
  · rw [run_bind_of_ok (hx s _ hfirst)]
    exact hf a s₁ out hrest
  · exact run_bind_of_error (hx s _ hfirst)

end

section

variable {σ ε α : Type} {t : Tree} {s : σ}

theorem run_tree : (Walk.tree : Walk σ ε Tree).run.run (t, s) = some (.ok t, t, s) := rfl

theorem run_notes : (Walk.notes : Walk σ ε σ).run.run (t, s) = some (.ok s, t, s) := rfl

theorem run_note (f : σ → σ) :
    (Walk.note f : Walk σ ε Unit).run.run (t, s) = some (.ok (), t, f s) := rfl

/-- An edit in a walk changes the tree and leaves the notes. -/
theorem run_edit (e : Edit ε α) :
    (Walk.edit e : Walk σ ε α).run.run (t, s) = some ((e.run.run t).1, (e.run.run t).2, s) := rfl

end

/-! ## All steps of a walk -/

namespace Walk

variable {σ ε : Type}

/-- A relation between walks that the ways of putting walks together respect. A walk that does not
end is related to all others. -/
structure Relates (R : {α : Type} → Walk σ ε α → Walk σ ε α → Prop) : Prop where
  pure : ∀ {α : Type} (a : α), R (Pure.pure a) (Pure.pure a)
  bind : ∀ {α β : Type} {w w' : Walk σ ε α} {f f' : α → Walk σ ε β}, R w w' →
    (∀ a, R (f a) (f' a)) → R (w >>= f) (w' >>= f')
  tree : R tree tree
  endless : ∀ {α : Type} (w : Walk σ ε α), R endless w

/-- Walks with one visitor are related if what the visitor does is. -/
theorem Relates.steps {R : {α : Type} → Walk σ ε α → Walk σ ε α → Prop} (h : Relates R)
    {visitor : Visitor σ ε} (hvisitor : ∀ id, R (visitor id) (visitor id)) {n m : Nat}
    (hle : n ≤ m) :
    (∀ id, R (through visitor n id) (through visitor m id)) ∧
      (∀ cell, R (alongChain visitor n cell) (alongChain visitor m cell)) ∧
      (∀ script, R (toOperand visitor n script) (toOperand visitor m script)) ∧
      ∀ id index, R (toParameters visitor n id index) (toParameters visitor m id index) := by
  induction n generalizing m with
  | zero =>
    refine ⟨fun id => ?_, fun cell => ?_, fun script => ?_, fun id index => ?_⟩
    · rw [through]
      exact h.endless _
    · rw [alongChain]
      exact h.endless _
    · rw [toOperand]
      exact h.endless _
    · rw [toParameters]
      exact h.endless _
  | succ n ih =>
    obtain ⟨m, rfl⟩ := Nat.exists_eq_add_of_le' hle
    obtain ⟨hthrough, halong, hoperand, hparameters⟩ := ih (m := m + n) (Nat.le_add_left n m)
    refine ⟨fun id => ?_, fun cell => ?_, fun script => ?_, fun id index => ?_⟩
    · rw [through, ← Nat.add_assoc, through]
      refine h.bind (hvisitor id) fun descent => ?_
      cases descent with
      | past => exact h.pure ()
      | into =>
        refine h.bind h.tree fun t => ?_
        cases t.node id with
        | literal | empty => exact h.pure ()
        | sequence => exact halong id
        | group fence inner => exact hthrough inner
        | script => exact hoperand id
        | command => exact hparameters id 0
        | block =>
          refine h.bind (hparameters id 0) fun _ => h.bind h.tree fun t' => ?_
          cases t'.node id with
          | block name parameters body => exact hthrough body
          | literal | empty | sequence | group | script | command => exact h.pure ()
    · rw [alongChain, ← Nat.add_assoc, alongChain]
      refine h.bind h.tree fun t => ?_
      cases t.head cell with
      | none => exact h.pure ()
      | some head =>
        refine h.bind (hthrough head) fun _ => h.bind h.tree fun t' => ?_
        split
        · exact halong cell
        · cases t'.tail cell with
          | none => exact h.pure ()
          | some next => exact halong next
    · rw [toOperand, ← Nat.add_assoc, toOperand]
      refine h.bind h.tree fun t => ?_
      cases t.operand script with
      | none => exact h.pure ()
      | some operand =>
        refine h.bind (hthrough operand) fun _ => h.bind h.tree fun t' => ?_
        split
        · exact hoperand script
        · exact h.pure ()
    · rw [toParameters, ← Nat.add_assoc, toParameters]
      refine h.bind h.tree fun t => ?_
      cases t.parameter id index with
      | none => exact h.pure ()
      | some parameter => exact h.bind (hthrough parameter) fun _ => hparameters id (index + 1)

/-- What a walk does with a node that its visitor goes into. -/
def below (visitor : Visitor σ ε) (n : Nat) (id : NodeId) : Node → Walk σ ε Unit
  | .literal _ | .empty => return
  | .sequence .. => alongChain visitor n id
  | .group _ inner => through visitor n inner
  | .script .. => toOperand visitor n id
  | .command .. => toParameters visitor n id 0
  | .block .. => do
    toParameters visitor n id 0
    if let .block _ _ body := (← tree).node id then
      through visitor n body

/-- A walk looks at a node first, and then goes into it or past it. -/
theorem through_succ (visitor : Visitor σ ε) (n : Nat) (id : NodeId) :
    through visitor (n + 1) id = (do
      match ← visitor id with
      | .past => return
      | .into => below visitor n id ((← tree).node id)) := by
  rw [through]
  refine bind_congr fun descent => ?_
  cases descent with
  | past => rfl
  | into =>
    refine bind_congr fun t => ?_
    cases t.node id <;> rfl

/-! ## Walks that end well -/

/-- With enough steps the walk ends well, and leads from one state to another. -/
def Leads (walk : Nat → Walk σ ε Unit) (x x' : Tree × σ) : Prop :=
  ∃ enough, ∀ n, enough ≤ n → (walk n).run.run x = some (.ok (), x')

namespace Leads

variable {walk walk' : Nat → Walk σ ε Unit} {x x₁ x' : Tree × σ}

theorem congr (h : Leads walk' x₁ x') (hrun : ∀ n, (walk n).run.run x = (walk' n).run.run x₁) :
    Leads walk x x' := by
  obtain ⟨enough, henough⟩ := h
  exact ⟨enough, fun n hn => (hrun n).trans (henough n hn)⟩

theorem succ (h : Leads walk' x₁ x')
    (hrun : ∀ n, (walk (n + 1)).run.run x = (walk' n).run.run x₁) : Leads walk x x' := by
  obtain ⟨enough, henough⟩ := h
  refine ⟨enough + 1, fun n hn => ?_⟩
  obtain ⟨m, rfl⟩ := Nat.exists_eq_add_of_le' (Nat.le_trans (Nat.le_add_left 1 enough) hn)
  rw [hrun, henough m (Nat.le_of_succ_le_succ hn)]

theorem of_succ (hrun : ∀ n, (walk (n + 1)).run.run x = some (.ok (), x')) : Leads walk x x' := by
  refine ⟨1, fun n hn => ?_⟩
  obtain ⟨m, rfl⟩ := Nat.exists_eq_add_of_le' hn
  exact hrun m

/-- One walk after the other leads where they lead together. -/
theorem bind (h : Leads walk x x₁) (h' : Leads walk' x₁ x') :
    Leads (fun n => do walk n; walk' n) x x' := by
  obtain ⟨enough, henough⟩ := h
  obtain ⟨enough', henough'⟩ := h'
  refine ⟨max enough enough', fun n hn => ?_⟩
  rw [run_bind_of_ok (henough n (Nat.le_trans (Nat.le_max_left _ _) hn)),
    henough' n (Nat.le_trans (Nat.le_max_right _ _) hn)]

variable {visitor : Visitor σ ε} {t t₁ : Tree} {s s₁ : σ} {id cell head : NodeId}

/-- A walk into a node leads where it leads below the node. -/
theorem through_into (hvisitor : (visitor id).run.run (t, s) = some (.ok .into, t₁, s₁))
    (h : Leads (fun n => below visitor n id (t₁.node id)) (t₁, s₁) x') :
    Leads (fun n => through visitor n id) (t, s) x' := by
  refine h.succ fun n => ?_
  rw [through_succ, run_bind_of_ok hvisitor]
  exact run_bind_of_ok run_tree

theorem through_past (hvisitor : (visitor id).run.run (t, s) = some (.ok .past, x')) :
    Leads (fun n => through visitor n id) (t, s) x' := by
  refine of_succ fun n => ?_
  rewrite [through_succ, run_bind_of_ok hvisitor]
  rfl

/-- The cell has another element after the walk through the one it had, so the walk stays there. -/
theorem alongChain_again (hhead : t.head cell = some head)
    (h : Leads (fun n => through visitor n head) (t, s) (t₁, s₁)) (hnew : t₁.head cell ≠ some head)
    (hagain : Leads (fun n => alongChain visitor n cell) (t₁, s₁) x') :
    Leads (fun n => alongChain visitor n cell) (t, s) x' := by
  apply (h.bind (hagain.congr ?onward)).succ ?cell
  case cell =>
    intro n
    rewrite [alongChain, run_bind_of_ok run_tree, hhead]
    rfl
  case onward =>
    intro n
    rw [run_bind_of_ok run_tree, if_pos hnew]

/-- The cell has the same element after the walk through it, so the walk goes on. -/
theorem alongChain_next {tail : Option NodeId} (hhead : t.head cell = some head)
    (h : Leads (fun n => through visitor n head) (t, s) (t₁, s₁)) (hsame : t₁.head cell = some head)
    (htail : t₁.tail cell = tail)
    (hnext : Leads (fun n => tail.forM fun next => alongChain visitor n next) (t₁, s₁) x') :
    Leads (fun n => alongChain visitor n cell) (t, s) x' := by
  apply (h.bind (hnext.congr ?onward)).succ ?cell
  case cell =>
    intro n
    rewrite [alongChain, run_bind_of_ok run_tree, hhead]
    rfl
  case onward =>
    intro n
    rw [run_bind_of_ok run_tree, if_neg fun hne => hne hsame, htail]
    cases tail <;> rfl

theorem toOperand {operand : NodeId} (hoperand : t.operand id = some operand)
    (h : Leads (fun n => through visitor n operand) (t, s) (t₁, s₁))
    (hsame : t₁.operand id = some operand) :
    Leads (fun n => Walk.toOperand visitor n id) (t, s) (t₁, s₁) := by
  -- The operand is the same after the walk through it, so the walk does not come back to it.
  have hagain : Leads (fun n => do
      if (← tree).operand id ≠ some operand then Walk.toOperand visitor n id) (t₁, s₁)
      (t₁, s₁) := by
    refine ⟨0, fun n _ => ?_⟩
    rewrite [run_bind_of_ok run_tree, if_neg fun hne => hne hsame]
    rfl
  refine (h.bind hagain).succ fun n => ?_
  rw [Walk.toOperand, run_bind_of_ok run_tree, hoperand]

theorem toParameters_nil {k : Nat} (hnone : t.parameter id k = none) :
    Leads (fun n => toParameters visitor n id k) (t, s) (t, s) := by
  refine of_succ fun n => ?_
  rewrite [toParameters, run_bind_of_ok run_tree, hnone]
  rfl

/-- A walk through the parameters goes through one and then the next. -/
theorem toParameters_cons {k : Nat} {parameter : NodeId} (hsome : t.parameter id k = some parameter)
    (h : Leads (fun n => through visitor n parameter) (t, s) (t₁, s₁))
    (hrest : Leads (fun n => toParameters visitor n id (k + 1)) (t₁, s₁) x') :
    Leads (fun n => toParameters visitor n id k) (t, s) x' := by
  refine (h.bind hrest).succ fun n => ?_
  rw [toParameters, run_bind_of_ok run_tree, hsome]

theorem below_block {name name' : String} {parameters parameters' : List NodeId} {body : NodeId}
    (h : Leads (fun n => toParameters visitor n id 0) (t, s) (t₁, s₁))
    (hsame : t₁.node id = .block name' parameters' body)
    (hbody : Leads (fun n => through visitor n body) (t₁, s₁) x') :
    Leads (fun n => below visitor n id (.block name parameters body)) (t, s) x' := by
  have hinside : Leads (fun n => do
      if let .block _ _ body := (← tree).node id then through visitor n body) (t₁, s₁) x' := by
    refine hbody.congr fun n => ?_
    rw [run_bind_of_ok run_tree, hsame]
  exact h.bind hinside

end Leads

/-! ## More steps -/

/-- Walks that end alike can be put together in every way. -/
theorem relates_endsAs : Relates (σ := σ) (ε := ε) EndsAs where
  pure a := EndsAs.refl (Pure.pure a)
  bind hw hf := hw.bind hf
  tree := EndsAs.refl Walk.tree
  endless _ _ _ hrun := by cases hrun

/-- A walk that ends does so in the same way with more steps. -/
theorem through_mono {visitor : Visitor σ ε} {n m : Nat} (hle : n ≤ m) (id : NodeId) :
    EndsAs (through visitor n id) (through visitor m id) :=
  (relates_endsAs.steps (fun id => EndsAs.refl (visitor id)) hle).1 id

end Walk

theorem Definitions.expandAll_mono {n m : Nat} (hle : n ≤ m) : EndsAs (expandAll n) (expandAll m) :=
  (EndsAs.refl Walk.tree).bind fun t => Walk.through_mono hle t.root

/-- A formula as it is read and as it is with its macros expanded, and the definitions then. -/
def Definitions.expanded? (ds : Definitions) (steps : Nat) (source : String) :
    Option (Tree × Tree × Definitions) :=
  (Tree.parseMath source).toOption.bind fun t =>
    ((expandAll steps).run.run (t, ds)).bind fun out => out.1.toOption.map fun _ => (t, out.2)

theorem Definitions.expanded?_eq_some {ds ds' : Definitions} {steps : Nat} {source : String}
    {t t' : Tree} (h : ds.expanded? steps source = some (t, t', ds')) :
    Tree.parseMath source = .ok t ∧
      (expandAll steps).run.run (t, ds) = some (.ok (), t', ds') := by
  obtain ⟨u, hu, h⟩ := Option.bind_eq_some_iff.mp h
  obtain ⟨⟨r, out⟩, hrun, h⟩ := Option.bind_eq_some_iff.mp h
  obtain ⟨-, hr, heq⟩ := Option.map_eq_some_iff.mp h
  cases heq
  cases hparse : Tree.parseMath source <;> cases r <;> simp_all [Except.toOption]

end Formulary
