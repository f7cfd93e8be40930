import Formulary.Macro.Expansion
import Formulary.Proofs.Blocks
import Formulary.Proofs.Grounded
import Formulary.Proofs.Steps

/-!
# Macros that were defined elsewhere

A macro keeps its body as a tree of its own, with the positions and the spans of the formula that it
was defined in. None of this shows when the macro is used: expansion goes the same way with all
definitions that say the same (`Definitions.Agree`), down to the positions and the spans in the
expanded formula and in its faults.

* `Tree.Alike`: two stores hold the same tree at two positions, whatever its positions and spans
  are.
* `Tree.Alike.copyUpTo_eq`: copies of such trees are the same program.
* `Walk.Agrees`: a walk that goes the same way with definitions that agree. Every walk does whose
  visitor does.
-/

namespace Formulary

/-! ## Trees that say the same -/

/-- Nodes that differ in positions only have as many children. -/
theorem Node.length_children_of_bare {n n' : Node} (h : n.bare = n'.bare) :
    n.children.length = n'.children.length := by
  have hcount : ∀ n : Node, n.bare.children.length = n.children.length := by
    intro n
    cases n with
    | sequence head tail => cases tail <;> rfl
    | literal | empty | group | script => rfl
    | command | block => simp [Node.bare, Node.children]
  rw [← hcount n, h, hcount n']

/-- A node over other children has nothing of its own but what is left without positions. -/
theorem Node.atop_bare (ids : List NodeId) (n : Node) : n.bare.atop ids = n.atop ids := by
  cases n with
  | sequence head tail => cases tail <;> rfl
  | literal | empty | group | script | command | block => rfl

namespace Tree

variable {n : Nat} {given : List NodeId}

/-- Two stores hold the same tree at two positions: nodes that differ in positions only, and under
them the same trees. -/
inductive Alike (t t' : Tree) : NodeId → NodeId → Prop
  | intro {i j : NodeId} (lt_left : i < t.size) (lt_right : j < t'.size)
    (bare_eq : (t.node i).bare = (t'.node j).bare)
    (below : ∀ (k : Nat) (c c' : NodeId), (t.node i).children[k]? = some c →
      (t'.node j).children[k]? = some c' → Alike t t' c c') : Alike t t' i j

variable {t t' : Tree} {i j : NodeId}

theorem Alike.symm (h : t.Alike t' i j) : t'.Alike t j i := by
  induction h with
  | intro hleft hright hbare _ ih =>
    exact .intro hright hleft hbare.symm fun k c c' hc hc' => ih k c' c hc' hc

theorem exists_child_of_bare {n n' : Node} {k : Nat} {c : NodeId} (h : n.bare = n'.bare)
    (hc : n.children[k]? = some c) : ∃ c', n'.children[k]? = some c' := by
  obtain ⟨hk, -⟩ := List.getElem?_eq_some_iff.mp hc
  rw [Node.length_children_of_bare h] at hk
  exact ⟨_, List.getElem?_eq_getElem hk⟩

theorem Alike.lt_size (h : t.Alike t' i j) : i < t.size := by
  cases h with
  | intro hleft _ _ _ => exact hleft

/-- What is reached from one of two like trees is like something. -/
theorem Alike.exists_of_reaches {k : NodeId} (h : t.Alike t' i j) (hk : t.Reaches i k) :
    ∃ k', t.Alike t' k k' := by
  obtain ⟨path, hpath⟩ := hk
  induction path generalizing i j with
  | nil =>
    obtain rfl := Option.some.inj hpath
    exact ⟨j, h⟩
  | cons m path ih =>
    rw [follow] at hpath
    obtain ⟨c, hc, hpath⟩ := Option.bind_eq_some_iff.mp hpath
    cases h with
    | intro hleft hright hbare hbelow =>
      obtain ⟨c', hc'⟩ := exists_child_of_bare hbare hc
      exact ih (hbelow m c c' hc hc') hpath

/-- No path through a tree that is like another comes back. -/
theorem Alike.acyclic (h : t.Alike t' i j) :
    ∀ k path, t.Reaches i k → t.follow k path = some k → path = [] := by
  induction h with
  | @intro i j hleft hright hbare hbelow ih =>
    -- A way back to the start would be one from its first child to that child.
    have hstart : ∀ path, t.follow i path = some i → path = [] := by
      intro path hback
      cases path with
      | nil => rfl
      | cons m path =>
        rw [follow] at hback
        obtain ⟨c, hc, hback⟩ := Option.bind_eq_some_iff.mp hback
        obtain ⟨c', hc'⟩ := exists_child_of_bare hbare hc
        have hround : t.follow c (path ++ [m]) = some c := by
          rw [follow_append, hback, Option.bind_some, follow, hc]
          rfl
        have hnil := ih m c c' hc hc' c _ (Reaches.refl c) hround
        exact absurd hnil (List.append_ne_nil_of_right_ne_nil _ (List.cons_ne_nil _ _))
    intro k path hk hback
    obtain ⟨way, hway⟩ := hk
    cases way with
    | nil =>
      obtain rfl := Option.some.inj hway
      exact hstart path hback
    | cons m way =>
      rw [follow] at hway
      obtain ⟨c, hc, hway⟩ := Option.bind_eq_some_iff.mp hway
      obtain ⟨c', hc'⟩ := exists_child_of_bare hbare hc
      exact ih m c c' hc hc' k path ⟨way, hway⟩ hback

theorem not_shallow_zero : ¬t.Shallow 0 i := fun h => absurd (h [] i rfl) (Nat.lt_irrefl 0)

/-- A tree that is like another is no deeper than its store is large. -/
theorem Alike.shallow (h : t.Alike t' i j) : t.Shallow t.size i := by
  intro path k hpath
  refine length_lt_of_acyclic (fun m hm => ?_) h.acyclic hpath
  obtain ⟨m', hm'⟩ := h.exists_of_reaches hm
  exact hm'.lt_size

/-- Whether two stores hold the same tree at two positions, looked up to a depth. -/
def alikeUpTo (t t' : Tree) : Nat → NodeId → NodeId → Bool
  | 0, _, _ => false
  | depth + 1, i, j =>
    i < t.size && j < t'.size && (t.node i).bare = (t'.node j).bare &&
      ((t.node i).children.zip (t'.node j).children).all fun pair =>
        alikeUpTo t t' depth pair.1 pair.2

/-- Trees that are found alike are alike. -/
theorem alike_of_alikeUpTo (h : t.alikeUpTo t' n i j = true) : t.Alike t' i j := by
  induction n generalizing i j with
  | zero => cases h
  | succ n ih =>
    simp only [alikeUpTo, Bool.and_eq_true, decide_eq_true_eq, List.all_eq_true] at h
    obtain ⟨⟨⟨hleft, hright⟩, hbare⟩, hbelow⟩ := h
    refine .intro hleft hright hbare fun k c c' hc hc' => ih (hbelow (c, c') ?_)
    exact List.mem_of_getElem? (List.getElem?_zip_eq_some.mpr ⟨hc, hc'⟩)

/-- Like trees are found alike if one looks deep enough. -/
theorem Alike.alikeUpTo (h : t.Alike t' i j) (hn : t.Shallow n i) :
    t.alikeUpTo t' n i j = true := by
  induction h generalizing n with
  | @intro i j hleft hright hbare _ ih =>
    cases n with
    | zero => exact absurd hn not_shallow_zero
    | succ n =>
      simp only [Tree.alikeUpTo, Bool.and_eq_true, decide_eq_true_eq, List.all_eq_true]
      refine ⟨⟨⟨hleft, hright⟩, hbare⟩, fun pair hpair => ?_⟩
      obtain ⟨k, hk⟩ := List.getElem?_of_mem hpair
      obtain ⟨hc, hc'⟩ := List.getElem?_zip_eq_some.mp hk
      exact ih k _ _ hc hc' (hn.child (List.mem_of_getElem? hc))

instance (t t' : Tree) (i j : NodeId) : Decidable (t.Alike t' i j) :=
  decidable_of_iff (t.alikeUpTo t' t.size i j = true)
    ⟨alike_of_alikeUpTo, fun h => h.alikeUpTo h.shallow⟩

/-! ## Their copies -/

theorem mapM_congr {f g : NodeId → StateM Tree NodeId} {ps qs : List NodeId}
    (h : List.Forall₂ (fun c c' => f c = g c') ps qs) : ps.mapM f = qs.mapM g := by
  induction h with
  | nil => rfl
  | cons hhead _ ih => rw [List.mapM_cons, List.mapM_cons, hhead, ih]

/-- Copies of like trees to one place are the same program. -/
theorem Alike.copyUpTo_eq (h : t.Alike t' i j) (place : Span) {n' : Nat} (hn : t.Shallow n i)
    (hn' : t'.Shallow n' j) : t.copyUpTo (some place) n i = t'.copyUpTo (some place) n' j := by
  induction h generalizing n n' with
  | @intro i j hleft hright hbare hbelow ih =>
    cases n with
    | zero => exact absurd hn not_shallow_zero
    | succ n =>
    cases n' with
    | zero => exact absurd hn' not_shallow_zero
    | succ n' =>
      have hsame : List.Forall₂
          (fun c c' => t.copyUpTo (some place) n c = t'.copyUpTo (some place) n' c')
          (t.node i).children (t'.node j).children := by
        refine List.forall₂_iff_get.mpr ⟨Node.length_children_of_bare hbare, fun k hk hk' => ?_⟩
        exact ih k _ _ (List.getElem?_eq_getElem hk) (List.getElem?_eq_getElem hk')
          (hn.child (List.get_mem _ _)) (hn'.child (List.get_mem _ _))
      have hsequence : (t.node i).isSequence = (t'.node j).isSequence := by
        rw [← Node.isSequence_bare, hbare, Node.isSequence_bare]
      simp only [copyUpTo_succ, Node.copyOrder, hsequence, Option.getD_some]
      split
      · simp only [mapM_congr (List.forall₂_reverse_iff.mpr hsame), ← Node.atop_bare _ (t.node i),
          hbare, Node.atop_bare]
      · simp only [mapM_congr hsame, ← Node.atop_bare _ (t.node i), hbare, Node.atop_bare]

/-- Like trees are put into a store in the same way. -/
theorem Alike.graft_eq (h : t.Alike t' t.root t'.root) (place : Span) :
    t.graft (some place) = t'.graft (some place) :=
  h.copyUpTo_eq place h.shallow h.symm.shallow

/-! ## A copy is like itself

Whatever it was made of: copying puts everything above what it hangs under.
-/

/-- What hangs under a node was there before the node. -/
def Descending (t : Tree) : Prop := ∀ i, ∀ child ∈ (t.node i).children, child < i

theorem Descending.alike (h : t.Descending) (hi : i < t.size) : t.Alike t i i := by
  induction i using Nat.strong_induction_on with
  | _ i ih =>
    refine .intro hi hi rfl fun k c c' hc hc' => ?_
    obtain rfl := Option.some.inj (hc.symm.trans hc')
    have hlt := h i c (List.mem_of_getElem? hc)
    exact ih c hlt (hlt.trans hi)

/-- A program that puts nodes on top of the given ones, and answers nodes of the store. -/
def Stacks {α : Type} (given : List NodeId) (x : StateM Tree α) (answers : α → List NodeId) :
    Prop :=
  ∀ t : Tree, t.Descending → (∀ i ∈ given, i < t.size) →
    (x.run t).2.Descending ∧ t.size ≤ (x.run t).2.size ∧
      ∀ i ∈ answers (x.run t).1, i < (x.run t).2.size

theorem stacks_alloc {node : Node} (span : Span) (h : node.children ⊆ given) :
    Stacks given (alloc node span) fun id => [id] := by
  intro t ht hgiven
  rw [run_alloc_eq]
  refine ⟨fun i child hchild => ?_, by simp, by simp⟩
  by_cases hi : i = t.size
  · rw [hi, node_grown_size] at hchild
    exact hi ▸ hgiven child (h hchild)
  · rw [node_grown i hi] at hchild
    exact ht i child hchild

theorem Stacks.bind {α β : Type} {x : StateM Tree α} {f : α → StateM Tree β}
    {middle : α → List NodeId} {answers : β → List NodeId} (hx : Stacks given x middle)
    (hf : ∀ t, Stacks (given ++ middle (x.run t).1) (f (x.run t).1) answers) :
    Stacks given (x >>= f) answers := by
  intro t ht hgiven
  rw [StateT.run_bind]
  obtain ⟨ht₁, hle, hmiddle⟩ := hx t ht hgiven
  obtain ⟨ht₂, hle', hanswers⟩ := hf t (x.run t).2 ht₁ fun i hi => by
    rcases List.mem_append.mp hi with hi | hi
    · exact (hgiven i hi).trans_le hle
    · exact hmiddle i hi
  exact ⟨ht₂, hle.trans hle', hanswers⟩

theorem stacks_mapM {f : NodeId → StateM Tree NodeId}
    (hf : ∀ given i, Stacks given (f i) fun id => [id]) (ids : List NodeId) :
    Stacks given (ids.mapM f) id := by
  induction ids generalizing given with
  | nil => exact fun t ht _ => ⟨ht, Nat.le_refl _, fun i hi => absurd hi List.not_mem_nil⟩
  | cons i ids ih =>
    rw [List.mapM_cons]
    refine (hf given i).bind fun _ => ih.bind fun _ t ht hgiven => ⟨ht, Nat.le_refl _, ?_⟩
    exact fun j hj => hgiven j (by simpa [or_assoc] using Or.inr (List.mem_cons.mp hj))

theorem length_mapM (f : NodeId → StateM Tree NodeId) (ids : List NodeId) (t : Tree) :
    ((ids.mapM f).run t).1.length = ids.length := by
  induction ids generalizing t with
  | nil => rfl
  | cons i ids ih =>
    rw [List.mapM_cons, StateT.run_bind]
    exact congrArg Nat.succ (ih _)

/-- Copying stacks nodes on those that it made before. -/
theorem stacks_copyUpTo (source : Tree) (place : Option Span) (given : List NodeId) (depth : Nat)
    (id : NodeId) : Stacks given (source.copyUpTo place depth id) fun id => [id] := by
  induction depth generalizing given id with
  | zero => exact stacks_alloc _ (List.nil_subset _)
  | succ depth ih =>
    rw [copyUpTo_succ]
    refine (stacks_mapM ih _).bind fun t => stacks_alloc _ ?_
    rw [Node.children_atop]
    · exact fun i hi => List.mem_append_right _ ((Node.copyOrder_perm _ _).mem_iff.mp hi)
    · rw [(Node.copyOrder_perm _ _).length_eq, length_mapM, (Node.copyOrder_perm _ _).length_eq]

/-- A tree of its own is like itself. -/
theorem alike_extract (t : Tree) (id : NodeId) :
    (t.extract id).Alike (t.extract id) (t.extract id).root (t.extract id).root := by
  have hempty : Descending ⟨#[], 0⟩ := fun _ child hchild => absurd hchild List.not_mem_nil
  obtain ⟨hbuilt, -, hlt⟩ := stacks_copyUpTo t none [] t.size id ⟨#[], 0⟩ hempty
    fun i hi => absurd hi List.not_mem_nil
  rcases hcopy : (t.copyUpTo none t.size id).run ⟨#[], 0⟩ with ⟨root, u⟩
  rw [hcopy] at hbuilt hlt
  have hextract : t.extract id = { u with root := root }.setParent root none := by
    rw [extract, build, copy, hcopy]
  rw [hextract]
  refine Descending.alike (fun i child hchild => ?_) ?_
  · rw [node_setParent] at hchild
    exact hbuilt i child hchild
  · rw [root_setParent, size_setParent]
    exact hlt root (List.mem_singleton.mpr rfl)

end Tree

/-! ## Macros that say the same -/

/-- Two macros with one name and one number of arguments, whose bodies are the same tree. -/
structure Definition.Alike (d d' : Definition) : Prop where
  name_eq : d.name = d'.name
  arity_eq : d.arity = d'.arity
  body : d.body.Alike d'.body d.body.root d'.body.root

namespace Definition

variable {d d' : Definition} {t : Tree}

theorem Alike.argumentAt_eq (h : d.Alike d') : d.argumentAt = d'.argumentAt := by
  funext arguments index place
  rw [argumentAt, argumentAt, h.name_eq, h.arity_eq]

theorem Alike.fillPieces_eq (h : d.Alike d') (arguments : List NodeId) (place : Span)
    (pieces : List Piece) :
    d.fillPieces arguments place pieces = d'.fillPieces arguments place pieces := by
  induction pieces with
  | nil => rfl
  | cons piece pieces ih =>
    cases piece with
    | text run => rw [fillPieces, fillPieces, ih]
    | argument index => rw [fillPieces, fillPieces, ih, h.argumentAt_eq]

/-- Like macros fill a body in alike. -/
theorem Alike.fill_eq (h : d.Alike d') (arguments : List NodeId) (body : NodeId) :
    d.fill arguments body = d'.fill arguments body := by
  have hscript : d.fillScript arguments = d'.fillScript arguments := by
    funext script
    rw [fillScript, fillScript, h.argumentAt_eq]
  have hliteral : d.fillLiteral arguments = d'.fillLiteral arguments := by
    funext literal
    simp only [fillLiteral, h.fillPieces_eq]
  rw [fill, fill, hscript, hliteral]

theorem alike_of_withBody {name : String} {arity : Nat} {group : NodeId}
    (h : withBody t name arity group = .ok d) : d.Alike d := by
  rw [withBody] at h
  split at h
  · obtain rfl := Except.ok.inj h
    exact ⟨rfl, rfl, Tree.alike_extract t _⟩
  · cases h

theorem alike_of_ofGroups {name : String} {groups : List NodeId} {place : Span}
    (h : ofGroups t name groups place = .ok d) : d.Alike d := by
  unfold ofGroups at h
  split at h
  · exact alike_of_withBody h
  · obtain ⟨arity, -, h⟩ := exists_of_bind_eq_ok h
    exact alike_of_withBody h
  · cases h

/-- The body of a macro that was read is a tree. -/
theorem alike_of_read {command cell : NodeId} {count : Nat}
    (h : read t command cell = .ok (d, count)) : d.Alike d := by
  rw [read] at h
  split at h
  · obtain ⟨name, -, h⟩ := exists_of_bind_eq_ok h
    obtain ⟨e, hgroups, h⟩ := exists_of_bind_eq_ok h
    obtain ⟨rfl, -⟩ := Prod.mk.inj (Except.ok.inj h)
    exact alike_of_ofGroups hgroups
  · split at h
    · cases h
    · obtain ⟨name, -, h⟩ := exists_of_bind_eq_ok h
      obtain ⟨e, hgroups, h⟩ := exists_of_bind_eq_ok h
      obtain ⟨rfl, -⟩ := Prod.mk.inj (Except.ok.inj h)
      exact alike_of_ofGroups hgroups

instance (d d' : Definition) : Decidable (d.Alike d') :=
  decidable_of_iff (d.name = d'.name ∧ d.arity = d'.arity ∧
      d.body.Alike d'.body d.body.root d'.body.root)
    ⟨fun h => ⟨h.1, h.2.1, h.2.2⟩, fun h => ⟨h.name_eq, h.arity_eq, h.body⟩⟩

/-- Either macro does the same to a use. -/
theorem Alike.expand_eq (h : d.Alike d') (use : NodeId) : d.expand use = d'.expand use := by
  simp only [expand, instantiated, h.name_eq, h.arity_eq, h.body.graft_eq, h.fill_eq]

end Definition

namespace Definitions

/-- Two lists of definitions know the same macros, in whatever order they were made. -/
def Agree (ds ds' : Definitions) : Prop :=
  ∀ name, Option.Rel Definition.Alike (ds.find? name) (ds'.find? name)

variable {ds ds' : Definitions}

theorem find?_push (ds : Definitions) (d : Definition) (name : String) :
    (Definitions.mk (ds.toList ++ [d])).find? name =
      (ds.find? name).or (if d.name = name then some d else none) := by
  rw [find?, List.find?_append, find?]
  by_cases hname : d.name = name <;> simp [hname]

/-- It is enough to look at the names that either list has. -/
theorem agree_iff : ds.Agree ds' ↔ ∀ d ∈ ds.toList ++ ds'.toList,
    Option.Rel Definition.Alike (ds.find? d.name) (ds'.find? d.name) := by
  refine ⟨fun h d _ => h d.name, fun h name => ?_⟩
  by_cases hname : ∃ d ∈ ds.toList ++ ds'.toList, d.name = name
  · obtain ⟨d, hd, rfl⟩ := hname
    exact h d hd
  · have hnone : ∀ es : Definitions, es.toList ⊆ ds.toList ++ ds'.toList →
        es.find? name = none := by
      intro es hes
      rw [find?, List.find?_eq_none]
      intro d hd hfound
      exact hname ⟨d, hes hd, beq_iff_eq.mp hfound⟩
    rw [hnone ds (List.subset_append_left _ _), hnone ds' (List.subset_append_right _ _)]
    exact .none

instance : ∀ found found' : Option Definition, Decidable (Option.Rel Definition.Alike found found')
  | none, none => isTrue .none
  | some d, some d' => decidable_of_iff (d.Alike d') ⟨.some, fun h => by cases h; assumption⟩
  | none, some _ => isFalse fun h => by cases h
  | some _, none => isFalse fun h => by cases h

instance (ds ds' : Definitions) : Decidable (ds.Agree ds') := decidable_of_iff _ agree_iff.symm

theorem Agree.contains_eq (h : ds.Agree ds') (name : String) :
    ds.contains name = ds'.contains name := by
  have hname := h name
  rw [contains, contains]
  generalize ds.find? name = found at hname
  generalize ds'.find? name = found' at hname
  cases hname <;> rfl

/-- Lists that agree do so after one more definition. -/
theorem Agree.push {d : Definition} (h : ds.Agree ds') (hd : d.Alike d) :
    (Definitions.mk (ds.toList ++ [d])).Agree ⟨ds'.toList ++ [d]⟩ := by
  intro name
  have hname := h name
  rw [find?_push, find?_push]
  generalize ds.find? name = found at hname
  generalize ds'.find? name = found' at hname
  cases hname with
  | some hfound => exact .some hfound
  | none =>
    split
    · exact .some hd
    · exact .none

end Definitions

/-! ## Walks -/

/-- The same outcome, with definitions that know the same macros. -/
def Walk.SameOutcome {α : Type} (out out' : Except Fault α × Tree × Definitions) : Prop :=
  out.1 = out'.1 ∧ out.2.1 = out'.2.1 ∧ out.2.2.Agree out'.2.2

/-- Two walks go the same way with definitions that know the same macros. -/
def Walk.Agrees {α : Type} (w w' : Walk Definitions Fault α) : Prop :=
  ∀ (t : Tree) (ds ds' : Definitions), ds.Agree ds' →
    Option.Rel Walk.SameOutcome (w.run.run (t, ds)) (w'.run.run (t, ds'))

namespace Walk.Agrees

variable {α β : Type} {w w' : Walk Definitions Fault α}

theorem pure (a : α) : Agrees (Pure.pure a) (Pure.pure a) :=
  fun _ _ _ h => .some ⟨rfl, rfl, h⟩

theorem throw (x : Fault) : Agrees (α := α) (MonadExcept.throw x) (MonadExcept.throw x) :=
  fun _ _ _ h => .some ⟨rfl, rfl, h⟩

theorem endless : Agrees (α := α) Walk.endless Walk.endless := fun _ _ _ _ => .none

theorem bind {f f' : α → Walk Definitions Fault β} (h : Agrees w w')
    (hnext : ∀ a, Agrees (f a) (f' a)) : Agrees (w >>= f) (w' >>= f') := by
  intro t ds ds' hds
  have hrel := h t ds ds' hds
  rw [ExceptT.run_bind, ExceptT.run_bind, StateT.run_bind, StateT.run_bind]
  generalize w.run.run (t, ds) = out at hrel
  generalize w'.run.run (t, ds') = out' at hrel
  cases hrel with
  | none => exact .none
  | some hsame =>
    rename_i out out'
    obtain ⟨r, u, es⟩ := out
    obtain ⟨r', u', es'⟩ := out'
    obtain ⟨rfl, rfl, hes⟩ := hsame
    cases r with
    | error x => exact .some ⟨rfl, rfl, hes⟩
    | ok a => exact hnext a u es es' hes

theorem tree : Agrees Walk.tree Walk.tree := fun _ _ _ h => .some ⟨rfl, rfl, h⟩

/-- Walks that look definitions up go the same way. -/
theorem notes_bind {f f' : Definitions → Walk Definitions Fault α}
    (h : ∀ ds ds', ds.Agree ds' → Agrees (f ds) (f' ds')) :
    Agrees (Walk.notes >>= f) (Walk.notes >>= f') :=
  fun t ds ds' hds => h ds ds' hds t ds ds' hds

theorem note {ds ds' : Definitions} (h : ds.Agree ds') :
    Agrees (Walk.note fun _ => ds) (Walk.note fun _ => ds') :=
  fun _ _ _ _ => .some ⟨rfl, rfl, h⟩

theorem edit (e : Edit Fault α) : Agrees (Walk.edit e) (Walk.edit e) :=
  fun _ _ _ h => .some ⟨rfl, rfl, h⟩

end Walk.Agrees

theorem Walk.relates_agrees :
    Walk.Relates fun {α : Type} (w _ : Walk Definitions Fault α) => w.Agrees w where
  pure := Walk.Agrees.pure
  bind := Walk.Agrees.bind
  tree := Walk.Agrees.tree
  endless _ := Walk.Agrees.endless

namespace Definitions

/-- A definition is taken in the same way. -/
theorem agrees_define (command : NodeId) : Walk.Agrees (define command) (define command) := by
  rw [define]
  refine Walk.Agrees.tree.bind fun t => ?_
  split
  · exact Walk.Agrees.throw _
  · split
    · exact Walk.Agrees.throw _
    · rename_i d count hread
      refine Walk.Agrees.notes_bind fun ds ds' hds => ?_
      rw [insert, insert, hds.contains_eq]
      cases ds'.contains d.name with
      | true => exact Walk.Agrees.throw _
      | false =>
        have hpush := hds.push (Definition.alike_of_read hread)
        exact (Walk.Agrees.note hpush).bind fun _ => Walk.Agrees.edit _

/-- A visit goes the same way. -/
theorem agrees_visitor (id : NodeId) : Walk.Agrees (visitor id) (visitor id) := by
  rw [visitor]
  refine Walk.Agrees.tree.bind fun t => ?_
  split
  · rename_i name _ _
    split
    · exact (agrees_define id).bind fun _ => Walk.Agrees.pure _
    · refine Walk.Agrees.notes_bind fun ds ds' hds => ?_
      have hname := hds name
      generalize ds.find? name = found at hname
      generalize ds'.find? name = found' at hname
      cases hname with
      | none => exact Walk.Agrees.pure _
      | some hd =>
        simp only [hd.expand_eq]
        exact (Walk.Agrees.edit _).bind fun _ => Walk.Agrees.pure _
  · exact Walk.Agrees.pure _

/-- Expansion does not tell definitions that know the same macros apart: it ends with both or with
neither, with the same formula in the same store and the same fault if there is one, and leaves
definitions that again know the same macros. -/
theorem sameOutcome_expandAll {ds ds' : Definitions} (hds : ds.Agree ds') (t : Tree) (steps : Nat) :
    Option.Rel Walk.SameOutcome ((expandAll steps).run.run (t, ds))
      ((expandAll steps).run.run (t, ds')) := by
  have hsteps := Walk.relates_agrees.steps agrees_visitor (Nat.le_refl steps)
  exact Walk.Agrees.tree.bind (fun t => hsteps.1 t.root) t ds ds' hds

theorem sameOutcome_expandAll_reordered :
    let first := r"\newcommand{\a}[1]{x#1}\newcommand{\b}{\a{y}}"
    let second := r"u\newcommand\b{\a{y}} v\newcommand\a[1]{x#1}"
    let text := r"\newcommand\c{\b z}\c^{\a{\b}}"
    ∃ t₁ u₁ ds₁ t₂ u₂ ds₂ t t' ds₁', Tree.parseMath first = .ok t₁ ∧
      (expandAll 90).run.run (t₁, .empty) = some (.ok (), u₁, ds₁) ∧
      Tree.parseMath second = .ok t₂ ∧
      (expandAll 90).run.run (t₂, .empty) = some (.ok (), u₂, ds₂) ∧
      ds₁ ≠ ds₂ ∧ ds₁.Agree ds₂ ∧ Tree.parseMath text = .ok t ∧
      (expandAll 90).run.run (t, ds₁) = some (.ok (), t', ds₁') ∧
      t'.text = "xy z^{xxy}" ∧
      Option.Rel Walk.SameOutcome ((expandAll 90).run.run (t, ds₁))
        ((expandAll 90).run.run (t, ds₂)) := by
  intro first second text
  have hran : ((empty.expanded? 90 first).bind fun out₁ =>
      (empty.expanded? 90 second).bind fun out₂ =>
        (out₁.2.2.expanded? 90 text).map fun out =>
          (decide (out₁.2.2 ≠ out₂.2.2), decide (out₁.2.2.Agree out₂.2.2), out.2.1.text)) =
      some (true, true, "xy z^{xxy}") := by
    decide +kernel
  obtain ⟨⟨t₁, u₁, ds₁⟩, hfirst, hran⟩ := Option.bind_eq_some_iff.mp hran
  obtain ⟨⟨t₂, u₂, ds₂⟩, hsecond, hran⟩ := Option.bind_eq_some_iff.mp hran
  obtain ⟨⟨t, t', ds₁'⟩, hthird, hout⟩ := Option.map_eq_some_iff.mp hran
  simp only [Prod.mk.injEq, decide_eq_true_eq] at hout
  obtain ⟨hne, hagree, htext⟩ := hout
  obtain ⟨hparse₁, hrun₁⟩ := expanded?_eq_some hfirst
  obtain ⟨hparse₂, hrun₂⟩ := expanded?_eq_some hsecond
  obtain ⟨hparse, hrun⟩ := expanded?_eq_some hthird
  exact ⟨t₁, u₁, ds₁, t₂, u₂, ds₂, t, t', ds₁', hparse₁, hrun₁, hparse₂, hrun₂, hne, hagree, hparse,
    hrun, htext, sameOutcome_expandAll hagree t 90⟩

end Definitions

end Formulary
