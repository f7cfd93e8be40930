import Formulary.Macro.Expansion
import Formulary.Proofs.Copying
import Formulary.Proofs.Exchange
import Formulary.Proofs.Regular
import Formulary.Proofs.Rewriting

/-!
# Filling in placeholders
-/

namespace Formulary

open Shape

variable {p : Plan} {row : Row}

namespace Plan

variable {t t' : Tree} {up : Option NodeId}

/-! ## What a visit finds -/

/-- The position of an element of a kind, and nothing for any other. -/
def idIf (own : Plan → Bool) (p : Plan) : List NodeId := if own p then [p.id] else []

theorem idIf_of {own : Plan → Bool} (h : own p = true) : idIf own p = [p.id] := if_pos h

theorem idIf_of_not {own : Plan → Bool} (h : own p = false) : idIf own p = [] := by
  rw [idIf, h, if_neg Bool.false_ne_true]

/-- A test of positions that finds the elements of a kind, and no cells. -/
structure Tells (t : Tree) (test : NodeId → Bool) (own : Plan → Bool) : Prop where
  element : ∀ {p : Plan} {up : Option NodeId}, p.Fits t up → test p.id = own p
  cell : ∀ {cell : NodeId}, t.isSequence cell = true → test cell = false

theorem Tells.gathers {own : Plan → Bool} {test : NodeId → Bool} (h : Tells t test own) :
    Gathers t (idIf own) fun xs ids => (xs.map Prod.snd).filter test = ids where
  nil := rfl
  append hxs hys := by rw [List.map_append, List.filter_append, hxs, hys]
  element d hp := by simp [List.filter_cons, h.element hp, idIf]
  cell d hcell := by simp [h.cell hcell]

theorem run_forM_cons (xs : List (Nat × NodeId)) (before : List NodeId) :
    ((forM xs fun x => modify (x.2 :: ·) : StateM (List NodeId) Unit).run before).2 =
      (xs.map Prod.snd).reverse ++ before := by
  induction xs generalizing before with
  | nil => rfl
  | cons x xs ih =>
    rw [List.map_cons, List.reverse_cons, List.append_assoc]
    exact ih (x.2 :: before)

/-- What a visit of a chain shows. -/
theorem RowFits.visited {first : NodeId} (h : RowFits t up row) (hn : (rowIds row).Nodup)
    (hfirst : nextCell row = some first) :
    t.visited first = first :: (rowVisits 0 row).map Prod.snd := by
  have hreverse := congrArg List.reverse (run_forM_cons (rowVisits 0 row) [first])
  rw [List.reverse_append, List.reverse_reverse] at hreverse
  rw [Tree.visited, Tree.visit, (descends_visitBelow t _).chain h hfirst (h.card_le hn)]
  exact hreverse

/-- What a visit of an element shows. -/
theorem Fits.visited (h : p.Fits t up) (hn : p.ids.Nodup) :
    t.visited p.id = p.id :: (visits 0 p).map Prod.snd := by
  have hreverse := congrArg List.reverse (run_forM_cons (visits 0 p) [p.id])
  rw [List.reverse_append, List.reverse_reverse] at hreverse
  rw [Tree.visited, Tree.visit, (descends_visitBelow t _).element h (h.card_le hn)]
  exact hreverse

/-- What is found in a chain by looking at all that a visit shows. -/
theorem RowFits.filter_visited {own : Plan → Bool} {test : NodeId → Bool} {first : NodeId}
    (htells : Tells t test own) (h : RowFits t up row) (hn : (rowIds row).Nodup)
    (hfirst : nextCell row = some first) :
    (t.visited first).filter test = gatherRow (idIf own) row := by
  have hg := htells.gathers
  rw [h.visited hn hfirst]
  exact hg.append (hg.cell 0 (h.isSequence_first hfirst)) (hg.chain h)

/-- A script whose operand is a lone hash sign. -/
def isHashScript : Plan → Bool
  | .script _ _ (.literal _ text) => text == "#"
  | _ => false

/-- A literal that holds a placeholder. -/
def isFillable : Plan → Bool
  | .literal _ text => hasPlaceholder text.toList
  | _ => false

/-- A test that looks only at the node itself. -/
theorem tells_of_node (t : Tree) (test : Node → Bool) {own : Plan → Bool}
    (hown : ∀ p, test p.top = own p) (hcell : ∀ head tail, test (.sequence head tail) = false) :
    Tells t (fun node => test (t.node node)) own where
  element {p up} h := by
    simp only [h.node]
    exact hown p
  cell {cell} h := by
    rw [Tree.isSequence] at h
    cases hnode : t.node cell <;> simp [hnode, Node.isSequence] at h
    exact hcell _ _

theorem tells_isHashScript (t : Tree) :
    Tells t (fun node => (t.operand node).any fun operand => (t.node operand).literal? == some "#")
      isHashScript where
  element {p up} h := by
    cases p with
    | script id marker operand =>
      rw [id_script, h.operand]
      rw [Option.any_some, h.of_script.node]
      cases operand <;> rfl
    | _ =>
      rw [Tree.operand, h.node]
      rfl
  cell {cell} h := by
    simp only [Tree.isSequence, Tree.operand] at h ⊢
    cases hnode : t.node cell <;> simp [hnode, Node.isSequence] at h ⊢

theorem tells_isFillable (t : Tree) :
    Tells t (fun node => ((t.node node).literal?).any fun text => hasPlaceholder text.toList)
      isFillable :=
  tells_of_node t (fun node => node.literal?.any fun text => hasPlaceholder text.toList)
    (fun p => by cases p <;> rfl) fun _ _ => rfl

end Plan

/-! ## Attempts -/

/-- A fault in the macros of a formula, with a code. -/
def Fault.OfMacro (x : Fault) (code : Code) : Prop := ∃ e, x = .expansion e ∧ e.code = code

section

variable {α β : Type} {t t' : Tree}

/-- An edit that succeeds as said, or fails; then at most the given positions have changed, apart from
what is new. A strict one fails only for a placeholder that asks for too much. -/
def Attempts (strict : Prop) (e : Edit Fault α) (t : Tree) (s : Multiset NodeId) (failed : Prop)
    (post : α → Tree → Prop) : Prop :=
  (∃ a t', e.run.run t = (.ok a, t') ∧ post a t') ∨
    failed ∧ ∃ x t', e.run.run t = (.error x, t') ∧
      (strict → x.OfMacro .placeholderOutOfRange) ∧ t.Keeps t' s

variable {strict : Prop} {e : Edit Fault α} {s s' : Multiset NodeId} {failed failed' : Prop}
  {post : α → Tree → Prop}

theorem Attempts.of_ok {a : α} (hrun : e.run.run t = (.ok a, t')) (hpost : post a t') :
    Attempts strict e t s failed post :=
  Or.inl ⟨a, t', hrun, hpost⟩

theorem Attempts.step {f : α → Edit Fault β} {a : α} {post' : β → Tree → Prop}
    (hrun : e.run.run t = (.ok a, t')) (htrades : t.Trades t' s s')
    (h : Attempts strict (f a) t' s' failed post') :
    Attempts strict (e >>= f) t s failed post' := by
  unfold Attempts
  rw [Edit.run_bind_of_ok hrun]
  refine h.imp_right fun ⟨hfailed, x, t'', hrun', hcode, hkeeps⟩ => ?_
  exact ⟨hfailed, x, t'', hrun', hcode, htrades.keeps.trans hkeeps htrades.fresh⟩

theorem Attempts.get {f : Tree → Edit Fault β} {post' : β → Tree → Prop}
    (h : Attempts strict (f t) t s failed post') :
    Attempts strict (MonadState.get >>= f) t s failed post' :=
  h

theorem Attempts.bind {f : α → Edit Fault β} {post' : β → Tree → Prop}
    (h : Attempts strict e t s failed post)
    (hnext : ∀ a t', post a t' →
      ∃ s', t.Trades t' s s' ∧ Attempts strict (f a) t' s' failed post') :
    Attempts strict (e >>= f) t s failed post' := by
  rcases h with ⟨a, t', hrun, hpost⟩ | ⟨hfailed, x, t', hrun, hcode, hkeeps⟩
  · obtain ⟨s', htrades, h⟩ := hnext a t' hpost
    exact Attempts.step hrun htrades h
  · exact Or.inr ⟨hfailed, x, t', Edit.run_bind_of_error hrun, hcode, hkeeps⟩

theorem Attempts.mono {post' : α → Tree → Prop} (h : Attempts strict e t s failed post) (hle : s ≤ s')
    (hfailed : failed → failed') (hpost : ∀ a t', post a t' → post' a t') :
    Attempts strict e t s' failed' post' := by
  rcases h with ⟨a, t', hrun, h⟩ | ⟨h, x, t', hrun, hcode, hkeeps⟩
  · exact Or.inl ⟨a, t', hrun, hpost a t' h⟩
  · exact Or.inr ⟨hfailed h, x, t', hrun, hcode, hkeeps.mono (Multiset.subset_of_le hle)⟩

end

namespace Plan

/-! ## Arguments -/

/-- The use of a macro with as many arguments as it takes. In a strict one only placeholders that
ask for too much are expected to cause a failure. -/
structure Use where
  d : Definition
  arguments : List Plan
  length_eq : arguments.length = d.arity
  strict : Prop

namespace Use

/-- The positions of the arguments. -/
abbrev ids (u : Use) : List NodeId := u.arguments.map Plan.id

/-- The shapes of the arguments. -/
abbrev shapes (u : Use) : List Shape := Plan.shapes u.arguments

/-- The arguments are in the store, apart from some positions that are worked on. -/
structure Beside (u : Use) (t : Tree) (s : Multiset NodeId) : Prop where
  root_lt : t.root < t.size
  loose : Loose t u.arguments
  nodup : (s + idsOf u.arguments).Nodup

end Use

variable {t t' : Tree} {up : Option NodeId} {u : Use} {s s' : Multiset NodeId} {cell : NodeId}
  {qs : List Plan}

theorem Use.Beside.nodup_left (h : u.Beside t s) : s.Nodup :=
  (Multiset.nodup_add.mp h.nodup).1

theorem Use.Beside.mono (h : u.Beside t s) (hle : s' ≤ s) : u.Beside t s' :=
  ⟨h.root_lt, h.loose, Multiset.nodup_of_le (Multiset.add_le_add_right hle) h.nodup⟩

theorem Use.Beside.of_trades (h : u.Beside t s) (ht : t.Trades t' s s') : u.Beside t' s' := by
  refine ⟨?_, h.loose.of_trades ht h.nodup, (ht.frame h.nodup h.loose.lt_size).nodup⟩
  rw [ht.keeps.root_eq]
  exact Nat.lt_of_lt_of_le h.root_lt ht.keeps.size_le

theorem Use.argument_cases (u : Use) (index : Nat) (place : Span) :
    (∃ p ∈ u.arguments, u.d.argumentAt u.ids index place = .ok p.id ∧
        argument? u.shapes index = some p.shape.argumentElements) ∨
      argument? u.shapes index = none ∧
        ∃ x, u.d.argumentAt u.ids index place = .error x ∧ x.OfMacro .placeholderOutOfRange := by
  cases index with
  | zero => exact Or.inr ⟨rfl, _, rfl, _, rfl, rfl⟩
  | succ i =>
    rcases hget : u.arguments[i]? with _ | p
    · refine Or.inr ⟨?_, .expansion (.placeholderRange (i + 1) u.d.name u.d.arity place), ?_, _, rfl, rfl⟩
      · simp [argument?, shapes_eq_map, hget]
      · simp [Definition.argumentAt, hget]
    · have hlt : i + 1 ≤ u.d.arity := by
        rw [← u.length_eq]
        exact (List.getElem?_eq_some_iff.mp hget).1
      refine Or.inl ⟨p, List.mem_of_getElem? hget, ?_, ?_⟩
      · simp [Definition.argumentAt, hget, hlt]
      · simp [argument?, shapes_eq_map, hget]

theorem Fits.isAtomic (h : p.Fits t up) : Tree.isAtomic (t.node p.id) = p.shape.isAtomic := by
  rw [h.node]
  cases p <;> rw [shape] <;> rfl

theorem Fits.node_eq_empty_iff (h : p.Fits t up) :
    t.node p.id = .empty ↔ p.shape.isEmpty = true := by
  rw [h.node]
  cases p <;> simp [top, shape, Shape.isEmpty]

theorem idsOf_filter_le (row : Row) (keep : NodeId × Plan → Bool) :
    idsOf ((row.filter keep).map Prod.snd) ≤ rowIds row := by
  induction row with
  | nil => simp
  | cons x row ih =>
    rw [List.filter_cons, rowIds_cons]
    refine le_trans ?_ (Multiset.le_add_left _ _)
    split
    · rw [List.map_cons, idsOf_cons]
      exact Multiset.add_le_add_left ih
    · exact le_trans ih (Multiset.le_add_left _ _)

theorem shapes_filter (row : Row) (keep : Shape → Bool) :
    shapes ((row.filter fun x => keep x.2.shape).map Prod.snd) = (rowShapes row).filter keep := by
  rw [shapes_eq_map, rowShapes_eq_map, List.filter_map, List.map_map]
  rfl

/-- The elements of an argument are copied, but for those that are empty. -/
theorem run_copyArgument (h : p.Fits t up) (hn : p.ids.Nodup) :
    ∃ (qs : List Plan) (t' : Tree), (Tree.copyArgument p.id).run t = (qs.map Plan.id, t') ∧
      Loose t' qs ∧ t.Trades t' 0 (idsOf qs) ∧ shapes qs = p.shape.argumentElements := by
  cases p with
  | group n fence inner =>
    rw [Fits] at h
    obtain ⟨⟨first, hfirst, hlook⟩, hrow⟩ := h
    rw [ids, nodup_cons_iff] at hn
    obtain ⟨row, first', t', hrun, hfirst', hfits, htrades, hshapes⟩ :=
      hrow.run_deepCopy hn.2 hfirst
    have hkeep : ∀ x ∈ row, decide (t'.node x.2.id ≠ .empty) = !x.2.shape.isEmpty := by
      intro x hx
      obtain ⟨up', hfit⟩ := hfits.loose x.2 (List.mem_map_of_mem hx)
      simp [hfit.node_eq_empty_iff]
    refine ⟨(row.filter fun x => !x.2.shape.isEmpty).map Prod.snd, t', ?_, ?_, ?_, ?_⟩
    · rw [Tree.copyArgument, Tree.run_get_bind, id_group, Tree.node_of_look hlook]
      dsimp only
      rw [Tree.run_bind_of_run hrun, Tree.run_get_bind, hfits.elements htrades.nodup hfirst',
        List.filter_map, List.map_map, ← List.filter_congr hkeep]
      rfl
    · intro q hq
      obtain ⟨x, hx, rfl⟩ := List.mem_map.mp hq
      exact hfits.loose _ (List.mem_map_of_mem (List.mem_of_mem_filter hx))
    · exact htrades.shrink (idsOf_filter_le row _)
    · rw [shapes_filter row fun f => !f.isEmpty, hshapes, shape, argumentElements]
  | _ =>
    obtain ⟨q, t', hrun, hq, htrades, -⟩ := h.run_deepCopy hn
    refine ⟨[], t', ?_, by simp [Loose], htrades.shrink (idsOf_nil ▸ Multiset.zero_le _),
      by simp [shape, argumentElements]⟩
    rw [Tree.copyArgument, Tree.run_get_bind, h.node]
    simp only [top]
    rw [Tree.run_bind_of_run hrun, Tree.run_get_bind, hq.elements]
    rfl

/-! ## Operands -/

theorem RowFits.scriptPlaceholder?_nil (h : RowFits t up [(cell, p)]) :
    Definition.scriptPlaceholder? t p.id = none := by
  simp [Definition.scriptPlaceholder?, h.owningCell, h.tail]

/-- A placeholder after a marker is found in the store where it stands in the chain. -/
theorem RowFits.scriptPlaceholder?_cons {next : NodeId} {q : Plan}
    (h : RowFits t up ((cell, p) :: (next, q) :: row)) (marker : Marker) :
    Definition.scriptPlaceholder? t p.id =
      (Shape.scriptPlaceholder? (.script marker (.literal "#")) q.shape).map fun x =>
        (next, q.id, x.2.2, x.2.1) := by
  obtain ⟨-, -, hrest⟩ := rowFits_pair.mp h
  simp only [Definition.scriptPlaceholder?, h.owningCell, h.tail, nextCell_cons, hrest.head,
    Option.bind_eq_bind, Option.bind_some, (rowFits_pair.mp hrest).2.1.literal?]
  cases q with
  | literal l text =>
    simp only [shape, Shape.scriptPlaceholder?, if_true, Option.map_some]
    rcases text.toList with _ | ⟨c, rest⟩
    · rfl
    · rcases hdigit : argumentDigit? c with _ | index <;> simp [hdigit]
  | _ => simp [shape, Shape.scriptPlaceholder?]

/-- A hash sign that no digit follows stays as it is. -/
theorem run_fillScript_of_none {d : Definition} {ids : List NodeId} {script : NodeId}
    (h : Definition.scriptPlaceholder? t script = none) :
    (d.fillScript ids script).run.run t = (.ok (), t) := by
  rw [Definition.fillScript, Edit.run_get_bind, h]
  rcases t.operand script with _ | _ <;> rfl

/-- A group is built around elements. -/
theorem run_group (h : Loose t qs) (hn : (idsOf qs).Nodup) (place : Span) :
    ∃ (x : Plan) (t' : Tree),
      (do Tree.alloc (.group .braces (← Tree.chain place (qs.map Plan.id))) place :
        StateM Tree NodeId).run t = (x.id, t') ∧
      x.Fits t' none ∧ t.Trades t' (idsOf qs) x.ids ∧
        x.shape = .group .braces (chain (shapes qs)) := by
  obtain ⟨row, first, t₁, hrun, hfirst, hrow, hshapes, htrades⟩ := run_chain place h hn
  obtain ⟨hfits, htrades'⟩ := hrow.grown_group hfirst htrades.nodup .braces place
  refine ⟨_, _, ?_, hfits, htrades.trans htrades', by rw [shape, hshapes]⟩
  rw [Tree.run_bind_of_run hrun]
  rfl

/-- Elements in the place of an operand. -/
theorem run_operandOf (h : Loose t qs) (hn : (idsOf qs).Nodup) (place : Span) :
    ∃ (x : Plan) (t' : Tree), (Tree.operandOf place (qs.map Plan.id)).run t = (x.id, t') ∧
      x.Fits t' none ∧ t.Trades t' (idsOf qs) x.ids ∧ x.shape = asOperand (shapes qs) := by
  obtain ⟨x, t', hrun, hfits, htrades, hshape⟩ := run_group h hn place
  match qs with
  | [] => exact ⟨x, t', hrun, hfits, htrades, hshape⟩
  | [q] =>
    obtain ⟨up, hq⟩ := h q List.mem_cons_self
    rw [List.map_cons, List.map_nil] at hrun ⊢
    unfold Tree.operandOf
    by_cases hatomic : q.shape.isAtomic = true
    · obtain ⟨y, t'', hrun', hy, htrades', hshape'⟩ := hq.run_deepCopy (by simpa using hn)
      refine ⟨y, t'', ?_, hy, htrades'.of_new, ?_⟩
      · rw [Tree.run_get_bind, hq.isAtomic, if_pos hatomic, hrun']
      · simp [asOperand, hatomic, hshape']
    · refine ⟨x, t', ?_, hfits, htrades, ?_⟩
      · rw [Tree.run_get_bind, hq.isAtomic, if_neg hatomic, hrun]
      · simp [asOperand, hatomic, hshape]
  | q :: q' :: qs => exact ⟨x, t', hrun, hfits, htrades, by simpa [asOperand] using hshape⟩

/-- What is left of a chain after the digit of a placeholder: the literal with the rest of its text
first, unless the digit was all of it. -/
def afterDigitRow (next l fresh : NodeId) (rest : List Char) (row : Row) : Row :=
  if rest.isEmpty then pulled next fresh row else (next, literal l (String.ofList rest)) :: row

/-- A placeholder after a marker is filled in; what is left of the literal after it goes on with the
chain. -/
theorem attempts_fillScript {n o next l : NodeId} {marker : Marker} {hash text : String}
    {index : Nat} {rest : List Char}
    (h : RowFits t up ((cell, script n marker (literal o hash)) :: (next, literal l text) :: row))
    (hb : u.Beside t
      (rowIds ((cell, script n marker (literal o hash)) :: (next, literal l text) :: row)))
    (hfound : Definition.scriptPlaceholder? t n = some (next, l, rest, index)) :
    Attempts u.strict (u.d.fillScript u.ids n) t
      (rowIds ((cell, script n marker (literal o hash)) :: (next, literal l text) :: row))
      (argument? u.shapes index = none)
      fun _ t' => ∃ x elements fresh, argument? u.shapes index = some elements ∧
        x.shape = asOperand elements ∧
        RowBecomes t t' up
          ((cell, script n marker (literal o hash)) :: (next, literal l text) :: row)
          ((cell, script n marker x) :: afterDigitRow next l fresh rest row) := by
  have hn := hb.nodup_left
  obtain ⟨-, hscript, hrest⟩ := rowFits_pair.mp h
  rcases u.argument_cases index ((t.span n).union (t.span l)) with
    ⟨p, hp, hargument, hsome⟩ | ⟨hnone, x, herror, hcode⟩
  · obtain ⟨up', hfits⟩ := hb.loose p hp
    have hnp : p.ids.Nodup :=
      Multiset.nodup_of_le (ids_le_idsOf hp) (Multiset.nodup_add.mp hb.nodup).2.1
    obtain ⟨qs, t₁, hrun₁, hloose, htrades₁, hshapes⟩ := run_copyArgument hfits hnp
    obtain ⟨x, t₂, hrun₂, hx, htrades₂, hshape⟩ := run_operandOf hloose htrades₁.nodup (t.span n)
    have hnscript : (script n marker (literal o hash)).ids.Nodup := by
      rw [rowIds_cons, nodup_cons_iff, Multiset.nodup_add] at hn
      exact hn.2.1
    -- The operand gives way to the copy.
    obtain ⟨t₃, hrun₃, hoperand⟩ :=
      run_replace_operand hscript hnscript hb.root_lt (htrades₁.trans htrades₂) hx
    have hrow₃ := RowBecomes.head hoperand h hn
    -- The literal loses its digit.
    obtain ⟨-, -, hrest₃⟩ := rowFits_pair.mp hrow₃.fits
    have hn₃ := hrow₃.trades.nodup
    rw [rowIds_cons, nodup_cons_iff, Multiset.nodup_add] at hn₃
    have hrow₄ := (RowBecomes.head ((rowFits_pair.mp hrest₃).2.1.setText (String.ofList rest)) hrest₃
      hn₃.2.2.1)
    have hrow := hrow₃.trans (hrow₄.tail hrow₃.fits hrow₃.trades.nodup)
    have hrun : (u.d.fillScript u.ids n).run.run t =
        (if rest.isEmpty then discard <| (Tree.delete next).reportedAt (t.span n) else pure () :
          Edit Fault Unit).run.run (t₃.setText l (String.ofList rest)) := by
      rw [Definition.fillScript, Edit.run_get_bind, hscript.operand, hfound]
      dsimp only
      rw [hargument, Edit.run_bind_of_ok (by rfl), Edit.run_lift_bind hrun₁,
        Edit.run_lift_bind hrun₂, Edit.run_bind_of_ok (Edit.run_reportedAt_of_ok hrun₃ _)]
      rfl
    unfold Attempts
    rw [hrun]
    by_cases hempty : rest.isEmpty = true
    · obtain ⟨-, -, hrest₄⟩ := rowFits_pair.mp hrow.fits
      obtain ⟨t₅, hrun₅, hfits₅, htrades₅⟩ := run_delete hrest₄.owningCell_cell hrest₄
        hrow₄.trades.nodup
      have hrow₅ : RowBecomes _ t₅ (some cell) _ (pulled next _ row) := ⟨hfits₅, by simp, htrades₅⟩
      refine Or.inl ⟨(), t₅, ?_, x, _, (t₃.setText l (String.ofList rest)).size, hsome,
        hshape.trans (by rw [hshapes]), ?_⟩
      · rw [if_pos hempty]
        exact Edit.run_discard_of_ok (Edit.run_reportedAt_of_ok hrun₅ _)
      · rw [afterDigitRow, if_pos hempty]
        exact hrow.trans (hrow₅.tail hrow.fits hrow.trades.nodup)
    · refine Or.inl ⟨(), t₃.setText l (String.ofList rest), ?_, x, _, 0, hsome,
        hshape.trans (by rw [hshapes]), ?_⟩
      · rw [if_neg hempty]
        rfl
      · rw [afterDigitRow, if_neg hempty]
        exact hrow
  · refine Or.inr ⟨hnone, x, t, ?_, fun _ => hcode, Tree.Keeps.refl t _⟩
    rw [Definition.fillScript, Edit.run_get_bind, hscript.operand, hfound]
    dsimp only
    rw [herror]
    rfl

/-! ## Literals -/

theorem attempts_fillPieces (place : Span) (pieces : List Piece) (hb : u.Beside t 0) :
    Attempts u.strict (u.d.fillPieces u.ids place pieces) t 0
      (Shape.fillPieces u.shapes pieces = none)
      fun heads t' => ∃ qs, heads = qs.map Plan.id ∧ Loose t' qs ∧ t.Trades t' 0 (idsOf qs) ∧
        Shape.fillPieces u.shapes pieces = some (shapes qs) := by
  induction pieces generalizing t with
  | nil =>
    refine Attempts.of_ok rfl ⟨[], rfl, by simp [Loose], ?_, by simp [Shape.fillPieces]⟩
    exact Tree.Trades.refl t Multiset.nodup_zero (by simp)
  | cons piece pieces ih =>
    cases piece with
    | text run =>
      obtain ⟨hliteral, htrades⟩ := Fits.grown_literal (t := t) (String.ofList run) place
      have hrest := ih ((hb.of_trades htrades).mono (Multiset.zero_le _))
      rw [Definition.fillPieces]
      refine Attempts.step (Edit.run_lift (Tree.run_alloc_eq _ place t))
        (htrades.shrink (Multiset.zero_le _)) ?_
      refine Attempts.bind (hrest.mono (le_refl _) (fun hnone => by simp [Shape.fillPieces, hnone])
        fun _ _ h => h) ?_
      rintro _ t' ⟨qs, rfl, hloose, htrades', hsome⟩
      refine ⟨_, htrades',
        Attempts.of_ok rfl ⟨literal t.size (String.ofList run) :: qs, rfl, ?_, ?_, ?_⟩⟩
      · exact List.forall_mem_cons.mpr ⟨⟨_, hliteral.of_keeps htrades'.keeps (by simp)⟩, hloose⟩
      · rw [idsOf_cons, add_comm]
        exact htrades.step (zero_add _).symm htrades'
      · simp [Shape.fillPieces, hsome, shape]
    | argument index =>
      rw [Definition.fillPieces]
      rcases u.argument_cases index place with ⟨p, hp, hargument, hsome⟩ | ⟨hnone, x, herror, hcode⟩
      · obtain ⟨up, hfits⟩ := hb.loose p hp
        have hnp : p.ids.Nodup :=
          Multiset.nodup_of_le (ids_le_idsOf hp) (Multiset.nodup_add.mp hb.nodup).2.1
        obtain ⟨ps, t₁, hrun, hloose, htrades, hshapes⟩ := run_copyArgument hfits hnp
        have hrest := ih ((hb.of_trades htrades).mono (Multiset.zero_le _))
        rw [hargument]
        refine Attempts.step (by rfl) (Tree.Trades.refl t Multiset.nodup_zero (by simp)) ?_
        refine Attempts.step (Edit.run_lift hrun) (htrades.shrink (Multiset.zero_le _)) ?_
        refine Attempts.bind (hrest.mono (le_refl _)
          (fun hnone => by simp [Shape.fillPieces, hnone]) fun _ _ h => h) ?_
        rintro _ t' ⟨qs, rfl, hloose', htrades', hsome'⟩
        refine ⟨_, htrades', Attempts.of_ok rfl ⟨ps ++ qs, by rw [List.map_append], ?_, ?_, ?_⟩⟩
        · exact List.forall_mem_append.mpr ⟨hloose.of_keeps htrades'.keeps (by simp), hloose'⟩
        · rw [idsOf_append, add_comm]
          exact htrades.step (zero_add _).symm htrades'
        · simp [Shape.fillPieces, hsome, hsome', hshapes]
      · refine Or.inr ⟨by simp [Shape.fillPieces, hnone], x, t, ?_, fun _ => hcode, Tree.Keeps.refl t _⟩
        rw [herror]
        rfl

/-- The placeholders of a literal are filled in; the cell holds the first element that has come. -/
theorem attempts_fillLiteral {l : NodeId} {text : String}
    (h : RowFits t up ((cell, literal l text) :: row))
    (hb : u.Beside t (rowIds ((cell, literal l text) :: row))) :
    Attempts u.strict (u.d.fillLiteral u.ids l) t (rowIds ((cell, literal l text) :: row))
      (Shape.fillPieces u.shapes (Piece.split text.toList) = none)
      fun _ t' => ∃ q rest fs,
        Shape.fillPieces u.shapes (Piece.split text.toList) = some fs ∧
        RowBecomes t t' up ((cell, literal l text) :: row) ((cell, q) :: (rest ++ row)) ∧
        q.shape :: rowShapes rest = chain fs := by
  have hn := hb.nodup_left
  have htext : ((t.node l).literal?).getD "" = text := by
    rw [← id_literal l text, (rowFits_pair.mp h).2.1.node]
    rfl
  rw [Definition.fillLiteral]
  refine Attempts.get ?_
  rw [htext]
  refine Attempts.bind ((attempts_fillPieces (t.span l) (Piece.split text.toList)
    (hb.mono (Multiset.zero_le _))).mono (Multiset.zero_le _) (fun h => h) fun _ _ h => h) ?_
  rintro _ t₁ ⟨qs, rfl, hloose, htrades, hsome⟩
  refine ⟨_, htrades.of_new, ?_⟩
  obtain ⟨new, first, t₂, hrun, hfirst, hfits, hshapes, htrades'⟩ :=
    run_chain (t.span l) hloose htrades.nodup
  have hnew := htrades.trans htrades'
  refine Attempts.step (Edit.run_lift hrun) htrades' (Attempts.get ?_)
  have howner : t₂.owningCell l = some cell := (h.of_keeps hnew.keeps (by simp)).owningCell
  rw [howner]
  match new, hfirst with
  | (first, q) :: rest, rfl =>
    obtain ⟨t₃, hrun', hrow⟩ := run_replace_cell h hn hb.root_lt hnew hfits
    exact Attempts.of_ok (Edit.run_reportedAt_of_ok hrun' _) ⟨q, rest, _, hsome, hrow, hshapes⟩

end Plan

end Formulary
