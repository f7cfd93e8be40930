import Formulary.Proofs.Filling
import Formulary.Proofs.Neat

/-!
# Definitions and uses in the store

What is done in the store for one definition and for one use of a macro, against what `Macro` says of
their shapes. The walk through a formula is put together from these.

* `answers_read`: a definition is read alike in the store and from shapes.
* `run_deleteElements`: the elements that make a definition are taken out of their chain.
* `run_expand_cell`, `run_expand_alone`: a use gives way to what it stands for, as an element of a
  chain and in no cell. A use that cannot be expanded stays, and so does everything else. If the body
  is neat, the code of the failure is the one that `Macro.instantiate` says.
-/

namespace Formulary

/-- A definition stands for a macro. -/
structure Definition.StandsFor (d : Definition) (m : Macro) : Prop where
  name_eq : d.name = m.name
  arity_eq : d.arity = m.arity
  body : d.body.Depicts m.body

/-! ## Answers -/

/-- Two readings agree: they answer what is related, or fail with one code. -/
def Answers {α β : Type} (R : α → β → Prop) : Except MacroError α → Except Code β → Prop
  | .ok a, .ok b => R a b
  | .error e, .error code => e.code = code
  | _, _ => False

theorem Answers.bind {α β α' β' : Type} {R : α → β → Prop} {S : α' → β' → Prop}
    {x : Except MacroError α} {y : Except Code β} {f : α → Except MacroError α'}
    {g : β → Except Code β'} (h : Answers R x y) (hnext : ∀ a b, R a b → Answers S (f a) (g b)) :
    Answers S (x >>= f) (y >>= g) := by
  cases x with
  | error e =>
    cases y with
    | error code => exact h
    | ok b => cases h
  | ok a =>
    cases y with
    | error code => cases h
    | ok b => exact hnext a b h

theorem Fault.OfMacro.exists_eq {x : Fault} {code : Code} (h : x.OfMacro code) :
    ∃ e, x = .expansion e := by
  obtain ⟨e, rfl, -⟩ := h
  exact ⟨e, rfl⟩

theorem Fault.OfMacro.diagnostic_code {x : Fault} {code : Code} (h : x.OfMacro code) :
    x.diagnostic.code = some code := by
  obtain ⟨e, rfl, rfl⟩ := h
  cases e <;> rfl

namespace Plan

open Shape

variable {p : Plan} {ps : List Plan} {cell n first : NodeId} {name : String} {row : Row}
  {t t' : Tree} {up : Option NodeId}

/-! ## Reading a definition -/

theorem answers_nameOf (h : p.Fits t up) :
    Answers Eq (Definition.nameOf t p.id) (Macro.nameOf p.shape) := by
  rw [Definition.nameOf, h.node]
  cases p with
  | command | block =>
    simp only [top, Node.name?, shape, Macro.nameOf]
    split <;> rfl
  | literal | empty | group | script =>
    simp [top, Node.name?, shape, Macro.nameOf, Answers, MacroError.code]

theorem answers_nameIn (h : p.Fits t up) :
    Answers Eq (Definition.nameIn t p.id) (Macro.nameIn p.shape) := by
  rw [Definition.nameIn, Macro.nameIn]
  rcases h.soleElement .braces with ⟨htree, hshape⟩ | ⟨n, cell, q, rfl, htree, hshape⟩
  · rw [htree, hshape]
    rfl
  · have hq := (rowFits_pair.mp h.of_group).2.1
    have hname := answers_nameOf hq
    rw [htree, hshape, Option.filter_some, hq.node]
    cases q with
    | command _ _ ps | block _ _ ps =>
      cases ps with
      | nil => simpa [top, Node.parameters, shape] using hname
      | cons p ps => simp [top, Node.parameters, shape, Answers, MacroError.code]
    | literal | empty | group | script =>
      simpa [top, Node.parameters, shape, Macro.nameOf] using hname

theorem answers_arityIn (h : p.Fits t up) (name : String) :
    Answers Eq (Definition.arityIn t name p.id) (Macro.arityIn p.shape) := by
  rw [Definition.arityIn, Macro.arityIn, h.soleText]
  rcases (p.shape.soleText .brackets).bind arityOf? with _ | arity <;> rfl

theorem answers_withBody (h : p.Fits t up) (hn : p.ids.Nodup) (name : String) (arity : Nat) :
    Answers Definition.StandsFor (Definition.withBody t name arity p.id)
      (Macro.withBody name arity p.shape) := by
  rw [Definition.withBody, h.node]
  cases p with
  | group n fence inner =>
    rw [Fits] at h
    obtain ⟨⟨first, hfirst, -⟩, hrow⟩ := h
    rw [ids, nodup_cons_iff] at hn
    cases fence with
    | braces =>
      simp only [top, hfirst, Option.getD_some, shape, Macro.withBody]
      exact ⟨rfl, rfl, Tree.depicts_extract hrow hn.2 hfirst⟩
    | brackets => simp [top, shape, Macro.withBody, Answers, MacroError.code]
  | literal | empty | script | command | block =>
    simp [top, shape, Macro.withBody, Answers, MacroError.code]

theorem answers_ofGroups (h : AllFit t up ps) (hn : (idsOf ps).Nodup) (name : String)
    (place : Span) :
    Answers Definition.StandsFor (Definition.ofGroups t name (ps.map Plan.id) place)
      (Macro.ofGroups name (shapes ps)) := by
  match ps with
  | [] => simp [Definition.ofGroups, Macro.ofGroups, Answers, MacroError.code]
  | [body] =>
    simp only [allFit_cons, idsOf_cons, idsOf_nil, add_zero] at h hn
    simpa [Definition.ofGroups, Macro.ofGroups] using answers_withBody h.1 hn name 0
  | [count, body] =>
    simp only [allFit_cons, idsOf_cons, idsOf_nil, add_zero, Multiset.nodup_add] at h hn
    simp only [List.map_cons, List.map_nil, Definition.ofGroups, shapes_cons, shapes_nil,
      Macro.ofGroups]
    refine (answers_arityIn h.1 name).bind ?_
    rintro arity _ rfl
    exact answers_withBody h.2.1 hn.2.1 name arity
  | _ :: _ :: _ :: _ => simp [Definition.ofGroups, Macro.ofGroups, Answers, MacroError.code]

/-- A definition is read alike in the store and from shapes. It takes up the defining command and
some elements after it. -/
theorem answers_read (h : RowFits t up ((cell, command n name ps) :: row))
    (hn : (rowIds ((cell, command n name ps) :: row)).Nodup) :
    Answers (fun x y => x.1.StandsFor y.1 ∧
        ∃ taken rest, row = taken ++ rest ∧ x.2 = taken.length + 1 ∧ y.2 = rowShapes rest)
      (Definition.read t n cell) (Macro.read (shapes ps) (rowShapes row)) := by
  obtain ⟨hcell, hcommand, hrow⟩ := rowFits_pair.mp h
  rw [Fits] at hcommand
  have hnode : t.node n = .command name (ps.map Plan.id) := Tree.node_of_look hcommand.1
  simp only [rowIds_cons, ids] at hn
  rw [nodup_cons_iff, Multiset.nodup_add, nodup_cons_iff] at hn
  obtain ⟨-, ⟨-, hnps⟩, hnrow, -⟩ := hn
  cases ps with
  | cons p ps =>
    rw [allFit_cons] at hcommand
    rw [idsOf_cons, Multiset.nodup_add] at hnps
    simp only [Definition.read, hnode, Node.parameters, List.map_cons, shapes_cons, Macro.read]
    refine (answers_nameIn hcommand.2.1).bind ?_
    rintro word _ rfl
    refine (answers_ofGroups hcommand.2.2 hnps.2.1 word _).bind ?_
    intro d m hdm
    exact ⟨hdm, [], row, rfl, rfl, rfl⟩
  | nil =>
    simp only [Definition.read, hnode, Node.parameters, List.map_nil, shapes_nil, h.tail]
    rcases row with _ | ⟨⟨next, q⟩, row⟩
    · simp [Macro.read, Answers, MacroError.code]
    · have hq := (rowFits_pair.mp hrow).2.1
      have hname := answers_nameOf hq
      simp only [nextCell_cons, Option.bind_some, hrow.head, Option.filter_some, hq.node]
      cases q with
      | command c word qs =>
        rw [Fits] at hq
        simp only [rowIds_cons, ids] at hnrow
        rw [nodup_cons_iff, Multiset.nodup_add, nodup_cons_iff] at hnrow
        rw [shape] at hname
        simp only [top, Node.isCommand, if_true, id_command, Tree.node_of_look hq.1,
          rowShapes_cons, shape, Macro.read]
        refine hname.bind ?_
        rintro word' _ rfl
        refine (answers_ofGroups hq.2 hnrow.2.1.2 word' _).bind ?_
        intro d m hdm
        exact ⟨hdm, [(next, command c word qs)], row, rfl, rfl, rfl⟩
      | literal | empty | group | script | block =>
        simp [top, Node.isCommand, shape, Macro.read, Answers, MacroError.code]

/-! ## Taking a definition out -/

theorem head_pulled_ne {fresh i : NodeId} (hrow : RowFits t up (pulled cell fresh row))
    (hfresh : i ≠ fresh) (hi : i ∉ rowIds row) : t.head cell ≠ some i := by
  cases row with
  | nil =>
    rw [pulled] at hrow
    rw [hrow.head]
    exact fun heq => hfresh (Option.some.inj heq).symm
  | cons x row =>
    rw [pulled] at hrow
    rw [hrow.head]
    intro heq
    apply hi
    rw [← Option.some.inj heq]
    exact Multiset.mem_of_le (ids_le_rowIds List.mem_cons_self) x.2.id_mem_ids

/-- Elements are taken out of a chain one after the other, all through one cell. -/
theorem run_deleteElements {taken rest : Row} (h : RowFits t up ((cell, p) :: (taken ++ rest)))
    (hn : (rowIds ((cell, p) :: (taken ++ rest))).Nodup) :
    ∃ fresh t', (Definitions.deleteElements cell (taken.length + 1)).run.run t = (.ok (), t') ∧
      RowBecomes t t' up ((cell, p) :: (taken ++ rest)) (pulled cell fresh rest) ∧
        t.size ≤ fresh := by
  obtain ⟨t₁, hrun, hfits, htrades⟩ := run_delete h.owningCell_cell h hn
  induction taken generalizing t p t₁ with
  | nil =>
    refine ⟨t.size, t₁, ?_, ⟨hfits, by simp, htrades⟩, Nat.le_refl _⟩
    rw [Definitions.deleteElements, Edit.run_bind_of_ok (Edit.run_discard_of_ok hrun)]
    rfl
  | cons x taken ih =>
    obtain ⟨next, q⟩ := x
    obtain ⟨t₂, hrun₂, hfits₂, htrades₂⟩ := run_delete hfits.owningCell_cell hfits htrades.nodup
    obtain ⟨fresh, t', hrun', hbecomes, hle⟩ := ih hfits htrades.nodup t₂ hrun₂ hfits₂ htrades₂
    refine ⟨fresh, t', ?_, ⟨hbecomes.fits, by simp, htrades.trans hbecomes.trades⟩, ?_⟩
    · rw [List.length_cons, Definitions.deleteElements,
        Edit.run_bind_of_ok (Edit.run_discard_of_ok hrun)]
      exact hrun'
    · exact htrades.keeps.size_le.trans hle

/-! ## Putting a body in the place of a use -/

theorem RowFits.singleHead (h : RowFits t up ((cell, p) :: row)) :
    t.singleHead cell = if row = [] then some p.id else none := by
  rw [Tree.singleHead, h.node]
  cases row <;> simp

theorem RowFits.isEmptyChain (h : RowFits t up ((cell, p) :: row)) :
    Definition.isEmptyChain t cell = true ↔ rowShapes ((cell, p) :: row) = [.empty] := by
  rw [Definition.isEmptyChain, h.singleHead]
  cases row with
  | nil =>
    have hp := (rowFits_pair.mp h).2.1
    simp only [if_true, Option.any_some, beq_iff_eq, hp.node_eq_empty_iff, rowShapes_cons, rowShapes_nil]
    cases p <;> simp [shape, Shape.isEmpty]
  | cons x row => simp

/-- The body comes into the cell of the use, or the use goes if there is nothing in the body. -/
theorem run_place_cell {body : Row} (h : RowFits t up ((cell, command n name ps) :: row))
    (hn : (rowIds ((cell, command n name ps) :: row)).Nodup) (hroot : t.root < t.size)
    (hnew : t.Trades t' 0 (rowIds body)) (hbody : RowFits t' none body)
    (hfirst : nextCell body = some first) (place : Span) :
    ∃ t'' q rest, (Definition.place n first place).run.run t' = (.ok (), t'') ∧
      RowBecomes t t'' up ((cell, command n name ps) :: row) ((cell, q) :: rest) ∧ q.id ≠ n ∧
        rowShapes ((cell, q) :: rest) = chain (contents (rowShapes body) ++ rowShapes row) := by
  obtain ⟨h', hframe⟩ := h.beside hn hnew
  have howner : t'.owningCell n = some cell := h'.owningCell
  obtain ⟨-, hcommand, hrow⟩ := rowFits_pair.mp h
  have hlt : n < t.size := hcommand.lt_size n (id_mem_ids (command n name ps))
  have hrun : (Definition.place n first place).run.run t' =
      (if Definition.isEmptyChain t' first then discard (Tree.delete cell)
        else Tree.replace cell first : Edit SurgeryError Unit).run.run t' := by
    rw [Definition.place, Edit.run_get_bind, howner]
  obtain ⟨q, rest, rfl⟩ := exists_of_nextCell hfirst
  rw [hrun]
  by_cases hempty : Definition.isEmptyChain t' first = true
  · have hcontents : contents (rowShapes ((first, q) :: rest)) = [] := by
      rw [hbody.isEmptyChain.mp hempty]
      rfl
    obtain ⟨t'', hdelete, hfits, htrades⟩ := run_delete h'.owningCell_cell h' hn
    have hbecomes : RowBecomes t t'' up ((cell, command n name ps) :: row)
        (pulled cell t'.size row) := ⟨hfits, by simp, (hframe.drop rfl).trans htrades⟩
    have hne : t''.head cell ≠ some n := by
      refine head_pulled_ne hfits (Nat.ne_of_lt (hlt.trans_le hnew.keeps.size_le)) ?_
      simp only [rowIds_cons] at hn
      rw [nodup_cons_iff, Multiset.nodup_add] at hn
      exact Multiset.disjoint_left.mp hn.2.2.2 (id_mem_ids (command n name ps))
    have hshapes := rowShapes_pulled cell t'.size row
    rw [if_pos hempty, hcontents, List.nil_append]
    obtain ⟨q', rest', hpulled⟩ := exists_of_nextCell hbecomes.next_eq
    rw [hpulled] at hbecomes hshapes
    refine ⟨t'', q', rest', Edit.run_discard_of_ok hdelete, hbecomes, ?_, hshapes⟩
    rw [hbecomes.fits.head] at hne
    exact fun heq => hne (congrArg some heq)
  · have hcontents : contents (rowShapes ((first, q) :: rest)) = rowShapes ((first, q) :: rest) :=
      contents_of_ne fun heq => hempty (hbody.isEmptyChain.mpr heq)
    obtain ⟨t'', hreplace, hbecomes⟩ := run_replace_cell h hn hroot hnew hbody
    rw [if_neg hempty, hcontents]
    refine ⟨t'', q, rest ++ row, hreplace, hbecomes, ?_, by simp⟩
    exact ne_of_new hnew hlt (Multiset.mem_of_le (ids_le_rowIds List.mem_cons_self) q.id_mem_ids)

/-- The body comes into the place of a use that is in no cell, as an operand or as a parameter. -/
theorem run_place_alone {y : Part} {k : Nat} {body : Row}
    (hk : y.children[k]? = some (.element (command n name ps))) (hy : y.isChain = false)
    (h : y.Fits t up) (hn : y.ids.Nodup) (hroot : t.root < t.size)
    (hnew : t.Trades t' 0 (rowIds body)) (hbody : RowFits t' none body)
    (hfirst : nextCell body = some first) (place : Span) :
    ∃ t'' q, (Definition.place n first place).run.run t' = (.ok (), t'') ∧
      Part.Becomes t t'' up y (y.exchange q k) ∧ q.id ≠ n ∧ q.shape = asOperand (rowShapes body) := by
  have huse : (command n name ps).Fits t (some y.id) := h.children _ (List.mem_of_getElem? hk)
  have hlt : n < t.size := huse.lt_size n (id_mem_ids (command n name ps))
  have howner : t'.owningCell n = none := by
    refine (huse.of_keeps hnew.keeps (by simp)).owningCell_alone ?_
    have hlook := hnew.keeps.look_of_look h.look (by simp)
    rw [← hy, ← h.isSequence, Tree.isSequence, Tree.isSequence, Tree.node_of_look hlook, h.node]
  -- Whatever is new in the place of the use, the part above takes it in.
  have hreplace : ∀ {q : Plan} {t₁ : Tree}, t.Trades t₁ 0 q.ids → q.Fits t₁ none →
      q.shape = asOperand (rowShapes body) →
      ∃ t'' r, (Tree.replace n q.id).run.run t₁ = (.ok (), t'') ∧
        Part.Becomes t t'' up y (y.exchange r k) ∧ r.id ≠ n ∧
          r.shape = asOperand (rowShapes body) := by
    intro q t₁ hq hfits hshape
    obtain ⟨t'', hrun, hbecomes⟩ := Part.run_replace hk h hn hroot hq hfits
    exact ⟨t'', q, hrun, hbecomes, ne_of_new hq hlt q.id_mem_ids, hshape⟩
  obtain ⟨q, rest, rfl⟩ := exists_of_nextCell hfirst
  have hrun : (Definition.place n first place).run.run t' =
      (Definition.placeOperand n first place).run.run t' := by
    rw [Definition.place, Edit.run_get_bind, howner]
  rw [hrun, Definition.placeOperand, Edit.run_get_bind, hbody.singleHead]
  have hq := (rowFits_pair.mp hbody).2.1
  by_cases hatomic : rest = [] ∧ q.shape.isAtomic = true
  · obtain ⟨rfl, hatomic⟩ := hatomic
    have hnq : q.ids.Nodup := Multiset.nodup_of_le (ids_le_rowIds List.mem_cons_self) hnew.nodup
    obtain ⟨q', t₁, hcopy, hq', htrades, hshape⟩ := hq.run_deepCopy hnq
    rw [if_pos rfl, Option.filter_some, hq.isAtomic, if_pos hatomic]
    dsimp only
    rw [Edit.run_lift_bind hcopy]
    refine hreplace ((hnew.shrink (Multiset.zero_le _)).trans htrades) hq' ?_
    simp [hshape, asOperand, hatomic]
  · have hnone : (if rest = [] then some q.id else none).filter
        (fun head => Tree.isAtomic (t'.node head)) = none := by
      split
      · rename_i hnil
        rw [Option.filter_some, hq.isAtomic, if_neg fun h => hatomic ⟨hnil, h⟩]
      · rfl
    obtain ⟨hgroup, htrades⟩ := hbody.grown_group rfl hnew.nodup .braces place
    rw [hnone]
    dsimp only
    rw [Edit.run_lift_bind (Tree.run_alloc_eq _ _ _)]
    have hshape : (group t'.size .braces ((first, q) :: rest)).shape =
        asOperand (rowShapes ((first, q) :: rest)) := by
      cases rest with
      | nil =>
        have hnot : ¬q.shape.isAtomic = true := fun h => hatomic ⟨rfl, h⟩
        simp [shape, asOperand, hnot]
      | cons x rest => simp [shape, asOperand]
    have hplaced := hreplace (hnew.trans htrades) hgroup hshape
    rwa [id_group] at hplaced

/-! ## Expanding a use -/

section

variable {strict : Prop} {d : Definition} {m : Macro} {n : NodeId} {ps : List Plan}

/-- To expand a use is to fill in the body and to put it in the place of the use. -/
theorem run_expand_eq (h : (t.node n).parameters.length = d.arity) :
    (d.expand n).run.run t = (do
      let body ← d.instantiated (t.node n).parameters (t.span n)
      (Definition.place n body (t.span n)).reportedAt (t.span n) : Edit Fault Unit).run.run t := by
  rw [Definition.expand, Edit.run_get_bind]
  dsimp only
  rw [if_neg fun hne => hne h]

/-- A copy of the body with the arguments in the place of its placeholders. -/
theorem attempts_instantiated (hd : d.StandsFor m) (hm : strict → NeatRow m.body) (hps : Loose t ps)
    (hn : (idsOf ps).Nodup) (hroot : t.root < t.size) (harity : ps.length = d.arity) (place : Span) :
    Attempts strict (d.instantiated (ps.map Plan.id) place) t 0 (fillRow (shapes ps) m.body = none)
      fun first t₁ => ∃ body, t.Trades t₁ 0 (rowIds body) ∧ RowFits t₁ none body ∧
        nextCell body = some first ∧ fillRow (shapes ps) m.body = some (rowShapes body) := by
  obtain ⟨row, first, t₁, hrun, hfirst, hfits, htrades, hshapes⟩ :=
    Tree.run_graft hd.body (some place) t
  have hregular : strict → RegularRow (fun name => BlockMarker.side? name = none) (rowShapes row) := by
    rw [hshapes]
    exact fun hs => (hm hs).resolved
  let u : Use := ⟨d, ps, harity, strict⟩
  have hbeside : u.Beside t₁ (rowIds row) := by
    refine ⟨?_, hps.of_keeps htrades.keeps (by simp), ?_⟩
    · rw [htrades.keeps.root_eq]
      exact hroot.trans_le htrades.keeps.size_le
    · have hframe := htrades.frame (u := idsOf ps) (by rwa [zero_add]) hps.lt_size
      exact hframe.nodup
  rw [← hshapes]
  rcases attempts_fill hfits hbeside hfirst hregular with
    ⟨⟨⟩, t₂, hfill, row', hbecomes, hsome⟩ | ⟨hnone, x, t₂, hfill, hcode, hkeeps⟩
  · refine Or.inl ⟨first, t₂, ?_, row', htrades.trans hbecomes.trades, hbecomes.fits,
      hbecomes.next_eq.trans hfirst, hsome⟩
    rw [Definition.instantiated, Edit.run_lift_bind hrun, Edit.run_bind_of_ok hfill]
    rfl
  · refine Or.inr ⟨hnone, x, t₂, ?_, hcode, htrades.keeps.trans hkeeps htrades.fresh⟩
    rw [Definition.instantiated, Edit.run_lift_bind hrun]
    exact Edit.run_bind_of_error hfill

/-- The body is filled in and then put in the place of the use. -/
theorem run_expand (hd : d.StandsFor m) (hm : strict → NeatRow m.body)
    (hparameters : (t.node n).parameters = ps.map Plan.id) (hps : Loose t ps)
    (hn : (idsOf ps).Nodup) (hroot : t.root < t.size) {post : List Shape → Tree → Prop}
    (hplace : ∀ (t₁ : Tree) (body : Row) (first : NodeId), t.Trades t₁ 0 (rowIds body) →
      RowFits t₁ none body → nextCell body = some first →
        ∃ t₂, (Definition.place n first (t.span n)).run.run t₁ = (.ok (), t₂) ∧
          post (rowShapes body) t₂) :
    (∃ fs t', (d.expand n).run.run t = (.ok (), t') ∧ m.instantiate (shapes ps) = .ok fs ∧
        post fs t') ∨
      ∃ x code t', (d.expand n).run.run t = (.error x, t') ∧
        m.instantiate (shapes ps) = .error code ∧ (strict → x.OfMacro code) ∧ t.Keeps t' 0 := by
  have hlength : (shapes ps).length = ps.length := by rw [shapes_eq_map, List.length_map]
  rw [Macro.instantiate, hlength]
  by_cases harity : ps.length = d.arity
  · rw [if_neg fun hne => hne (harity.trans hd.arity_eq),
      run_expand_eq (by rw [hparameters, List.length_map, harity]), hparameters]
    rcases attempts_instantiated hd hm hps hn hroot harity (t.span n) with
      ⟨first, t₁, hrun, body, htrades, hfits, hfirst, hsome⟩ | ⟨hnone, x, t₁, hrun, hcode, hkeeps⟩
    · obtain ⟨t₂, hplaced, hpost⟩ := hplace t₁ body first htrades hfits hfirst
      refine Or.inl ⟨_, t₂, ?_, by rw [hsome], hpost⟩
      rw [Edit.run_bind_of_ok hrun]
      exact Edit.run_reportedAt_of_ok hplaced _
    · exact Or.inr ⟨x, _, t₁, Edit.run_bind_of_error hrun, by rw [hnone], hcode, hkeeps⟩
  · rw [if_pos fun heq => harity (heq.trans hd.arity_eq.symm)]
    refine Or.inr ⟨.expansion (.argumentCount d.name d.arity ps.length (t.span n)), _, t, ?_, rfl,
      fun _ => ⟨_, rfl, rfl⟩, Tree.Keeps.refl t 0⟩
    rw [Definition.expand, Edit.run_get_bind, hparameters]
    dsimp only
    rw [List.length_map, if_pos harity]
    rfl

theorem run_expand_cell (hd : d.StandsFor m) (hm : strict → NeatRow m.body)
    (h : RowFits t up ((cell, command n name ps) :: row))
    (hn : (rowIds ((cell, command n name ps) :: row)).Nodup) (hroot : t.root < t.size) :
    (∃ fs t', (d.expand n).run.run t = (.ok (), t') ∧ m.instantiate (shapes ps) = .ok fs ∧
        ∃ q rest, RowBecomes t t' up ((cell, command n name ps) :: row) ((cell, q) :: rest) ∧
          q.id ≠ n ∧ rowShapes ((cell, q) :: rest) = chain (contents fs ++ rowShapes row)) ∨
      ∃ x code t', (d.expand n).run.run t = (.error x, t') ∧
        m.instantiate (shapes ps) = .error code ∧ (strict → x.OfMacro code) ∧ t.Keeps t' 0 := by
  have hcommand := (rowFits_pair.mp h).2.1
  have hnps : (idsOf ps).Nodup :=
    Multiset.nodup_of_le (le_trans (command n name ps).inside_le
      (ids_le_rowIds (List.mem_cons_self (a := (cell, command n name ps)) (l := row)))) hn
  refine run_expand hd hm (congrArg _ hcommand.node) hcommand.of_command.loose hnps hroot ?_
  intro t₁ body first hnew hbody hfirst
  obtain ⟨t₂, q, rest, hrun, hbecomes, hne, hshapes⟩ :=
    run_place_cell h hn hroot hnew hbody hfirst (t.span n)
  exact ⟨t₂, hrun, q, rest, hbecomes, hne, hshapes⟩

theorem run_expand_alone (hd : d.StandsFor m) (hm : strict → NeatRow m.body) {y : Part} {k : Nat}
    (hk : y.children[k]? = some (.element (command n name ps))) (hy : y.isChain = false)
    (h : y.Fits t up) (hn : y.ids.Nodup) (hroot : t.root < t.size) :
    (∃ fs t', (d.expand n).run.run t = (.ok (), t') ∧ m.instantiate (shapes ps) = .ok fs ∧
        ∃ q, Part.Becomes t t' up y (y.exchange q k) ∧ q.id ≠ n ∧ q.shape = asOperand fs) ∨
      ∃ x code t', (d.expand n).run.run t = (.error x, t') ∧
        m.instantiate (shapes ps) = .error code ∧ (strict → x.OfMacro code) ∧ t.Keeps t' 0 := by
  have hcommand : (command n name ps).Fits t (some y.id) := h.children _ (List.mem_of_getElem? hk)
  have hnps : (idsOf ps).Nodup := by
    rw [Part.ids_eq, nodup_cons_iff] at hn
    exact Multiset.nodup_of_le (le_trans (command n name ps).inside_le
      (Part.ids_le_sum (List.mem_of_getElem? hk))) hn.2
  refine run_expand hd hm (congrArg _ hcommand.node) hcommand.of_command.loose hnps hroot ?_
  intro t₁ body first hnew hbody hfirst
  obtain ⟨t₂, q, hrun, hbecomes, hne, hshape⟩ :=
    run_place_alone hk hy h hn hroot hnew hbody hfirst (t.span n)
  exact ⟨t₂, hrun, q, hbecomes, hne, hshape⟩

end

end Plan

end Formulary
