import Formulary.Margin
import Formulary.Proofs.Footprint
import Formulary.Proofs.Uses

/-!
# The margins of a formula

What setting margins does to a formula, said of its elements. Blanks go at either end, and elements
that are left with nothing go too, but the chain keeps at least one. If a block stands anywhere in
the formula, a line break may come to either end.

Margins can be set in every formula that a store holds: the program never fails, and what it leaves
is `Shape.withMargins` of what was there (`Tree.Depicts.run_setMargins`). Elements that are neither
text nor empty are not touched (`KeepsSolids`); they may only come into other cells.
-/

namespace Formulary

open Plan Shape

/-! ## Margins of shapes -/

namespace Shape

/-- Whether an element is neither text nor empty. -/
def isSolid (f : Shape) : Bool := !f.isLiteral && !f.isEmpty

/-- Elements without the blanks at their start. -/
def startTrimmed : List Shape → List Shape
  | [] => [.empty]
  | .empty :: fs => startTrimmed fs
  | .literal text :: fs =>
    if Text.startsBlank text then
      if !(Text.trimLeft text).isEmpty then .literal (Text.trimLeft text) :: fs
      else startTrimmed fs
    else .literal text :: fs
  | f :: fs => f :: fs

/-- Elements, given from the last to the first, without the blanks at their end. The elements
`after` stand behind them. -/
def endTrimmed : List Shape → List Shape → List Shape
  | [], after => after
  | .empty :: before, after => endTrimmed before (.empty :: after)
  | .literal text :: before, after =>
    if Text.endsBlank text then
      if !(Text.trimRight text).isEmpty then
        before.reverse ++ .literal (Text.trimRight text) :: after
      else endTrimmed before (chain after)
    else before.reverse ++ .literal text :: after
  | f :: before, after => before.reverse ++ f :: after

/-- The elements in the place of one that gets a line break: in its text, in its place if it is
empty, or else `beside` it. -/
def lineBroken (joined : String → String) (beside : List Shape) : Shape → List Shape
  | .literal text => [.literal (joined text)]
  | .empty => [.literal "\n"]
  | _ => beside

/-- Elements with a line break before the first one. -/
def startPadded : List Shape → List Shape
  | [] => []
  | f :: fs => lineBroken (fun text => "\n" ++ text) [.literal "\n", f] f ++ fs

/-- Elements with a line break after the last one. -/
def endPadded : List Shape → List Shape
  | [] => []
  | [f] => lineBroken (fun text => text ++ "\n") [f, .literal "\n"] f
  | f :: g :: fs => f :: endPadded (g :: fs)

mutual

/-- Whether an element is a block or has one in it. -/
def holdsBlock : Shape → Bool
  | .literal _ | .empty => false
  | .group _ inner => anyHoldsBlock inner
  | .script _ operand => operand.holdsBlock
  | .command _ parameters => anyHoldsBlock parameters
  | .block .. => true

/-- Whether some elements have a block among or in them. -/
def anyHoldsBlock : List Shape → Bool
  | [] => false
  | f :: fs => f.holdsBlock || anyHoldsBlock fs

end

/-- Elements with the margins that a formula of them gets. -/
def withMargins (padBlocks : Bool) (fs : List Shape) : List Shape :=
  let trimmed := endTrimmed (startTrimmed fs).reverse []
  if padBlocks && anyHoldsBlock trimmed then endPadded (startPadded trimmed) else trimmed

variable {P : Shape → Prop} {fs before after : List Shape}

/-- What holds of the empty element, of some elements and of their texts without the blanks at their
start holds of what is left of the elements. -/
theorem forall_startTrimmed (hempty : P .empty)
    (htext : ∀ text, P (.literal text) → Text.trimLeft text ≠ "" → P (.literal (Text.trimLeft text)))
    (h : ∀ f ∈ fs, P f) : ∀ f ∈ startTrimmed fs, P f := by
  fun_induction startTrimmed fs with
  | case1 => exact List.forall_mem_singleton.mpr hempty
  | case2 fs ih => exact ih (List.forall_mem_cons.mp h).2
  | case3 text fs _ hsome =>
    rw [List.forall_mem_cons] at h ⊢
    exact ⟨htext text h.1 (by simpa using hsome), h.2⟩
  | case4 text fs _ _ ih => exact ih (List.forall_mem_cons.mp h).2
  | case5 | case6 => exact h

/-- The same at the end. -/
theorem forall_endTrimmed (hempty : P .empty)
    (htext : ∀ text, P (.literal text) → Text.trimRight text ≠ "" →
      P (.literal (Text.trimRight text)))
    (h : ∀ f ∈ before, P f) (hafter : ∀ f ∈ after, P f) : ∀ f ∈ endTrimmed before after, P f := by
  fun_induction endTrimmed before after with
  | case1 after => exact hafter
  | case2 before after ih =>
    exact ih (List.forall_mem_cons.mp h).2 (List.forall_mem_cons.mpr ⟨hempty, hafter⟩)
  | case3 text before after _ hsome =>
    rw [List.forall_mem_cons] at h
    rw [List.forall_mem_append, List.forall_mem_cons]
    exact ⟨by simpa using h.2, htext text h.1 (by simpa using hsome), hafter⟩
  | case4 text before after _ _ ih =>
    refine ih (List.forall_mem_cons.mp h).2 ?_
    cases after with
    | nil => exact List.forall_mem_singleton.mpr hempty
    | cons => exact hafter
  | case5 text before after | case6 before after f =>
    rw [List.forall_mem_cons] at h
    rw [List.forall_mem_append, List.forall_mem_cons]
    exact ⟨by simpa using h.2, h.1, hafter⟩

end Shape

/-! ## Chains in the store -/

section

variable {row' : Row} {cell : NodeId} {p : Plan} {t t' : Tree} {up : Option NodeId} {row : Row}
  {fs : List Shape}

/-- A chain that the store holds. -/
structure RowHeld (t : Tree) (up : Option NodeId) (row : Row) : Prop where
  fits : RowFits t up row
  nodup : (rowIds row).Nodup
  root_lt : t.root < t.size

theorem RowHeld.becomes (h : RowHeld t up row) (hrow : RowBecomes t t' up row row') :
    RowHeld t' up row' := by
  refine ⟨hrow.fits, hrow.trades.nodup, ?_⟩
  rw [hrow.trades.keeps.root_eq]
  exact h.root_lt.trans_le hrow.trades.keeps.size_le

theorem RowHeld.element {rest : Row} (h : RowHeld t up ((cell, p) :: rest)) :
    p.Fits t (some cell) :=
  (rowFits_pair.mp h.fits).2.1

/-- The elements of a chain that are neither text nor empty. -/
def solids (row : Row) : List Plan := (row.map Prod.snd).filter fun p => p.shape.isSolid

@[simp] theorem solids_append (row row' : Row) : solids (row ++ row') = solids row ++ solids row' := by
  rw [solids, List.map_append, List.filter_append]
  rfl

theorem solids_cons_of_not (h : p.shape.isSolid = false) (row : Row) :
    solids ((cell, p) :: row) = solids row := by
  rw [solids, List.map_cons, List.filter_cons_of_neg (by simp [h])]
  rfl

theorem solids_cons_eq (cell cell' : NodeId) (p : Plan) {row : Row} (h : solids row = solids row') :
    solids ((cell, p) :: row) = solids ((cell', p) :: row') := by
  simp only [solids, List.map_cons, List.filter_cons] at h ⊢
  rw [h]

@[simp] theorem solids_pulled (cell fresh : NodeId) (row : Row) :
    solids (pulled cell fresh row) = solids row := by
  cases row with
  | nil => rfl
  | cons x row => exact solids_cons_eq cell x.1 x.2 rfl

/-- The same elements of a chain are neither text nor empty, and all that was there stands for the
text that it stood for. -/
structure KeepsSolids (t t' : Tree) (row row' : Row) : Prop where
  solids_eq : solids row' = solids row
  span_eq : ∀ i < t.size, t'.span i = t.span i

theorem KeepsSolids.trans {t'' : Tree} {row'' : Row} (h : KeepsSolids t t' row row')
    (h' : KeepsSolids t' t'' row' row'') (hle : t.size ≤ t'.size) : KeepsSolids t t'' row row'' :=
  ⟨h'.solids_eq.trans h.solids_eq, fun i hi =>
    (h'.span_eq i (hi.trans_le hle)).trans (h.span_eq i hi)⟩

/-- An edit ends well and leaves a chain with the given elements. -/
def Reshapes (e : Edit SurgeryError Unit) (t : Tree) (up : Option NodeId) (row : Row)
    (fs : List Shape) : Prop :=
  ∃ t' row', e.run.run t = (.ok (), t') ∧ RowBecomes t t' up row row' ∧ KeepsSolids t t' row row' ∧
    rowShapes row' = fs

theorem RowHeld.reshapes_pure (h : RowHeld t up row) : Reshapes (pure ()) t up row (rowShapes row) :=
  ⟨t, row, rfl, RowBecomes.refl h.fits h.nodup, ⟨rfl, fun _ _ => rfl⟩, rfl⟩

namespace Reshapes

variable {e e' : Edit SurgeryError Unit}

/-- Only the run from the given store counts. -/
theorem congr (h : Reshapes e' t up row fs) (heq : e.run.run t = e'.run.run t) :
    Reshapes e t up row fs := by
  rw [Reshapes, heq]
  exact h

theorem get_bind {f : Tree → Edit SurgeryError Unit} (h : Reshapes (f t) t up row fs) :
    Reshapes (get >>= f) t up row fs :=
  h.congr (Edit.run_get_bind f)

/-- One edit after the other. -/
theorem bind {f : Unit → Edit SurgeryError Unit} {gs : List Shape} (h : Reshapes e t up row fs)
    (hheld : RowHeld t up row)
    (hnext : ∀ t' row', RowHeld t' up row' → nextCell row' = nextCell row → rowShapes row' = fs →
      Reshapes (f ()) t' up row' gs) : Reshapes (e >>= f) t up row gs := by
  obtain ⟨t', row', hrun, hbecomes, hkeeps, hfs⟩ := h
  obtain ⟨t'', row'', hrun', hbecomes', hkeeps', hgs⟩ :=
    hnext t' row' (hheld.becomes hbecomes) hbecomes.next_eq hfs
  exact ⟨t'', row'', by rw [Edit.run_bind_of_ok hrun, hrun'], hbecomes.trans hbecomes',
    hkeeps.trans hkeeps' hbecomes.trades.keeps.size_le, hgs⟩

/-- An edit of the rest of a chain is one of the chain. -/
theorem suffix {pre post : Row} (h : RowHeld t up (pre ++ post))
    (hpost : ∀ up', RowHeld t up' post → Reshapes e t up' post fs) :
    Reshapes e t up (pre ++ post) (rowShapes pre ++ fs) := by
  obtain ⟨up', hfits, hlift⟩ := RowBecomes.suffix pre h.fits h.nodup
  have hnodup := h.nodup
  rw [rowIds_append, Multiset.nodup_add] at hnodup
  obtain ⟨t', row', hrun, hbecomes, hkeeps, rfl⟩ := hpost up' ⟨hfits, hnodup.2.1, h.root_lt⟩
  refine ⟨t', pre ++ row', hrun, hlift hbecomes, ⟨?_, hkeeps.span_eq⟩, rowShapes_append pre row'⟩
  rw [solids_append, solids_append, hkeeps.solids_eq]

end Reshapes

/-- The element of a cell goes before anything else is done. -/
theorem RowHeld.reshapes_delete {pre post : Row} {f : Unit → Edit SurgeryError Unit}
    (h : RowHeld t up (pre ++ (cell, p) :: post)) (hp : p.shape.isSolid = false)
    (hnext : ∀ t', RowHeld t' up (pre ++ pulled cell t.size post) →
      Reshapes (f ()) t' up (pre ++ pulled cell t.size post) fs) :
    Reshapes (discard (Tree.delete cell) >>= f) t up (pre ++ (cell, p) :: post) fs := by
  obtain ⟨up', hfits, hlift⟩ := RowBecomes.suffix pre h.fits h.nodup
  have hnodup := h.nodup
  rw [rowIds_append, Multiset.nodup_add] at hnodup
  obtain ⟨t', hrun, hfits', htrades⟩ := run_delete hfits.owningCell_cell hfits hnodup.2.1
  have hbecomes := hlift ⟨hfits', nextCell_pulled cell t.size post, htrades⟩
  have hkeeps : KeepsSolids t t' (pre ++ (cell, p) :: post) (pre ++ pulled cell t.size post) := by
    refine ⟨?_, (Tree.alters_delete hrun).span_eq⟩
    rw [solids_append, solids_append, solids_pulled, solids_cons_of_not hp]
  obtain ⟨t'', row', hrun', hbecomes', hkeeps', hfs⟩ := hnext t' (h.becomes hbecomes)
  refine ⟨t'', row', ?_, hbecomes.trans hbecomes',
    hkeeps.trans hkeeps' hbecomes.trades.keeps.size_le, hfs⟩
  rw [Edit.run_bind_of_ok (Edit.run_discard_of_ok hrun), hrun']

/-- A literal in a cell gets another text. -/
theorem RowHeld.reshapes_setText {n : NodeId} {text : String} {rest : Row}
    (h : RowHeld t up ((cell, literal n text) :: rest)) (text' : String) :
    Reshapes (modify (·.setText n text')) t up ((cell, literal n text) :: rest)
      (.literal text' :: rowShapes rest) := by
  refine ⟨_, _, rfl, RowBecomes.head (h.element.setText text') h.fits h.nodup, ⟨?_, ?_⟩, ?_⟩
  · rw [solids_cons_of_not rfl, solids_cons_of_not rfl]
  · exact (Tree.alters_setText n text').span_eq
  · rw [rowShapes_cons, shape]

end

/-! ## Blanks at the start -/

section

open Formulary.Tree (trimStart trimEnd padStart padEnd setMargins)

variable {root : NodeId} {p : Plan} {rest : Row} {t t' : Tree} {up : Option NodeId} {row : Row}

theorem run_trimStart (limit : Nat) (h : RowFits t up ((root, p) :: rest)) :
    (trimStart root (limit + 1)).run.run t =
      (do
        match p.top with
        | .empty =>
          if !(nextCell rest).isNone then
            discard (Tree.delete root)
            trimStart root limit
        | .literal text =>
          if Text.startsBlank text then
            if !(Text.trimLeft text).isEmpty then
              modify (·.setText p.id (Text.trimLeft text))
            else
              discard (Tree.delete root)
              if !(nextCell rest).isNone then
                trimStart root limit
        | _ => return : Edit SurgeryError Unit).run.run t := by
  rw [trimStart, Edit.run_get_bind, h.head]
  dsimp only
  rewrite [h.tail, (rowFits_pair.mp h).2.1.node]
  cases p <;> rfl

/-- The limit is no less than the number of elements, so it is never reached. -/
theorem reshapes_trimStart {limit : Nat} (h : RowHeld t up ((root, p) :: rest))
    (hlimit : rest.length < limit) :
    Reshapes (trimStart root limit) t up ((root, p) :: rest)
      (startTrimmed (p.shape :: rowShapes rest)) := by
  induction limit generalizing t p rest with
  | zero => omega
  | succ limit ih =>
    refine Reshapes.congr ?_ (run_trimStart limit h.fits)
    have hstays := h.reshapes_pure
    rw [rowShapes_cons] at hstays
    -- What comes into the first cell is trimmed in turn, unless nothing comes.
    have hdelete : p.shape.isSolid = false → ∀ x rest', rest = x :: rest' →
        Reshapes (do discard (Tree.delete root); trimStart root limit) t up ((root, p) :: rest)
          (startTrimmed (rowShapes rest)) := by
      rintro hp x rest' rfl
      rw [rowShapes_cons]
      have hwhole : RowHeld t up ([] ++ (root, p) :: x :: rest') := h
      rw [List.length_cons] at hlimit
      exact hwhole.reshapes_delete hp fun t' hheld => ih hheld (by omega)
    cases p with
    | empty n =>
      cases rest with
      | nil => exact hstays
      | cons x rest => exact hdelete rfl x rest rfl
    | literal n text =>
      dsimp only [top]
      rw [shape, startTrimmed]
      split
      · split
        · exact h.reshapes_setText _
        · cases rest with
          | nil =>
            have hwhole : RowHeld t up ([] ++ [(root, literal n text)]) := h
            exact hwhole.reshapes_delete rfl fun t' hheld => hheld.reshapes_pure
          | cons x rest => exact hdelete rfl x rest rfl
      · exact hstays
    | group | script | command | block => exact hstays

/-! ## Blanks at the end -/

theorem run_trimEnd (pre : Row) (cell : NodeId) (h : p.Fits t up) :
    (trimEnd (links (pre ++ [(cell, p)])).reverse).run.run t =
      (do
        match p.top with
        | .empty => trimEnd (links pre).reverse
        | .literal text =>
          if Text.endsBlank text then
            if !(Text.trimRight text).isEmpty then
              modify (·.setText p.id (Text.trimRight text))
            else
              discard (Tree.delete cell)
              trimEnd (links pre).reverse
        | _ => return : Edit SurgeryError Unit).run.run t := by
  rw [links, List.map_append, List.reverse_append, List.map_singleton, List.reverse_singleton,
    List.singleton_append, trimEnd, Edit.run_get_bind]
  dsimp only
  rw [h.node]
  cases p <;> rfl

theorem reshapes_trimEnd {pre post : Row} (h : RowHeld t up (pre ++ post)) :
    Reshapes (trimEnd (links pre).reverse) t up (pre ++ post)
      (endTrimmed (rowShapes pre).reverse (rowShapes post)) := by
  induction pre using List.reverseRecOn generalizing t post with
  | nil => exact h.reshapes_pure
  | append_singleton pre x ih =>
    obtain ⟨cell, p⟩ := x
    rw [List.append_assoc, List.singleton_append] at h ⊢
    have hfits : p.Fits t (some cell) := by
      obtain ⟨up', hpost⟩ := h.fits.of_append
      exact (rowFits_pair.mp hpost).2.1
    refine Reshapes.congr ?_ (run_trimEnd pre cell hfits)
    have hstays := h.reshapes_pure
    rw [rowShapes_append, rowShapes_cons] at hstays
    rw [rowShapes_append, rowShapes_cons, rowShapes_nil, List.reverse_append, List.reverse_singleton,
      List.singleton_append]
    cases p with
    | empty n =>
      -- An empty element stays, and what stands before it is trimmed.
      have hempty := ih h
      rw [rowShapes_cons, shape] at hempty
      rw [shape, endTrimmed]
      exact hempty
    | literal n text =>
      dsimp only [top]
      rw [shape, endTrimmed, List.reverse_reverse]
      split
      · split
        · exact Reshapes.suffix h fun up' hheld => hheld.reshapes_setText _
        · refine h.reshapes_delete rfl fun t' hheld => ?_
          rw [← rowShapes_pulled cell t.size]
          exact ih hheld
      · exact hstays
    | group | script | command | block =>
      simp only [shape, endTrimmed, List.reverse_reverse] at hstays ⊢
      exact hstays

/-! ## Line breaks -/

/-- A line break at an element: in its text, in its place if it is empty, or else beside it. -/
def lineBreakAt (p : Plan) (edge : Span) (joined : String → String)
    (beside : NodeId → Edit SurgeryError Unit) : Edit SurgeryError Unit := do
  match p.top with
  | .literal text => modify (·.setText p.id (joined text))
  | .empty => Tree.replace p.id (← Tree.alloc (.literal "\n") edge)
  | _ => beside (← Tree.alloc (.literal "\n") edge)

theorem reshapes_lineBreakAt {cell : NodeId} (h : RowHeld t up ((cell, p) :: rest)) (edge : Span)
    (joined : String → String) {beside : NodeId → Edit SurgeryError Unit} {fs : List Shape}
    (hbeside : ∀ t₁, t.Trades t₁ 0 (literal t.size "\n").ids →
      (literal t.size "\n").Fits t₁ none →
      ∃ t' row', (beside t.size).run.run t₁ = (.ok (), t') ∧
        RowBecomes t t' up ((cell, p) :: rest) row' ∧ t₁.Alters t' [cell] ∧
        solids row' = solids ((cell, p) :: rest) ∧ rowShapes row' = fs ++ rowShapes rest) :
    Reshapes (lineBreakAt p edge joined beside) t up ((cell, p) :: rest)
      (lineBroken joined fs p.shape ++ rowShapes rest) := by
  obtain ⟨hbreak, hnew⟩ := Fits.grown_literal (t := t) "\n" edge
  have halloc : (Tree.alloc (.literal "\n") edge).run t =
      (t.size, t.grown (.literal "\n") edge) := rfl
  have hgrown : t.Alters (t.grown (.literal "\n") edge) [cell] :=
    (Tree.alters_grown _ _).mono (List.nil_subset _)
  have hinsert : Reshapes (do beside (← Tree.alloc (.literal "\n") edge)) t up ((cell, p) :: rest)
      (fs ++ rowShapes rest) := by
    obtain ⟨t', row', hrun, hbecomes, halters, hsolids, hshapes⟩ := hbeside _ hnew hbreak
    exact ⟨t', row', by rw [Edit.run_lift_bind halloc, hrun], hbecomes,
      ⟨hsolids, (hgrown.trans halters).span_eq⟩, hshapes⟩
  cases p with
  | literal n text => exact h.reshapes_setText _
  | empty n =>
    obtain ⟨t', hreplace, hbecomes⟩ := run_replace_head h.fits h.nodup h.root_lt hnew hbreak
    have hn : n < t.size := h.element.lt_size n (id_mem_ids _)
    have hnot : (t.grown (.literal "\n") edge).isSequence n = false := by
      have hnode : t.node n = .empty := h.element.node
      rw [hgrown.isSequence_eq hn, Tree.isSequence, hnode]
      rfl
    refine ⟨t', _, ?_, hbecomes, ⟨?_, fun i hi => ?_⟩, by rw [rowShapes_cons, shape]; rfl⟩
    · rw [lineBreakAt, top]
      dsimp only
      rw [Edit.run_lift_bind halloc]
      exact hreplace
    · rw [solids_cons_of_not rfl, solids_cons_of_not rfl]
    · rw [(Tree.alters_replace_of_element hnot hreplace).span_eq i (hi.trans_le hgrown.size_le),
        hgrown.span_eq i hi]
  | group | script | command | block => exact hinsert

theorem endPadded_concat (fs : List Shape) (f : Shape) :
    endPadded (fs ++ [f]) = fs ++ lineBroken (fun text => text ++ "\n") [f, .literal "\n"] f := by
  induction fs with
  | nil => rfl
  | cons g fs ih =>
    rw [List.cons_append, List.cons_append, ← ih]
    cases fs <;> rfl

theorem reshapes_padStart (h : RowHeld t up row) (hroot : nextCell row = some root) :
    Reshapes (padStart root) t up row (startPadded (rowShapes row)) := by
  obtain ⟨p, rest, rfl⟩ := exists_of_nextCell hroot
  have hrun : (padStart root).run.run t = (lineBreakAt p (.point (t.span root).start)
      (fun text => "\n" ++ text) fun id => discard (Tree.insertBefore root id)).run.run t := by
    rw [padStart, Edit.run_get_bind, h.fits.head]
    dsimp only [Option.map_some]
    rw [h.element.node]
    cases p <;> rfl
  rw [rowShapes_cons, startPadded]
  refine Reshapes.congr (reshapes_lineBreakAt h _ _ fun t₁ hnew hbreak => ?_) hrun
  obtain ⟨t', hinsert, hbecomes⟩ := run_insert_new .before h.fits h.nodup hnew hbreak
  refine ⟨t', _, Edit.run_discard_of_ok hinsert, hbecomes, Tree.alters_insertBefore hinsert, ?_, ?_⟩
  · rw [solids_cons_of_not rfl]
    exact solids_cons_eq _ _ p rfl
  · rw [rowShapes_cons, rowShapes_cons, shape]
    rfl

theorem reshapes_padEnd (h : RowHeld t up row) (hroot : nextCell row = some root) :
    Reshapes (padEnd root) t up row (endPadded (rowShapes row)) := by
  obtain ⟨pre, ⟨cell, p⟩, rfl⟩ : ∃ pre x, row = pre ++ [x] := by
    rcases List.eq_nil_or_concat row with rfl | ⟨pre, x, rfl⟩
    · cases hroot
    · exact ⟨pre, x, List.concat_eq_append⟩
  have hlast : t.lastCell root = cell := h.fits.lastCell h.nodup hroot List.getLast?_concat
  rw [rowShapes_append, rowShapes_cons, rowShapes_nil, endPadded_concat]
  refine Reshapes.suffix h fun up' hheld => ?_
  have hrun : (padEnd root).run.run t = (lineBreakAt p (.point (t.span root).stop)
      (fun text => text ++ "\n") fun id => discard (Tree.insertAfter cell id)).run.run t := by
    rw [padEnd, Edit.run_get_bind, hlast]
    dsimp only
    rw [hheld.fits.head]
    dsimp only [Option.map_some]
    rw [hheld.element.node]
    cases p <;> rfl
  rw [← List.append_nil (lineBroken _ _ _), ← rowShapes_nil]
  refine Reshapes.congr (reshapes_lineBreakAt hheld _ _ fun t₁ hnew hbreak => ?_) hrun
  obtain ⟨t', hinsert, hbecomes⟩ := run_insert_new .after hheld.fits hheld.nodup hnew hbreak
  refine ⟨t', _, Edit.run_discard_of_ok hinsert, hbecomes, Tree.alters_insertAfter hinsert, ?_, ?_⟩
  · exact solids_cons_eq _ _ p (solids_cons_of_not rfl [])
  · rw [rowShapes_cons, rowShapes_cons, shape]
    rfl

/-! ## Blocks -/

/-- Whether an element is a block. -/
def isBlock : Plan → Bool
  | .block .. => true
  | _ => false

theorem tells_isBlock (t : Tree) : Tells t (fun node => (t.node node).isBlock) isBlock :=
  tells_of_node t Node.isBlock (fun p => by cases p <;> rfl) fun _ _ => rfl

mutual

theorem gather_isBlock : ∀ p : Plan,
    idIf isBlock p ++ gather (idIf isBlock) p = [] ↔ p.shape.holdsBlock = false
  | .literal .. | .empty _ | .block .. => by simp [idIf, isBlock, gather, shape, holdsBlock]
  | .group _ _ inner => by
    rw [gather, shape, holdsBlock]
    exact gatherRow_isBlock inner
  | .script _ _ operand => by
    rw [gather, shape, holdsBlock]
    exact gather_isBlock operand
  | .command _ _ parameters => by
    rw [gather, shape, holdsBlock]
    exact gatherAll_isBlock parameters

theorem gatherAll_isBlock : ∀ ps : List Plan,
    gatherAll (idIf isBlock) ps = [] ↔ anyHoldsBlock (shapes ps) = false
  | [] => by simp [anyHoldsBlock]
  | p :: ps => by
    rw [gatherAll_cons, ← List.append_assoc, List.append_eq_nil_iff, gather_isBlock p,
      gatherAll_isBlock ps, shapes_cons, anyHoldsBlock, Bool.or_eq_false_iff]

theorem gatherRow_isBlock : ∀ row : Row,
    gatherRow (idIf isBlock) row = [] ↔ anyHoldsBlock (rowShapes row) = false
  | [] => by simp [anyHoldsBlock]
  | (cell, p) :: row => by
    rw [gatherRow_cons, ← List.append_assoc, List.append_eq_nil_iff, gather_isBlock p,
      gatherRow_isBlock row, rowShapes_cons, anyHoldsBlock, Bool.or_eq_false_iff]

end

theorem RowHeld.containsBlock (h : RowHeld t up row) (hroot : nextCell row = some root) :
    t.containsBlock root = anyHoldsBlock (rowShapes row) := by
  rw [Bool.eq_iff_iff, ← not_iff_not, Bool.not_eq_true, Bool.not_eq_true, ← gatherRow_isBlock,
    ← h.fits.filter_visited (tells_isBlock t) h.nodup hroot, Tree.containsBlock,
    List.any_eq_false, List.filter_eq_nil_iff]

/-! ## Both margins -/

theorem reshapes_setMargins (padBlocks : Bool) (h : RowHeld t up row)
    (hroot : nextCell row = some t.root) :
    Reshapes (setMargins padBlocks) t up row (withMargins padBlocks (rowShapes row)) := by
  have hstart : Reshapes (trimStart t.root (t.cells t.root).length) t up row
      (startTrimmed (rowShapes row)) := by
    rw [h.fits.cells h.nodup hroot, links, List.length_map]
    obtain ⟨p, rest, rfl⟩ := exists_of_nextCell hroot
    rw [rowShapes_cons]
    exact reshapes_trimStart h (by simp)
  rw [setMargins]
  apply Reshapes.get_bind
  apply Reshapes.get_bind
  refine hstart.bind h fun t₁ row₁ h₁ hnext₁ hshapes₁ => ?_
  have hroot₁ := hnext₁.trans hroot
  have hend : Reshapes (trimEnd (t₁.cells t.root).reverse) t₁ up row₁
      (endTrimmed (rowShapes row₁).reverse []) := by
    rw [h₁.fits.cells h₁.nodup hroot₁]
    have hwhole : RowHeld t₁ up (row₁ ++ []) := by rwa [List.append_nil]
    have htrim := reshapes_trimEnd hwhole
    rwa [List.append_nil, rowShapes_nil] at htrim
  apply Reshapes.get_bind
  refine hend.bind h₁ fun t₂ row₂ h₂ hnext₂ hshapes₂ => ?_
  have hroot₂ := hnext₂.trans hroot₁
  apply Reshapes.get_bind
  rw [withMargins, h₂.containsBlock hroot₂, ← hshapes₁, ← hshapes₂]
  split
  · refine (reshapes_padStart h₂ hroot₂).bind h₂ fun t₃ row₃ h₃ hnext₃ hshapes₃ => ?_
    rw [← hshapes₃]
    exact reshapes_padEnd h₃ (hnext₃.trans hroot₂)
  · exact h₂.reshapes_pure

end

/-- Margins can be set in every formula that a store holds. -/
theorem Tree.Depicts.run_setMargins {t : Tree} {fs : List Shape} (h : t.Depicts fs)
    (padBlocks : Bool) :
    ∃ t', (Tree.setMargins padBlocks).run.run t = (.ok (), t') ∧
      t'.Depicts (withMargins padBlocks fs) := by
  obtain ⟨row, hfirst, hfits, hn, rfl⟩ := h
  have hheld : RowHeld t none row := ⟨hfits, hn, hfits.lt_size t.root (nextCell_mem_rowIds hfirst)⟩
  obtain ⟨t', row', hrun, hbecomes, -, hshapes⟩ := reshapes_setMargins padBlocks hheld hfirst
  refine ⟨t', hrun, row', ?_, hbecomes.fits, hbecomes.trades.nodup, hshapes⟩
  rw [hbecomes.next_eq, hfirst, hbecomes.trades.keeps.root_eq]

end Formulary
