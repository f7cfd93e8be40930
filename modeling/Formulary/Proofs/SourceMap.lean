import Formulary.Proofs.Blocks
import Formulary.Proofs.Stretches
import Formulary.Proofs.TiledTrees

/-!
# Spans as a source map

In a formula that was read, the span of every node is the stretch of the source at which its text
stands. `Plan.RowStands` says this of the nodes of a chain with offsets alone: every element starts
where the one before it stops, and the span of a block covers the groups after it besides, since it
was made of the spans of two delimiting commands and the second had those groups as parameters.

* What is laid out when a text is read stands from the start of its span on
  (`Plan.RowFits.rowStands`).
* Splicing a block in keeps that (`Spliced.keepsPlace`), and so does the whole pass
  (`keepsPlace_of_splices`). Cells are left out here, since they keep the spans of the chains that
  they were read in.
* What stands at an offset of the source, and has the text that is left there, is held by its span
  (`Part.Placed.holds`).
-/

namespace Formulary

open Plan Shape
open Text (byteSize byteSize_nil byteSize_cons byteSize_append)

variable {p : Plan} {cell n : NodeId} {k : Nat} {ps : List Plan} {row : Row}

/-! ## Standing at an offset -/

namespace Span

/-- The stretch of a piece of text that starts at an offset. -/
def along (start : Nat) (piece : List Char) : Span := ⟨start, start + byteSize piece⟩

theorem eq_along {p : Span} {piece : List Char} (hstart : p.start = k)
    (hstop : p.stop = k + byteSize piece) : p = along k piece := by
  obtain ⟨start, stop⟩ := p
  exact congrArg₂ Span.mk hstart hstop

end Span

open Formulary.Span (along)

namespace Shape

/-- The text of the groups that a chain starts with. -/
def groupChars (fs : List Shape) : List Char := charsOf (fs.takeWhile isGroup)

/-- What the span of an element covers, if groups with some text come right after it. -/
def covered (after : List Char) (f : Shape) : List Char :=
  if f.isBlock then f.chars ++ after else f.chars

theorem covered_of_not_isBlock {f : Shape} (h : f.isBlock = false) (after : List Char) :
    f.covered after = f.chars := by
  simp [covered, h]

theorem groupChars_cons (f : Shape) (fs : List Shape) :
    groupChars (f :: fs) = if f.isGroup then f.chars ++ groupChars fs else [] := by
  rw [groupChars, List.takeWhile_cons]
  split
  · rw [charsOf_cons, groupChars]
  · rfl

theorem charsOf_eq_groupChars (fs : List Shape) :
    charsOf fs = groupChars fs ++ charsOf (fs.dropWhile isGroup) := by
  rw [groupChars, ← charsOf_append, List.takeWhile_append_dropWhile]

/-- Groups go on as long as no other element comes. -/
theorem groupChars_append {gs : List Shape} (h : ∀ g ∈ gs.head?, g.isGroup = false)
    (fs : List Shape) : groupChars (fs ++ gs) = groupChars fs := by
  rw [groupChars, (span_append h fs).1, groupChars]

theorem groupChars_of_forall {fs : List Shape} (h : ∀ f ∈ fs, f.isGroup = true) :
    groupChars fs = charsOf fs := by
  rw [groupChars, List.takeWhile_eq_self_iff.mpr h]

end Shape

namespace Plan

variable {k : Nat} {p q : Plan} {row : Row}
variable (σ : NodeId → Span) (cells : Prop)

mutual

/-- Whether what is inside an element that starts at an offset stands where it is written. -/
def InnerStands (k : Nat) : Plan → Prop
  | .literal .. | .empty _ => True
  | .group _ fence inner => RowStands (k + byteSize [fence.opening.char]) inner
  | .script _ marker operand =>
    σ operand.id = along (k + byteSize [marker.char]) (operand.shape.covered []) ∧
      InnerStands (k + byteSize [marker.char]) operand
  | .command _ name parameters =>
    AllStand (k + byteSize (Symbol.backslash.char :: name.toList)) parameters
  | .block _ name parameters body =>
    AllStand (k + byteSize (delimiterChars .opens name)) parameters ∧
      RowStands (k + byteSize (delimiterChars .opens name ++ charsOf (shapes parameters))) body

/-- Whether elements stand one after the other from an offset on. -/
def AllStand (k : Nat) : List Plan → Prop
  | [] => True
  | p :: ps =>
    σ p.id = along k (p.shape.covered []) ∧ InnerStands k p ∧
      AllStand (k + byteSize p.shape.chars) ps

/-- Whether the elements of a chain stand one after the other from an offset on, and its cells too
if they are looked at. -/
def RowStands (k : Nat) : Row → Prop
  | [] => True
  | (cell, p) :: row =>
    (cells → σ cell = along k (p.shape.chars ++ charsOf (rowShapes row))) ∧
      σ p.id = along k (p.shape.covered (groupChars (rowShapes row))) ∧ InnerStands k p ∧
      RowStands (k + byteSize p.shape.chars) row

end

variable {σ cells} {t : Tree} {up : Option NodeId}

theorem allStand_cons :
    AllStand σ cells k (p :: ps) ↔ σ p.id = along k (p.shape.covered []) ∧
      InnerStands σ cells k p ∧ AllStand σ cells (k + byteSize p.shape.chars) ps := by
  rw [AllStand]

theorem rowStands_cons :
    RowStands σ cells k ((cell, p) :: row) ↔
      (cells → σ cell = along k (p.shape.chars ++ charsOf (rowShapes row))) ∧
      σ p.id = along k (p.shape.covered (groupChars (rowShapes row))) ∧
      InnerStands σ cells k p ∧ RowStands σ cells (k + byteSize p.shape.chars) row := by
  rw [RowStands]

/-! ## What is read -/

theorem Fits.isBlock_eq (h : p.Fits t up) : (t.node p.id).isBlock = p.shape.isBlock := by
  rw [h.node]
  cases p <;> rfl

/-- In a store that is tiled, the span of an element consists of its symbols and the spans of what
hangs under it. -/
theorem Fits.encloses (h : p.Fits t up) (ht : t.Tiled) :
    (t.span p.id).Encloses p.top.front (p.top.children.map t.span) p.top.back := by
  rw [← h.node]
  exact (ht p.id (Tree.lt_of_look h.look)).encloses

theorem Fits.isBlock_of_tiled (h : p.Fits t up) (ht : t.Tiled) : p.shape.isBlock = false := by
  rw [← h.isBlock_eq]
  exact (ht p.id (Tree.lt_of_look h.look)).isBlock

theorem Fits.span_of_tiled (h : p.Fits t up) (ht : t.Tiled) (hσ : t.SpansIn σ)
    (hstop : (t.span p.id).stop = (t.span p.id).start + byteSize p.shape.chars)
    (after : List Char) : σ p.id = along (t.span p.id).start (p.shape.covered after) := by
  rw [hσ _ (Tree.lt_of_look h.look), covered_of_not_isBlock (h.isBlock_of_tiled ht)]
  exact Span.eq_along rfl hstop

mutual

/-- What fits a tiled store stands from the start of its span on. -/
theorem Fits.innerStands (ht : t.Tiled) (hσ : t.SpansIn σ) : ∀ {p : Plan} {up : Option NodeId},
    p.Fits t up → p.InnerStands σ cells (t.span p.id).start ∧
      (t.span p.id).stop = (t.span p.id).start + byteSize p.shape.chars
  | .literal .., up, h | .empty _, up, h => by
    obtain ⟨stop, rfl, hstop⟩ := h.encloses ht
    exact ⟨by rw [InnerStands]; trivial, hstop⟩
  | .group n fence inner, up, h => by
    obtain ⟨stop, htile, hstop⟩ := h.encloses ht
    rw [Fits] at h
    obtain ⟨⟨first, hfirst, -⟩, hinner⟩ := h
    rw [top, hfirst, Option.getD_some] at htile
    obtain ⟨hstart, -, rfl⟩ := htile
    obtain ⟨hstands, hinside⟩ := RowFits.rowStands ht hσ hinner hfirst
    rw [hstart] at hstands hinside
    refine ⟨by rw [InnerStands]; exact hstands, ?_⟩
    rw [hstop, hinside]
    simp only [top, Node.front, Node.back, shape, chars, byteSize_cons, byteSize_append, byteSize_nil]
    omega
  | .script n marker operand, up, h => by
    obtain ⟨stop, ⟨hstart, -, rfl⟩, hstop⟩ := h.encloses ht
    rw [Fits] at h
    obtain ⟨hstands, hinside⟩ := Fits.innerStands ht hσ h.2
    have hspan := h.2.span_of_tiled ht hσ hinside []
    rw [hstart] at hstands hinside hspan
    refine ⟨by rw [InnerStands]; exact ⟨hspan, hstands⟩, ?_⟩
    rw [hstop, hinside]
    simp only [top, Node.front, Node.back, shape, chars, byteSize_cons, byteSize_nil]
    omega
  | .command n name ps, up, h => by
    obtain ⟨stop, htile, hstop⟩ := h.encloses ht
    rw [Fits] at h
    obtain ⟨hstands, hinside⟩ := AllFit.allStand ht hσ h.2 htile
    refine ⟨by rw [InnerStands]; exact hstands, ?_⟩
    rw [hstop, hinside]
    simp only [top, Node.front, Node.back, shape, chars, byteSize_cons, byteSize_append, byteSize_nil]
    omega
  | .block n name ps body, up, h => by
    cases h.isBlock_of_tiled ht

theorem AllFit.allStand (ht : t.Tiled) (hσ : t.SpansIn σ) : ∀ {ps : List Plan}
    {up : Option NodeId} {start stop : Nat}, AllFit t up ps →
    Span.Tile start ((ps.map Plan.id).map t.span) stop → AllStand σ cells start ps ∧
      stop = start + byteSize (charsOf (shapes ps))
  | [], up, start, stop, _, htile => by
    obtain rfl : start = stop := htile
    simp [AllStand]
  | p :: ps, up, start, stop, h, htile => by
    obtain ⟨rfl, -, hrest⟩ := htile
    rw [allFit_cons] at h
    obtain ⟨hstands, hinside⟩ := Fits.innerStands ht hσ h.1
    obtain ⟨hps, hstop⟩ := AllFit.allStand ht hσ h.2 hrest
    rw [hinside] at hps hstop
    refine ⟨allStand_cons.mpr ⟨h.1.span_of_tiled ht hσ hinside [], hstands, hps⟩, ?_⟩
    rw [hstop, shapes_cons, charsOf_cons, byteSize_append, Nat.add_assoc]

theorem RowFits.rowStands (ht : t.Tiled) (hσ : t.SpansIn σ) : ∀ {row : Row} {up : Option NodeId}
    {first : NodeId}, RowFits t up row → nextCell row = some first →
    RowStands σ cells (t.span first).start row ∧
      (t.span first).stop = (t.span first).start + byteSize (charsOf (rowShapes row))
  | (cell, p) :: row, up, first, h, hfirst => by
    obtain rfl : cell = first := Option.some.inj hfirst
    obtain ⟨hlook, hp, hrow⟩ := rowFits_pair.mp h
    obtain ⟨stop, htile, hstop⟩ := (ht cell (Tree.lt_of_look hlook)).encloses
    rw [Tree.node_of_look hlook] at htile hstop
    obtain ⟨hstart, -, htile⟩ := htile
    obtain ⟨hstands, hinside⟩ := Fits.innerStands ht hσ hp
    -- The rest of the chain, if there is one, starts where the element stops.
    have hrest : RowStands σ cells (t.span p.id).stop row ∧
        stop = (t.span p.id).stop + byteSize (charsOf (rowShapes row)) := by
      cases row with
      | nil =>
        obtain rfl : (t.span p.id).stop = stop := htile
        simp [RowStands]
      | cons x row =>
        obtain ⟨hnext, -, rfl⟩ := htile
        rw [← hnext]
        exact RowFits.rowStands ht hσ hrow rfl
    have hspan := hp.span_of_tiled ht hσ hinside (groupChars (rowShapes row))
    have hend : (t.span cell).stop =
        (t.span cell).start + byteSize (p.shape.chars ++ charsOf (rowShapes row)) := by
      rw [hstop, hrest.2, hinside, hstart, byteSize_append]
      simp only [Node.front, Node.back, byteSize_nil]
      omega
    rw [hinside] at hrest
    rw [hstart] at hstands hspan hrest
    refine ⟨rowStands_cons.mpr ⟨fun _ => ?_, hspan, hstands, hrest.1⟩, hend⟩
    rw [hσ _ (Tree.lt_of_look hlook)]
    exact Span.eq_along rfl hend

end

/-! ## Chains cut and joined -/

/-- Chains stand one after the other, unless the second starts with groups. -/
theorem rowStands_append {row' : Row} (h : ∀ f ∈ (rowShapes row').head?, f.isGroup = false) :
    RowStands σ False k (row ++ row') ↔
      RowStands σ False k row ∧ RowStands σ False (k + byteSize (charsOf (rowShapes row))) row' := by
  induction row generalizing k with
  | nil => simp [RowStands]
  | cons x row ih =>
    obtain ⟨cell, p⟩ := x
    rw [List.cons_append, rowStands_cons, rowStands_cons, ih, rowShapes_append,
      groupChars_append h, rowShapes_cons, charsOf_cons, byteSize_append, ← Nat.add_assoc]
    tauto

/-- Groups that stand one after the other do so in a chain too. -/
theorem rowStands_of_groups (h : AllStand σ False k (row.map Prod.snd))
    (hgroups : ∀ p ∈ row.map Prod.snd, p.shape.isGroup = true) : RowStands σ False k row := by
  induction row generalizing k with
  | nil => simp [RowStands]
  | cons x row ih =>
    obtain ⟨cell, p⟩ := x
    rw [List.map_cons, allStand_cons] at h
    rw [List.map_cons, List.forall_mem_cons] at hgroups
    have hblock := isBlock_of_isGroup hgroups.1
    rw [covered_of_not_isBlock hblock] at h
    rw [rowStands_cons, covered_of_not_isBlock hblock]
    exact ⟨False.elim, h.1, h.2.1, ih h.2.2 hgroups.2⟩

/-! ## Keeping a place -/

variable (σ)

/-- An element that can take the place of another: it has the same text, and where the other stands
it does too. -/
structure KeepsPlace (p q : Plan) : Prop where
  id : q.id = p.id
  isGroup : q.shape.isGroup = p.shape.isGroup
  isBlock : q.shape.isBlock = p.shape.isBlock
  chars : q.shape.chars = p.shape.chars
  stands : ∀ k, InnerStands σ False k p → InnerStands σ False k q

/-- The same for chains. What is before a chain may be a block, so the groups it starts with
matter. -/
structure RowKeepsPlace (row row' : Row) : Prop where
  groupChars : groupChars (rowShapes row') = groupChars (rowShapes row)
  chars : charsOf (rowShapes row') = charsOf (rowShapes row)
  stands : ∀ k, RowStands σ False k row → RowStands σ False k row'

variable {σ}

theorem KeepsPlace.covered (h : KeepsPlace σ p q) (after : List Char) :
    q.shape.covered after = p.shape.covered after := by
  rw [Shape.covered, Shape.covered, h.isBlock, h.chars]

theorem KeepsPlace.charsOf_middle (h : KeepsPlace σ p q) (before after : List Plan) :
    charsOf (shapes (before ++ q :: after)) = charsOf (shapes (before ++ p :: after)) := by
  simp only [shapes_append, shapes_cons, charsOf_append, charsOf_cons, h.chars]

theorem KeepsPlace.allStand_middle (h : KeepsPlace σ p q) {before after : List Plan}
    (hall : AllStand σ False k (before ++ p :: after)) :
    AllStand σ False k (before ++ q :: after) := by
  induction before generalizing k with
  | nil =>
    rw [List.nil_append, allStand_cons] at hall ⊢
    rw [h.id, h.covered, h.chars]
    exact ⟨hall.1, h.stands k hall.2.1, hall.2.2⟩
  | cons r before ih =>
    rw [List.cons_append, allStand_cons] at hall ⊢
    exact ⟨hall.1, hall.2.1, ih hall.2.2⟩

end Plan

section

variable {σ : NodeId → Span} {row row' body mid : Row} {name : String}

mutual

/-- Around what can take the place of a chain, everything keeps its place. -/
theorem RowHole.keepsPlace_plug (h : RowKeepsPlace σ row row') : ∀ hole : RowHole,
    RowKeepsPlace σ (hole.plug row) (hole.plug row')
  | .here => h
  | .after (cell, p) hole => by
    have ih := RowHole.keepsPlace_plug h hole
    rw [RowHole.plug, RowHole.plug]
    refine ⟨?_, ?_, fun k hstands => ?_⟩
    · rw [rowShapes_cons, rowShapes_cons, groupChars_cons, groupChars_cons, ih.groupChars]
    · rw [rowShapes_cons, rowShapes_cons, charsOf_cons, charsOf_cons, ih.chars]
    · rw [rowStands_cons] at hstands ⊢
      rw [ih.groupChars]
      exact ⟨False.elim, hstands.2.1, hstands.2.2.1, ih.stands _ hstands.2.2.2⟩
  | .inside cell hole rest => by
    have ih := PlanHole.keepsPlace_plug h hole
    rw [RowHole.plug, RowHole.plug]
    refine ⟨?_, ?_, fun k hstands => ?_⟩
    · rw [rowShapes_cons, rowShapes_cons, groupChars_cons, groupChars_cons, ih.isGroup, ih.chars]
    · rw [rowShapes_cons, rowShapes_cons, charsOf_cons, charsOf_cons, ih.chars]
    · rw [rowStands_cons] at hstands ⊢
      rw [ih.id, ih.covered, ih.chars]
      exact ⟨False.elim, hstands.2.1, ih.stands k hstands.2.2.1, hstands.2.2.2⟩

theorem PlanHole.keepsPlace_plug (h : RowKeepsPlace σ row row') : ∀ hole : PlanHole,
    KeepsPlace σ (hole.plug row) (hole.plug row')
  | .group n fence hole => by
    have ih := RowHole.keepsPlace_plug h hole
    rw [PlanHole.plug, PlanHole.plug]
    refine ⟨rfl, rfl, rfl, ?_, fun k hstands => ?_⟩
    · rw [shape, shape, chars, chars, ih.chars]
    · rw [InnerStands] at hstands ⊢
      exact ih.stands _ hstands
  | .script n marker hole => by
    have ih := PlanHole.keepsPlace_plug h hole
    rw [PlanHole.plug, PlanHole.plug]
    refine ⟨rfl, rfl, rfl, ?_, fun k hstands => ?_⟩
    · rw [shape, shape, chars, chars, ih.chars]
    · rw [InnerStands] at hstands ⊢
      rw [ih.id, ih.covered]
      exact ⟨hstands.1, ih.stands _ hstands.2⟩
  | .command n name before hole after => by
    have ih := PlanHole.keepsPlace_plug h hole
    rw [PlanHole.plug, PlanHole.plug]
    refine ⟨rfl, rfl, rfl, ?_, fun k hstands => ?_⟩
    · rw [shape, shape, chars, chars, ih.charsOf_middle]
    · rw [InnerStands] at hstands ⊢
      exact ih.allStand_middle hstands
  | .parameter n name before hole after body => by
    have ih := PlanHole.keepsPlace_plug h hole
    rw [PlanHole.plug, PlanHole.plug]
    refine ⟨rfl, rfl, rfl, ?_, fun k hstands => ?_⟩
    · rw [shape, shape, chars, chars, ih.charsOf_middle]
    · rw [InnerStands] at hstands ⊢
      rw [ih.charsOf_middle]
      exact ⟨ih.allStand_middle hstands.1, hstands.2⟩
  | .body n name parameters hole => by
    have ih := RowHole.keepsPlace_plug h hole
    rw [PlanHole.plug, PlanHole.plug]
    refine ⟨rfl, rfl, rfl, ?_, fun k hstands => ?_⟩
    · rw [shape, shape, chars, chars, ih.chars]
    · rw [InnerStands] at hstands ⊢
      exact ⟨hstands.1, ih.stands _ hstands.2⟩

end

/-! ## Splicing -/

theorem covered_delimiterAt (side : Delimiting) (i n c l : NodeId) (name : String) (ps : List Plan)
    (after : List Char) : (delimiterAt side i n c l name ps).shape.covered after =
      delimiterChars side name ++ charsOf (shapes ps) := by
  rw [shape_delimiterAt, covered_of_not_isBlock rfl, chars_delimiter]

theorem Plan.IsCut.charsOf_eq {place : Span} (h : IsCut σ place mid body) :
    charsOf (rowShapes body) = charsOf (rowShapes mid) := by
  rcases h with ⟨-, rfl⟩ | ⟨rfl, cell, n, rfl, -⟩
  · rfl
  · simp [shape, chars]

/-- What is cut out stands where it stood; a chain without elements stands where it was put. -/
theorem Plan.IsCut.rowStands (h : IsCut σ (Span.point k) mid body) (hmid : RowStands σ False k mid) :
    RowStands σ False k body := by
  rcases h with ⟨-, rfl⟩ | ⟨rfl, cell, n, rfl, hspan⟩
  · exact hmid
  · rw [rowStands_cons]
    exact ⟨False.elim, hspan, by rw [InnerStands]; trivial, by rw [RowStands]; trivial⟩

/-- A delimiting command stands with its name and its parameters. -/
theorem stands_delimiterAt {side : Delimiting} {i c l : NodeId}
    (h : InnerStands σ False k (delimiterAt side i n c l name ps)) :
    AllStand σ False (k + byteSize (delimiterChars side name)) ps := by
  rw [delimiterAt, InnerStands, allStand_cons] at h
  convert h.2.2 using 1
  simp only [delimiterChars, shape, chars, rowShapes_cons, rowShapes_nil, charsOf_cons, charsOf_nil,
    byteSize_cons, byteSize_append, byteSize_nil, List.append_nil]
  omega

/-- A block can take the place of two delimiting commands and all that stands between them. -/
theorem keepsPlace_splice (start stop : NodeId) {i j m c l n' c' l' : NodeId} {extras post : Row}
    (hspan : σ m = (σ i).union (σ j)) (hbody : IsCut σ (Span.point (σ i).stop) mid body)
    (hextras : ∀ p ∈ extras.map Prod.snd, p.shape.isGroup = true)
    (hpost : ∀ f ∈ (rowShapes post).head?, f.isGroup = false) :
    RowKeepsPlace σ
      ((start, delimiterAt .opens i n c l name ps) ::
        (mid ++ (stop, delimiterAt .closes j n' c' l' name (extras.map Prod.snd)) :: post))
      ((start, .block m name ps body) :: (extras ++ post)) := by
  have hchars : charsOf (shapes (extras.map Prod.snd)) = charsOf (rowShapes extras) := by
    rw [rowShapes_eq_shapes]
  refine ⟨?_, ?_, fun k h => ?_⟩
  · rw [rowShapes_cons, rowShapes_cons, groupChars_cons, groupChars_cons]
    rfl
  · simp only [rowShapes_cons, rowShapes_append, charsOf_cons, charsOf_append, shape_delimiterAt,
      chars_delimiter, shape, chars, hbody.charsOf_eq, hchars, List.append_assoc]
  · rw [rowStands_cons, covered_delimiterAt, shape_delimiterAt, chars_delimiter] at h
    obtain ⟨-, hfirst, hopening, hrest⟩ := h
    rw [rowStands_append (by simp [shape_delimiterAt, delimiter, Shape.isGroup]), rowStands_cons,
      covered_delimiterAt, shape_delimiterAt, chars_delimiter, hchars] at hrest
    obtain ⟨hmid, -, hlast, hclosing, hafter⟩ := hrest
    have hcovered : (Plan.block m name ps body).shape.covered
        (groupChars (rowShapes (extras ++ post))) =
          (Plan.block m name ps body).shape.chars ++ charsOf (rowShapes extras) := by
      rw [rowShapes_append, groupChars_append hpost, groupChars_of_forall]
      · rfl
      · rw [rowShapes_eq_shapes, shapes_eq_map]
        exact List.forall_mem_map.mpr hextras
    have hsize : byteSize (Plan.block m name ps body).shape.chars =
        byteSize (delimiterChars .opens name ++ charsOf (shapes ps)) +
          byteSize (charsOf (rowShapes mid)) + byteSize (delimiterChars .closes name) := by
      simp only [shape, chars, byteSize_append, hbody.charsOf_eq]
      omega
    rw [rowStands_cons, hcovered, InnerStands, rowStands_append hpost, hsize]
    replace hfirst : σ i = _ := hfirst
    replace hlast : σ j = _ := hlast
    refine ⟨False.elim, ?_, ⟨stands_delimiterAt hopening, ?_⟩, ?_, ?_⟩
    · rw [id_block, hspan, hfirst, hlast]
      refine (Span.union_of_le (by omega) (by omega)).trans (Span.eq_along rfl ?_)
      simp only [byteSize_append] at hsize ⊢
      omega
    · rw [hfirst] at hbody
      exact hbody.rowStands hmid
    · have hgroups := rowStands_of_groups (stands_delimiterAt hclosing) hextras
      simpa only [Nat.add_assoc] using hgroups
    · simpa only [byteSize_append, Nat.add_assoc] using hafter

theorem Spliced.keepsPlace (h : Spliced σ row row') : RowKeepsPlace σ row row' := by
  obtain ⟨hole, start, stop, hspan, hbody, hextras, hpost⟩ := h
  exact hole.keepsPlace_plug (keepsPlace_splice start stop hspan hbody hextras hpost)

/-- All through the pass, what stands in the chain keeps its place. -/
theorem keepsPlace_of_splices (h : Relation.ReflTransGen (Spliced σ) row row') :
    RowKeepsPlace σ row row' := by
  induction h with
  | refl => exact ⟨rfl, rfl, fun _ h => h⟩
  | tail _ hstep ih =>
    have hnext := hstep.keepsPlace
    exact ⟨hnext.groupChars.trans ih.groupChars, hnext.chars.trans ih.chars,
      fun k h => hnext.stands k (ih.stands k h)⟩

end

/-! ## Parts of the source -/

namespace Tree

/-- The groups right after an element in its chain. -/
def groupsAfter (t : Tree) (id : NodeId) : List NodeId :=
  match t.owningCell id with
  | none => []
  | some cell => ((t.elements cell).drop 1).takeWhile fun g => decide ((t.node g).kind = .group)

/-- Their text. -/
def groupTextAfter (t : Tree) (id : NodeId) : List Char :=
  (t.groupsAfter id).flatMap fun g => (t.nodeText g).toList

end Tree

variable {t : Tree} {up : Option NodeId} {cells : Prop} {source : List Char}

theorem Plan.Fits.isGroup_eq (h : p.Fits t up) :
    decide ((t.node p.id).kind = .group) = p.shape.isGroup := by
  rw [h.node]
  cases p with
  | script n marker operand => cases marker <;> rfl
  | literal | empty | group | command | block => rfl

theorem Plan.RowFits.groupText (h : RowFits t up row) (hn : (rowIds row).Nodup) :
    ((row.map fun x => x.2.id).takeWhile fun g => decide ((t.node g).kind = .group)).flatMap
      (fun g => (t.nodeText g).toList) = groupChars (rowShapes row) := by
  induction row generalizing up with
  | nil => rfl
  | cons x row ih =>
    obtain ⟨cell, p⟩ := x
    obtain ⟨-, hp, hrow⟩ := rowFits_pair.mp h
    rw [rowIds_cons, nodup_cons_iff, Multiset.nodup_add] at hn
    rw [List.map_cons, List.takeWhile_cons, hp.isGroup_eq, rowShapes_cons, groupChars_cons]
    split
    · rw [List.flatMap_cons, hp.nodeText hn.2.1, ih hrow hn.2.2.1]
    · rfl

/-- In a chain, the groups after an element are those that the rest starts with. -/
theorem Plan.RowFits.groupTextAfter (h : RowFits t up ((cell, p) :: row))
    (hn : (rowIds ((cell, p) :: row)).Nodup) :
    t.groupTextAfter p.id = groupChars (rowShapes row) := by
  rw [Tree.groupTextAfter, Tree.groupsAfter, h.owningCell]
  dsimp only
  rw [h.elements hn rfl, List.map_cons, List.drop_one, List.tail_cons]
  rw [rowIds_cons, nodup_cons_iff, Multiset.nodup_add] at hn
  exact (rowFits_pair.mp h).2.2.groupText hn.2.2.1

theorem Plan.Fits.groupTextAfter (h : p.Fits t (some n)) (hn : t.head n = none) :
    t.groupTextAfter p.id = [] := by
  rw [Tree.groupTextAfter, Tree.groupsAfter, h.owningCell_eq_none hn]
  rfl

namespace Part

variable {x : Part} {rest : List Char}

/-- The text of a part. -/
def chars : Part → List Char
  | .element p => p.shape.chars
  | .chain _ p rest => p.shape.chars ++ charsOf (rowShapes rest)

/-- Whether a part stands at an offset, before groups with some text. -/
def Stands (σ : NodeId → Span) (cells : Prop) (k : Nat) (after : List Char) : Part → Prop
  | .element p => σ p.id = along k (p.shape.covered after) ∧ InnerStands σ cells k p
  | .chain cell p rest => RowStands σ cells k ((cell, p) :: rest)

/-- A part of a formula stands at an offset of the source. Its text is found there, and that of the
groups after it comes next. -/
structure Standing (t : Tree) (cells : Prop) (source : List Char) (k : Nat) (after rest : List Char)
    (x : Part) : Prop where
  text : At source k (x.chars ++ (after ++ rest))
  stands : x.Stands t.span cells k after
  groups : x.isChain = false → t.groupTextAfter x.id = after

/-- A part of a formula stands somewhere in the source. -/
def Placed (t : Tree) (cells : Prop) (source : List Char) (x : Part) : Prop :=
  ∃ k after rest, x.Standing t cells source k after rest

theorem Fits.nodeText (h : x.Fits t up) (hn : x.ids.Nodup) :
    (t.nodeText x.id).toList = x.chars := by
  cases x with
  | element p => exact Plan.Fits.nodeText h hn
  | chain cell p rest =>
    have htext := RowFits.nodeText h hn rfl
    rwa [rowShapes_cons, charsOf_cons] at htext

theorem placed_ofRow (h : RowStands t.span cells k row)
    (hat : At source k (charsOf (rowShapes row) ++ rest)) :
    ∀ y ∈ ofRow row, y.Placed t cells source := by
  cases row with
  | nil => simp [ofRow]
  | cons x row =>
    rw [ofRow, List.forall_mem_singleton]
    refine ⟨k, [], rest, ?_, h, fun hchain => by cases hchain⟩
    rwa [rowShapes_cons, charsOf_cons] at hat

theorem placed_elements (hfits : AllFit t (some n) ps) (hn : t.head n = none)
    (h : AllStand t.span cells k ps) (hat : At source k (charsOf (Plan.shapes ps) ++ rest)) :
    ∀ y ∈ ps.map element, y.Placed t cells source := by
  induction ps generalizing k with
  | nil => simp
  | cons p ps ih =>
    rw [allFit_cons] at hfits
    rw [allStand_cons] at h
    rw [shapes_cons, charsOf_cons, List.append_assoc] at hat
    rw [List.map_cons, List.forall_mem_cons]
    exact ⟨⟨k, [], _, hat, ⟨h.1, h.2.1⟩, fun _ => hfits.1.groupTextAfter hn⟩,
      ih hfits.2 h.2.2 hat.append⟩

theorem Placed.children (hfits : x.Fits t up) (hn : x.ids.Nodup) (h : x.Placed t cells source) :
    ∀ y ∈ x.children, y.Placed t cells source := by
  obtain ⟨k, after, rest, hat, hstands, -⟩ := h
  cases x with
  | chain cell p row =>
    rw [Stands, rowStands_cons] at hstands
    obtain ⟨-, hspan, hinner, hrow⟩ := hstands
    rw [chars, List.append_assoc] at hat
    rw [Part.children, List.forall_mem_cons]
    refine ⟨?_, placed_ofRow hrow hat.append⟩
    rw [charsOf_eq_groupChars, List.append_assoc] at hat
    exact ⟨k, _, _, hat, ⟨hspan, hinner⟩, fun _ => RowFits.groupTextAfter hfits hn⟩
  | element p =>
    obtain ⟨-, hinner⟩ := hstands
    have hhead : t.head p.id = none := by
      rw [Tree.head, Plan.Fits.node hfits]
      cases p <;> rfl
    rw [Fits] at hfits
    cases p with
    | literal | empty => simp [Part.children]
    | group n fence inner =>
      rw [InnerStands] at hinner
      rw [chars, shape, Shape.chars, ← List.singleton_append, List.append_assoc,
        List.append_assoc] at hat
      exact placed_ofRow hinner hat.append
    | script n marker operand =>
      rw [InnerStands] at hinner
      rw [Plan.Fits] at hfits
      rw [chars, shape, Shape.chars, ← List.singleton_append, List.append_assoc] at hat
      rw [Part.children, List.forall_mem_singleton]
      exact ⟨_, [], _, hat.append, hinner, fun _ => hfits.2.groupTextAfter hhead⟩
    | command n name ps =>
      rw [InnerStands] at hinner
      rw [Plan.Fits] at hfits
      rw [chars, shape, Shape.chars, ← List.cons_append, List.append_assoc] at hat
      exact placed_elements hfits.2 hhead hinner hat.append
    | block n name ps body =>
      rw [InnerStands] at hinner
      rw [Plan.Fits] at hfits
      simp only [chars, shape, Shape.chars, List.append_assoc] at hat
      rw [Part.children, List.forall_mem_append]
      refine ⟨placed_elements hfits.2.1 hhead hinner.1 hat.append, ?_⟩
      rw [← List.append_assoc] at hat
      exact placed_ofRow hinner.2 hat.append

theorem Placed.down {y : Part} {path : List Nat} (h : x.Placed t cells source) (hfits : x.Fits t up)
    (hn : x.ids.Nodup) (hy : x.down path = some y) : y.Placed t cells source := by
  induction path generalizing x up with
  | nil =>
    obtain rfl := Option.some.inj hy
    exact h
  | cons k path ih =>
    rw [Part.down] at hy
    obtain ⟨z, hz, hy⟩ := Option.bind_eq_some_iff.mp hy
    have hmem := List.mem_of_getElem? hz
    rw [ids_eq] at hn
    exact ih (h.children hfits (ids_eq x ▸ hn) z hmem) (hfits.children z hmem)
      (Multiset.nodup_of_le (ids_le_sum hmem) (Multiset.nodup_add.mp hn).2.1) hy

/-- The span of a part holds its text, and that of a block the groups after it besides. -/
theorem Placed.holds (h : x.Placed t cells source) (hfits : x.Fits t up) (hn : x.ids.Nodup)
    (hcells : x.isChain = true → cells) :
    (t.span x.id).Holds source ((t.nodeText x.id).toList ++
      if (t.node x.id).isBlock then t.groupTextAfter x.id else []) := by
  obtain ⟨k, after, rest, hat, hstands, hgroups⟩ := h
  rw [hfits.nodeText hn]
  cases x with
  | chain cell p row =>
    rw [Stands, rowStands_cons] at hstands
    have hnode : (t.node cell).isBlock = false := by
      rw [RowFits.node hfits]
      rfl
    rw [Part.id, hstands.1 (hcells rfl), hnode, if_neg Bool.false_ne_true, List.append_nil]
    exact Span.Holds.of_at hat
  | element p =>
    have hafter : t.groupTextAfter p.id = after := hgroups rfl
    rw [Part.id, hstands.1, Plan.Fits.isBlock_eq hfits, hafter, Shape.covered]
    split
    · rw [← List.append_assoc] at hat
      exact Span.Holds.of_at hat
    · rw [List.append_nil]
      exact Span.Holds.of_at hat

end Part

namespace Tree

variable {id : NodeId} {s : String}

/-- Every node of a formula that stands at the start of a source is held by its span. -/
theorem holds_of_rowStands (hroot : nextCell row = some t.root) (hfits : RowFits t none row)
    (hn : (rowIds row).Nodup) (h : RowStands t.span cells 0 row)
    (htext : charsOf (rowShapes row) = source) (hid : t.Reaches t.root id)
    (hcells : t.isSequence id = true → cells) :
    (t.span id).Holds source ((t.nodeText id).toList ++
      if (t.node id).isBlock then t.groupTextAfter id else []) := by
  obtain ⟨p, rest, rfl⟩ := exists_of_nextCell hroot
  have hpart : (Part.chain t.root p rest).Fits t none := hfits
  have hat : At source 0 (charsOf (rowShapes ((t.root, p) :: rest)) ++ []) := by
    rw [List.append_nil, htext]
    exact At.start source
  have hplaced := Part.placed_ofRow h hat (.chain t.root p rest) (List.mem_singleton_self _)
  obtain ⟨path, hpath⟩ := hid
  replace hpath := (hpart.follow path).symm.trans hpath
  obtain ⟨y, hy, rfl⟩ := Option.map_eq_some_iff.mp hpath
  obtain ⟨up, hfits'⟩ := hpart.down hy
  rw [hfits'.isSequence] at hcells
  exact (hplaced.down hpart hn hy).holds hfits'
    (Multiset.nodup_of_le (Part.ids_le_of_down hy) hn) hcells

/-- What is read stands at the start of its source and takes all of it. -/
theorem exists_rowStands_parse (cells : Prop) (h : parse s = .ok t) :
    ∃ row, nextCell row = some t.root ∧ RowFits t none row ∧ (rowIds row).Nodup ∧
      CanonicalChain none (rowShapes row) ∧ charsOf (rowShapes row) = s.toList ∧
      (∀ σ, t.SpansIn σ → RowStands σ cells 0 row) ∧ t.span t.root = ⟨0, s.utf8ByteSize⟩ := by
  obtain ⟨fs, ⟨row, hroot, hfits, hn, rfl⟩, hcanonical, htext⟩ := parse_sound h
  obtain ⟨htiled, hstart⟩ := tiled_parse h
  have hstands : ∀ σ, t.SpansIn σ → RowStands σ cells 0 row ∧
      (t.span t.root).stop = byteSize s.toList := by
    intro σ hσ
    rw [← htext, ← Nat.zero_add (byteSize _), ← hstart]
    exact hfits.rowStands htiled hσ hroot
  refine ⟨row, hroot, hfits, hn, hcanonical, htext, fun σ hσ => (hstands σ hσ).1, ?_⟩
  rw [← Text.byteSize_toList]
  exact congrArg₂ Span.mk hstart (hstands t.span fun _ _ => rfl).2

/-- With its blocks it still stands there, but for the cells. -/
theorem exists_rowStands_parseMath (h : parseMath s = .ok t) :
    ∃ row, nextCell row = some t.root ∧ RowFits t none row ∧ (rowIds row).Nodup ∧
      charsOf (rowShapes row) = s.toList ∧ RowStands t.span False 0 row := by
  obtain ⟨t₀, hparse, hrun⟩ := exists_parse_of_parseMath h
  obtain ⟨row, hroot, hfits, hn, hcanonical, htext, hstands, -⟩ := exists_rowStands_parse False hparse
  obtain ⟨noted, row', hend, hsplices, changed, halters⟩ :=
    resolveBlocks_splices hroot hfits hn hcanonical.tameChain hrun
  have hkeeps := keepsPlace_of_splices hsplices
  -- Splicing changes no span, so those of the spliced formula are those that were read.
  exact ⟨row', hend.root, hend.fits, hend.nodup, hkeeps.chars.trans htext,
    hkeeps.stands 0 (hstands t.span (halters.spansIn fun _ _ => rfl))⟩

theorem not_isSequence_of_isBlock (h : (t.node id).isBlock = true) : t.isSequence id = false := by
  rw [isSequence]
  cases hnode : t.node id with
  | block => rfl
  | _ => simp [hnode, Node.isBlock] at h

/-- Spans are a source map. In a formula that is read, the span of every node, cells included, is
the stretch of the source at which its text stands, and that of the root is the whole source. With
its blocks resolved, this still holds of all elements but the blocks. The span of a block holds its
text and then the groups that came after the name of its end. -/
theorem spans_hold_text (s : String) :
    (∀ t, parse s = .ok t →
      t.span t.root = ⟨0, s.utf8ByteSize⟩ ∧
      ∀ id, t.Reaches t.root id → (t.span id).Holds s.toList (t.nodeText id).toList) ∧
    ∀ t, parseMath s = .ok t → ∀ id, t.Reaches t.root id →
      (t.isSequence id = false → (t.node id).isBlock = false →
        (t.span id).Holds s.toList (t.nodeText id).toList) ∧
      ((t.node id).isBlock = true →
        (t.span id).Holds s.toList ((t.nodeText id).toList ++ t.groupTextAfter id)) := by
  refine ⟨fun t h => ?_, fun t h id hid => ?_⟩
  · obtain ⟨row, hroot, hfits, hn, -, htext, hstands, hspan⟩ := exists_rowStands_parse True h
    refine ⟨hspan, fun id hid => ?_⟩
    have hholds := holds_of_rowStands hroot hfits hn (hstands t.span fun _ _ => rfl) htext hid
      fun _ => trivial
    have hlinked := Depicts.linked ⟨row, hroot, hfits, hn, rfl⟩
    have hblock := ((tiled_parse h).1 id (hlinked.lt_size_of_reaches hid)).isBlock
    rwa [hblock, if_neg Bool.false_ne_true, List.append_nil] at hholds
  · obtain ⟨row, hroot, hfits, hn, htext, hstands⟩ := exists_rowStands_parseMath h
    have hholds := fun hsequence : t.isSequence id = false =>
      holds_of_rowStands hroot hfits hn hstands htext hid fun htrue =>
        Bool.false_ne_true (hsequence.symm.trans htrue)
    refine ⟨fun hsequence hblock => ?_, fun hblock => ?_⟩
    · have hholds := hholds hsequence
      rwa [hblock, if_neg Bool.false_ne_true, List.append_nil] at hholds
    · have hholds := hholds (not_isSequence_of_isBlock hblock)
      rwa [hblock, if_pos rfl] at hholds

/-- Nested blocks after a letter of two bytes. The inner one has no body and is followed by a group,
the outer one by two. -/
theorem spans_hold_text_nested :
    let s := r"\begin{a}é\begin{b}\end{b}{}y\end{a}[2]{3}z"
    (∃ t, parse s = .ok t ∧ t.span t.root = ⟨0, s.utf8ByteSize⟩ ∧
      ∀ id, t.Reaches t.root id → (t.span id).Holds s.toList (t.nodeText id).toList) ∧
    ∃ t id, parseMath s = .ok t ∧ t.Reaches t.root id ∧ (t.node id).isBlock = true ∧
      t.groupTextAfter id = ['[', '2', ']', '{', '3', '}'] ∧
      (t.span id).Holds s.toList ((t.nodeText id).toList ++ t.groupTextAfter id) := by
  intro s
  have hparse : (parse s).isOk = true := by decide +kernel
  have hblock : ((parseMath s).toOption.map fun t =>
      (t.follow t.root [0], (t.node 39).isBlock, t.groupTextAfter 39)) =
        some (some 39, true, ['[', '2', ']', '{', '3', '}']) := by
    decide +kernel
  constructor
  · cases h : parse s with
    | error e => simp [h, Except.isOk, Except.toBool] at hparse
    | ok t => exact ⟨t, rfl, (spans_hold_text s).1 t h⟩
  · obtain ⟨t, ht, heq⟩ := Option.map_eq_some_iff.mp hblock
    simp only [Prod.mk.injEq] at heq
    obtain ⟨hpath, hnode, hgroups⟩ := heq
    have hread := eq_ok_of_toOption ht
    exact ⟨t, 39, hread, ⟨[0], hpath⟩, hnode, hgroups,
      ((spans_hold_text s).2 t hread 39 ⟨[0], hpath⟩).2 hnode⟩

end Tree

end Formulary
