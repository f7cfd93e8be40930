import Formulary.Proofs.Placeholders

/-!
# Filling in is a function of shapes

A copy of a body is filled in by two passes: the first goes over the scripts whose operand is a hash
sign, the second over the literals that held placeholders before the first. How an edit works on a
formula whose parts it works on is said once for both passes (`Works` and its companions).

What the second pass has still to do after the first is said by `Ready`: run on an element, it gives
the element that `Shape.fillInside` says. So the first pass leaves every part of a formula ready
(`Fillable`), and the two together do what `Shape.fillRow` does (`attempts_fill`).

An argument that the first pass has put in is ready with nothing to do, whatever its text. A text
outside of a chain has no place for what it asks for, and the second pass stops there. That is its
only failure for which no placeholder is to blame, and there is no such text in a regular formula.
-/

namespace Formulary.Plan

open Shape

variable {u : Use} {p : Plan} {ps : List Plan} {row : Row} {fs gs hs : List Shape}
  {f g : Shape} {marker : Marker} {fence : Fence} {name : String} {index : Nat} {rest : List Char}
  {t t' : Tree} {up : Option NodeId} {cell n : NodeId} {text : String} {s s' : Multiset NodeId}

theorem rowIds_le_cons (x : NodeId × Plan) (row : Row) : rowIds row ≤ rowIds (x :: row) := by
  rw [rowIds_cons]
  exact le_trans (Multiset.le_add_left _ _) (Multiset.le_add_left _ _)

theorem idsOf_le_cons (p : Plan) (ps : List Plan) : idsOf ps ≤ idsOf (p :: ps) := by
  rw [idsOf_cons]
  exact Multiset.le_add_left _ _

/-! ## Edits that work on a part -/

/-- A position that is no cell, beside others that are worked on. -/
structure Outside (t : Tree) (n : NodeId) (s : Multiset NodeId) : Prop where
  lt_size : n < t.size
  notMem : n ∉ s
  notCell : t.isSequence n = false

theorem Outside.mono (h : Outside t n s) (hle : s' ≤ s) : Outside t n s' :=
  ⟨h.lt_size, fun hmem => h.notMem (Multiset.mem_of_le hle hmem), h.notCell⟩

/-- Work on the others leaves it as it is. -/
theorem Outside.of_trades (h : Outside t n s) (ht : t.Trades t' s s') : Outside t' n s' := by
  refine ⟨h.lt_size.trans_le ht.keeps.size_le, fun hmem => ?_, ?_⟩
  · rcases ht.fresh n hmem with hold | hnew
    · exact h.notMem hold
    · exact absurd h.lt_size (Nat.not_lt.mpr hnew)
  · rw [Tree.isSequence, Tree.node_eq_look, ht.keeps.look_eq n h.lt_size h.notMem,
      ← Tree.node_eq_look]
    exact h.notCell

/-- A position is outside of what hangs under it. -/
theorem Fits.outside (h : p.Fits t up) (hn : p.ids.Nodup) : Outside t p.id p.inside := by
  rw [ids_eq, nodup_cons_iff] at hn
  exact ⟨h.lt_size p.id p.id_mem_ids, hn.1, h.isSequence⟩

section

variable {α : Type} (u : Use) (e : Edit Fault Unit) (out : Option α)

/-- An edit turns an element into another as said. It may fail if there is nothing to come out. -/
def Works (post : Plan → Prop) (p : Plan) : Prop :=
  ∀ t up, p.Fits t up → u.Beside t p.ids →
    Attempts u.strict e t p.ids (out = none) fun _ t' => ∃ p', Becomes t t' up p p' ∧ post p'

/-- The same for an element that is in no cell. -/
def WorksAlone (post : Plan → Prop) (p : Plan) : Prop :=
  ∀ t n, p.Fits t (some n) → Outside t n p.ids → u.Beside t p.ids →
    Attempts u.strict e t p.ids (out = none)
      fun _ t' => ∃ p', Becomes t t' (some n) p p' ∧ post p'

/-- The same for parameters. -/
def AllWork (post : List Plan → Prop) (ps : List Plan) : Prop :=
  ∀ t n, AllFit t (some n) ps → Outside t n (idsOf ps) → u.Beside t (idsOf ps) →
    Attempts u.strict e t (idsOf ps) (out = none)
      fun _ t' => ∃ ps', AllBecome t t' (some n) ps ps' ∧ post ps'

/-- The same for a chain. -/
def RowWorks (post : Row → Prop) (row : Row) : Prop :=
  ∀ t up, RowFits t up row → u.Beside t (rowIds row) →
    Attempts u.strict e t (rowIds row) (out = none)
      fun _ t' => ∃ row', RowBecomes t t' up row row' ∧ post row'

end

section

variable {α β γ : Type} {e e' : Edit Fault Unit} {out : Option α} {out' : Option β}
  {make : α → γ} {join : α → β → γ} {post inside : Plan → Prop} {inAll all : List Plan → Prop}
  {inRow allRow : Row → Prop}

/-- Work on the chain in a group is work on the group. -/
theorem RowWorks.group (h : RowWorks u e out inRow row)
    (hpost : ∀ row', inRow row' → post (.group n fence row')) :
    Works u e (out.map make) post (.group n fence row) := by
  intro t up hfits hb
  have hle : rowIds row ≤ _ := (Plan.group n fence row).inside_le
  refine (h t (some n) hfits.of_group (hb.mono hle)).mono hle Option.map_eq_none_iff.mpr ?_
  rintro - t' ⟨row', hbecomes, hrow⟩
  exact ⟨_, hbecomes.group hfits hb.nodup_left, hpost row' hrow⟩

theorem WorksAlone.script (h : WorksAlone u e out inside p)
    (hpost : ∀ p', inside p' → post (.script n marker p')) :
    Works u e (out.map make) post (.script n marker p) := by
  intro t up hfits hb
  have hle : p.ids ≤ _ := (Plan.script n marker p).inside_le
  have hout : Outside t n p.ids := hfits.outside hb.nodup_left
  refine (h t n hfits.of_script hout (hb.mono hle)).mono hle Option.map_eq_none_iff.mpr ?_
  rintro - t' ⟨p', hbecomes, hp⟩
  exact ⟨_, hbecomes.script hfits hb.nodup_left, hpost p' hp⟩

theorem AllWork.command (h : AllWork u e out inAll ps)
    (hpost : ∀ ps', inAll ps' → post (.command n name ps')) :
    Works u e (out.map make) post (.command n name ps) := by
  intro t up hfits hb
  have hle : idsOf ps ≤ _ := (Plan.command n name ps).inside_le
  have hout : Outside t n (idsOf ps) := hfits.outside hb.nodup_left
  refine (h t n hfits.of_command hout (hb.mono hle)).mono hle Option.map_eq_none_iff.mpr ?_
  rintro - t' ⟨ps', hbecome, hps⟩
  exact ⟨_, hbecome.command hfits hb.nodup_left, hpost ps' hps⟩

theorem bind_eq_none_left (h : out = none) : (do return join (← out) (← out')) = none := by
  simp [h]

theorem bind_eq_none_right (h : out' = none) : (do return join (← out) (← out')) = none := by
  simp [h]

/-- Work on the parameters and on the body of a block, in turn. -/
theorem AllWork.block (h : AllWork u e out inAll ps) (hrow : RowWorks u e' out' inRow row)
    (hpost : ∀ ps' row', inAll ps' → inRow row' → post (.block n name ps' row')) :
    Works u (do e; e') (do return join (← out) (← out')) post (.block n name ps row) := by
  intro t up hfits hb
  have hle := (Multiset.le_add_right (idsOf ps) (rowIds row)).trans
    (Plan.block n name ps row).inside_le
  have hout : Outside t n (idsOf ps) :=
    (hfits.outside hb.nodup_left).mono (Multiset.le_add_right _ _)
  refine Attempts.bind ((h t n hfits.of_block.1 hout (hb.mono hle)).mono hle bind_eq_none_left
    fun _ _ h => h) ?_
  rintro - t₁ ⟨ps', hbecome, hps⟩
  have hfirst := hbecome.block hfits hb.nodup_left
  have hle' := (Multiset.le_add_left _ (idsOf ps')).trans (Plan.block n name ps' row).inside_le
  refine ⟨_, hfirst.trades, (hrow t₁ (some n) hfirst.fits.of_block.2
    ((hb.of_trades hfirst.trades).mono hle')).mono hle' bind_eq_none_right ?_⟩
  rintro - t₂ ⟨row', hbecomes, hrow'⟩
  exact ⟨_, hfirst.trans (hbecomes.body hfirst.fits hfirst.trades.nodup), hpost ps' row' hps hrow'⟩

theorem AllWork.cons (h : WorksAlone u e out inside p) (hps : AllWork u e' out' inAll ps)
    (hpost : ∀ p' ps', inside p' → inAll ps' → all (p' :: ps')) :
    AllWork u (do e; e') (do return join (← out) (← out')) all (p :: ps) := by
  intro t n hfits hout hb
  have hle := ids_le_idsOf (List.mem_cons_self (a := p) (l := ps))
  refine Attempts.bind ((h t n (allFit_cons.mp hfits).1 (hout.mono hle) (hb.mono hle)).mono hle
    bind_eq_none_left fun _ _ h => h) ?_
  rintro - t₁ ⟨p', hbecomes, hp⟩
  have hfirst := AllBecome.head hbecomes hfits hb.nodup_left
  have hle' := idsOf_le_cons p' ps
  refine ⟨_, hfirst.trades, (hps t₁ n (allFit_cons.mp hfirst.fits).2
    ((hout.of_trades hfirst.trades).mono hle')
    ((hb.of_trades hfirst.trades).mono hle')).mono hle' bind_eq_none_right ?_⟩
  rintro - t₂ ⟨ps', hrest, hps'⟩
  exact ⟨_, hfirst.trans (hrest.tail hfirst.fits hfirst.trades.nodup), hpost p' ps' hp hps'⟩

/-- Work on the first element of a chain, and then on the rest. -/
theorem RowWorks.cons (h : Works u e out inside p) (hrow : RowWorks u e' out' inRow row)
    (hpost : ∀ p' row', inside p' → inRow row' → allRow ((cell, p') :: row')) :
    RowWorks u (do e; e') (do return join (← out) (← out')) allRow ((cell, p) :: row) := by
  intro t up hfits hb
  have hle := ids_le_rowIds (List.mem_cons_self (a := (cell, p)) (l := row))
  refine Attempts.bind ((h t (some cell) (rowFits_pair.mp hfits).2.1 (hb.mono hle)).mono hle
    bind_eq_none_left fun _ _ h => h) ?_
  rintro - t₁ ⟨p', hbecomes, hp⟩
  have hfirst := RowBecomes.head hbecomes hfits hb.nodup_left
  have hle' := rowIds_le_cons (cell, p') row
  refine ⟨_, hfirst.trades, (hrow t₁ (some cell) (rowFits_pair.mp hfirst.fits).2.2
    ((hb.of_trades hfirst.trades).mono hle')).mono hle' bind_eq_none_right ?_⟩
  rintro - t₂ ⟨row', hrest, hrow'⟩
  exact ⟨_, hfirst.trans (hrest.tail hfirst.fits hfirst.trades.nodup), hpost p' row' hp hrow'⟩

end

/-! ## What the second pass has still to do -/

section

variable (u)

/-- The second pass over some literals turns an element into what is said. -/
def Ready (ls : List NodeId) (out : Option Shape) : Plan → Prop :=
  Works u (forM ls (u.d.fillLiteral u.ids)) out fun p => out = some p.shape

/-- The same for an element that is in no cell. -/
def ReadyAlone (ls : List NodeId) (out : Option Shape) : Plan → Prop :=
  WorksAlone u (forM ls (u.d.fillLiteral u.ids)) out fun p => out = some p.shape

/-- The same for parameters. -/
def AllReady (ls : List NodeId) (out : Option (List Shape)) : List Plan → Prop :=
  AllWork u (forM ls (u.d.fillLiteral u.ids)) out fun ps => out = some (shapes ps)

/-- The same for a chain. -/
def RowReady (ls : List NodeId) (out : Option (List Shape)) : Row → Prop :=
  RowWorks u (forM ls (u.d.fillLiteral u.ids)) out fun row => out = some (rowShapes row)

end

section

variable {ls ls' : List NodeId} {out : Option Shape} {outs outs' : Option (List Shape)}

/-- There is nothing to do. -/
theorem Ready.unchanged (p : Plan) : Ready u [] (some p.shape) p := by
  intro t up h hb
  exact Attempts.of_ok rfl ⟨p, Becomes.refl h hb.nodup_left, rfl⟩

theorem Ready.alone (h : Ready u ls out p) : ReadyAlone u ls out p :=
  fun t n hfits _ hb => h t (some n) hfits hb

/-- A text outside of a chain that asks for an argument cannot be filled in. -/
theorem ReadyAlone.stray (hstray : ¬u.strict) (l : NodeId) (text : String) :
    ReadyAlone u [l] none (.literal l text) := by
  intro t n hfits hout hb
  suffices hfails : Attempts u.strict (u.d.fillLiteral u.ids l) t (literal l text).ids
      ((none : Option Shape) = none) fun _ _ => False by
    rw [List.forM_cons]
    exact hfails.bind fun _ _ => False.elim
  rw [Definition.fillLiteral]
  refine Attempts.get ?_
  refine Attempts.bind ((attempts_fillPieces (t.span l) _ (hb.mono (Multiset.zero_le _))).mono
    (Multiset.zero_le _) (fun _ => rfl) fun _ _ h => h) ?_
  rintro _ t₁ ⟨qs, rfl, hloose, htrades, -⟩
  refine ⟨_, htrades.of_new, ?_⟩
  obtain ⟨new, first, t₂, hrun, -, -, -, htrades'⟩ := run_chain (t.span l) hloose htrades.nodup
  have hnew := htrades.trans htrades'
  have hfits' := hfits.of_keeps hnew.keeps (by simp)
  have hout' := (hout.mono (Multiset.zero_le _)).of_trades hnew
  have howner : t₂.owningCell l = none := hfits'.owningCell_alone hout'.notCell
  refine Attempts.step (Edit.run_lift hrun) htrades' (Attempts.get ?_)
  rw [howner]
  exact Or.inr ⟨rfl, _, t₂, rfl, fun h => absurd h hstray, Tree.Keeps.refl t₂ _⟩

theorem RowReady.group (h : RowReady u ls outs row) (n : NodeId) (fence : Fence) :
    Ready u ls (outs.map (.group fence)) (.group n fence row) :=
  RowWorks.group h fun row' hrow => by simp [hrow, shape]

theorem ReadyAlone.script (h : ReadyAlone u ls out p) (n : NodeId) (marker : Marker) :
    Ready u ls (out.map (.script marker)) (.script n marker p) :=
  WorksAlone.script h fun p' hp => by simp [hp, shape]

theorem AllReady.command (h : AllReady u ls outs ps) (n : NodeId) (name : String) :
    Ready u ls (outs.map (.command name)) (.command n name ps) :=
  AllWork.command h fun ps' hps => by simp [hps, shape]

theorem AllReady.block (h : AllReady u ls outs ps) (hrow : RowReady u ls' outs' row) (n : NodeId)
    (name : String) :
    Ready u (ls ++ ls') (do return .block name (← outs) (← outs')) (.block n name ps row) := by
  rw [Ready, List.forM_append]
  exact AllWork.block h hrow fun ps' row' hps hrow => by simp [hps, hrow, shape]

theorem AllReady.nil : AllReady u [] (some []) [] := by
  intro t n h _ hb
  exact Attempts.of_ok rfl ⟨[], AllBecome.refl h hb.nodup_left, by simp⟩

theorem AllReady.cons (h : ReadyAlone u ls out p) (hps : AllReady u ls' outs ps) :
    AllReady u (ls ++ ls') (do return (← out) :: (← outs)) (p :: ps) := by
  rw [AllReady, List.forM_append]
  exact AllWork.cons h hps fun p' ps' hp hps => by simp [hp, hps]

theorem RowReady.nil : RowReady u [] (some []) [] := by
  intro t up h hb
  exact Attempts.of_ok rfl ⟨[], RowBecomes.refl h hb.nodup_left, by simp⟩

theorem RowReady.cons (h : Ready u ls out p) (hrow : RowReady u ls' outs row) :
    RowReady u (ls ++ ls') (do return (← out) :: (← outs)) ((cell, p) :: row) := by
  rw [RowReady, List.forM_append]
  exact RowWorks.cons h hrow fun p' row' hp hrow => by simp [hp, hrow]

/-- A text that asks for arguments is ready in a chain. -/
theorem RowReady.literal {l : NodeId} (htext : hasPlaceholder text.toList = true)
    (hrow : RowReady u ls outs row) :
    RowReady u (l :: ls) (do return (← fillText u.shapes text.toList) ++ (← outs))
      ((cell, literal l text) :: row) := by
  intro t up hfits hb
  rw [List.forM_cons, fillText, if_pos htext]
  refine Attempts.bind ((attempts_fillLiteral hfits hb).mono (le_refl _)
    (fun hnone => by simp [hnone]) fun _ _ h => h) ?_
  rintro - t₁ ⟨q, rest, fs, hsome, hfirst, hshapes⟩
  rw [hsome]
  obtain ⟨up', hfits', hlift⟩ := RowBecomes.suffix ((cell, q) :: rest) hfirst.fits
    hfirst.trades.nodup
  have hle : rowIds row ≤ rowIds ((cell, q) :: (rest ++ row)) := by
    rw [rowIds_cons, rowIds_append]
    exact le_trans (Multiset.le_add_left _ _)
      (le_trans (Multiset.le_add_left _ _) (Multiset.le_add_left _ _))
  refine ⟨_, hfirst.trades, (hrow t₁ up' hfits' ((hb.of_trades hfirst.trades).mono hle)).mono hle
    (fun hnone => by simp [hnone]) ?_⟩
  rintro - t₂ ⟨row', hbecomes, rfl⟩
  exact ⟨_, hfirst.trans (hlift hbecomes), by simp [← hshapes]⟩

end

/-! ## The first pass -/

/-- An element whose own text asks for nothing becomes one element. -/
theorem woven_of_asks (h : f.asks = false) :
    woven fs f (fillInside fs f) = (fillInside fs f).map ([·]) := by
  cases f with
  | literal text =>
    rw [asks] at h
    simp [woven, fillInside, fillText, h]
  | empty | group | script | command | block => rfl

/-- A chain is filled in element by element where no placeholder starts. -/
theorem fillRow_cons (h : ∀ g ∈ gs.head?, Shape.scriptPlaceholder? f g = none) :
    fillRow fs (f :: gs) = do return (← woven fs f (fillInside fs f)) ++ (← fillRow fs gs) := by
  cases gs with
  | nil => cases hf : woven fs f (fillInside fs f) <;> simp [fillRow, hf]
  | cons g gs => rw [fillRow, h g rfl]

theorem fillRow_cons_of_asks (h : f.asks = false)
    (hnone : ∀ g ∈ gs.head?, Shape.scriptPlaceholder? f g = none) :
    fillRow fs (f :: gs) = do return (← fillInside fs f) :: (← fillRow fs gs) := by
  rw [fillRow_cons hnone, woven_of_asks h]
  cases fillInside fs f <;> rfl

theorem hasPlaceholder_of_isAtomic (h : (Shape.literal text).isAtomic = true) :
    hasPlaceholder text.toList = false := by
  rw [Shape.isAtomic] at h
  split at h
  · rename_i heq
    simp [heq, hasPlaceholder]
  · rename_i c d heq
    obtain rfl : c = '\\' := by simpa using h
    simp [heq, hasPlaceholder]
  · cases h

/-- Operands ask for no arguments by their own text. -/
theorem asks_of_isAtomic (h : f.isAtomic = true) : f.asks = false := by
  cases f with
  | literal text => exact hasPlaceholder_of_isAtomic h
  | _ => rfl

/-- What an operand becomes is one again. -/
theorem isAtomic_of_fillInside (hf : f.isAtomic = true) (h : fillInside fs f = some g) :
    g.isAtomic = true := by
  cases f with
  | literal text =>
    rw [fillInside] at h
    rwa [← Option.some.inj h]
  | group | command =>
    rw [fillInside] at h
    obtain ⟨gs, -, rfl⟩ := Option.map_eq_some_iff.mp h
    rfl
  | empty | script | block => cases hf

theorem asks_of_isGroup (h : f.isGroup = true) : f.asks = false := by
  cases f with
  | literal text => cases h
  | _ => rfl

theorem isFillable_eq (p : Plan) : isFillable p = p.shape.asks := by
  cases p <;> rfl

section

variable (u)

/-- The first pass leaves an element ready for the second. -/
def Fillable (f : Shape) : Prop :=
  ∀ p, p.shape = f → Works u (forM (gather (idIf isHashScript) p) (u.d.fillScript u.ids))
    (fillInside u.shapes f) (Ready u (gather (idIf isFillable) p) (fillInside u.shapes f)) p

/-- The same for an element that is in no cell, and for its own text. -/
def FillableAlone (f : Shape) : Prop :=
  ∀ p, p.shape = f → WorksAlone u
    (forM (idIf isHashScript p ++ gather (idIf isHashScript) p) (u.d.fillScript u.ids))
    (alone f (fillInside u.shapes f))
    (ReadyAlone u (idIf isFillable p ++ gather (idIf isFillable) p)
      (alone f (fillInside u.shapes f))) p

/-- The same for parameters. -/
def AllFillable (fs : List Shape) : Prop :=
  ∀ ps, shapes ps = fs → AllWork u (forM (gatherAll (idIf isHashScript) ps) (u.d.fillScript u.ids))
    (fillAll u.shapes fs) (AllReady u (gatherAll (idIf isFillable) ps) (fillAll u.shapes fs)) ps

/-- The same for a chain. -/
def RowFillable (fs : List Shape) : Prop :=
  ∀ row, rowShapes row = fs →
    RowWorks u (forM (gatherRow (idIf isHashScript) row) (u.d.fillScript u.ids))
    (fillRow u.shapes fs) (RowReady u (gatherRow (idIf isFillable) row) (fillRow u.shapes fs)) row

end

/-- A hash sign that is not part of a placeholder is passed over. -/
theorem run_ownScript {d : Definition} {is : List NodeId}
    (h : isHashScript p = true → Definition.scriptPlaceholder? t p.id = none) :
    (forM (idIf isHashScript p) (d.fillScript is) : Edit Fault Unit).run.run t =
      (.ok (), t) := by
  cases hown : isHashScript p with
  | false =>
    rw [idIf_of_not hown]
    rfl
  | true =>
    rw [idIf_of hown, List.forM_cons, Edit.run_bind_of_ok (run_fillScript_of_none (h hown))]
    rfl

/-- A literal waits for the second pass. -/
theorem fillable_literal (text : String) : Fillable u (.literal text) := by
  intro p hp t up h hb
  cases p with
  | literal n text' =>
    refine Attempts.of_ok rfl ⟨_, Becomes.refl h hb.nodup_left, ?_⟩
    rw [← hp, shape, fillInside, gather]
    exact Ready.unchanged _
  | _ => simp [shape] at hp

theorem fillable_empty : Fillable u .empty := by
  intro p hp t up h hb
  cases p with
  | empty n =>
    refine Attempts.of_ok rfl ⟨_, Becomes.refl h hb.nodup_left, ?_⟩
    rw [fillInside, gather]
    exact Ready.unchanged _
  | _ => simp [shape] at hp

theorem RowFillable.group (h : RowFillable u fs) (fence : Fence) :
    Fillable u (.group fence fs) := by
  intro p hp
  cases p with
  | group n fence' inner =>
    rw [shape, Shape.group.injEq] at hp
    obtain ⟨rfl, hshapes⟩ := hp
    rw [gather, gather, fillInside]
    exact RowWorks.group (h inner hshapes) fun inner' hready => hready.group n fence'
  | _ => simp [shape] at hp

/-- Outside of a chain a hash sign is no placeholder, and a text must not ask for anything. -/
theorem Fillable.alone (hstray : f.asks = true → ¬u.strict)
    (h : Fillable u f) : FillableAlone u f := by
  rintro p rfl t n hfits hout hb
  have hscript : Definition.scriptPlaceholder? t p.id = none := by
    simp [Definition.scriptPlaceholder?, hfits.owningCell_alone hout.notCell]
  rw [List.forM_append]
  refine Attempts.step (run_ownScript fun _ => hscript)
    (Tree.Trades.refl t hb.nodup_left hfits.lt_size) ?_
  cases hasks : p.shape.asks with
  | false =>
    rw [idIf_of_not ((isFillable_eq p).trans hasks), Shape.alone, hasks]
    refine (h p rfl t (some n) hfits hb).mono (le_refl _) (fun hnone => hnone) ?_
    rintro - t' ⟨p', hbecomes, hready⟩
    exact ⟨p', hbecomes, hready.alone⟩
  | true =>
    rw [idIf_of ((isFillable_eq p).trans hasks), Shape.alone, hasks]
    cases p with
    | literal l text =>
      exact Attempts.of_ok rfl
        ⟨_, Becomes.refl hfits hb.nodup_left, ReadyAlone.stray (hstray hasks) l text⟩
    | _ => cases hasks

theorem FillableAlone.script (h : FillableAlone u f) (marker : Marker) :
    Fillable u (.script marker f) := by
  intro p hp
  cases p with
  | script n marker' operand =>
    rw [shape, Shape.script.injEq] at hp
    obtain ⟨rfl, hoperand⟩ := hp
    rw [gather, gather, fillInside]
    exact WorksAlone.script (h operand hoperand) fun operand' hready => hready.script n marker'
  | _ => simp [shape] at hp

theorem allFillable_nil : AllFillable u [] := by
  intro ps hshapes t n h _ hb
  cases ps with
  | nil =>
    rw [gatherAll_nil, gatherAll_nil, fillAll]
    exact Attempts.of_ok rfl ⟨[], AllBecome.refl h hb.nodup_left, AllReady.nil⟩
  | cons p ps => simp at hshapes

theorem FillableAlone.cons (h : FillableAlone u f)
    (hfs : AllFillable u fs) : AllFillable u (f :: fs) := by
  intro ps hshapes
  cases ps with
  | nil => simp at hshapes
  | cons p ps =>
    rw [shapes_cons, List.cons.injEq] at hshapes
    rw [gatherAll_cons, gatherAll_cons, fillAll, ← List.append_assoc, ← List.append_assoc,
      List.forM_append]
    exact AllWork.cons (h p hshapes.1) (hfs ps hshapes.2) fun _ _ => AllReady.cons

theorem AllFillable.command (h : AllFillable u fs) (name : String) :
    Fillable u (.command name fs) := by
  intro p hp
  cases p with
  | command n name' ps =>
    rw [shape, Shape.command.injEq] at hp
    obtain ⟨rfl, hshapes⟩ := hp
    rw [gather, gather, fillInside]
    exact AllWork.command (h ps hshapes) fun ps' hready => hready.command n name'
  | _ => simp [shape] at hp

theorem AllFillable.block (h : AllFillable u fs) (hbody : RowFillable u gs) (name : String) :
    Fillable u (.block name fs gs) := by
  intro p hp
  cases p with
  | block n name' ps row =>
    rw [shape, Shape.block.injEq] at hp
    obtain ⟨rfl, hshapes, hrow⟩ := hp
    rw [gather, gather, fillInside, List.forM_append]
    exact AllWork.block (h ps hshapes) (hbody row hrow) fun ps' row' hready hready' =>
      hready.block hready' n name'
  | _ => simp [shape] at hp

theorem rowFillable_nil : RowFillable u [] := by
  intro row hshapes t up h hb
  cases row with
  | nil =>
    rw [gatherRow_nil, gatherRow_nil, fillRow]
    exact Attempts.of_ok rfl ⟨[], RowBecomes.refl h hb.nodup_left, RowReady.nil⟩
  | cons x row => simp at hshapes

/-- A hash sign in a chain is passed over if no digit follows. -/
theorem RowFits.scriptPlaceholder? (h : RowFits t up ((cell, p) :: row))
    (hnone : ∀ g ∈ (rowShapes row).head?, Shape.scriptPlaceholder? p.shape g = none)
    (hown : isHashScript p = true) : Definition.scriptPlaceholder? t p.id = none := by
  obtain ⟨n, marker, o, rfl⟩ : ∃ n marker o, p = script n marker (literal o "#") := by
    unfold isHashScript at hown
    split at hown
    · rename_i n marker o text
      obtain rfl := of_decide_eq_true hown
      exact ⟨n, marker, o, rfl⟩
    · cases hown
  match row with
  | [] => exact h.scriptPlaceholder?_nil
  | (next, q) :: row =>
    have hq := hnone q.shape (by simp)
    rw [shape, shape] at hq
    refine (h.scriptPlaceholder?_cons marker).trans ?_
    rw [hq]
    rfl

theorem Fillable.cons (h : Fillable u f) (hasks : f.asks = false)
    (hnone : ∀ g ∈ fs.head?, Shape.scriptPlaceholder? f g = none)
    (hfs : RowFillable u fs) : RowFillable u (f :: fs) := by
  intro row hshapes t up hfits hb
  match row with
  | [] => simp at hshapes
  | (cell, p) :: row =>
    rw [rowShapes_cons, List.cons.injEq] at hshapes
    obtain ⟨rfl, rfl⟩ := hshapes
    rw [gatherRow_cons, gatherRow_cons, idIf_of_not ((isFillable_eq p).trans hasks),
      fillRow_cons_of_asks hasks hnone, List.nil_append, List.forM_append, List.forM_append]
    refine Attempts.step (run_ownScript (hfits.scriptPlaceholder? hnone))
      (Tree.Trades.refl t hb.nodup_left hfits.lt_size) ?_
    exact RowWorks.cons (h p rfl) (hfs row rfl) (fun _ _ => RowReady.cons) t up hfits hb

theorem RowFillable.literal (htext : hasPlaceholder text.toList = true) (hfs : RowFillable u fs) :
    RowFillable u (.literal text :: fs) := by
  intro row hshapes t up hfits hb
  match row with
  | [] => simp at hshapes
  | (cell, p) :: row =>
    rw [rowShapes_cons, List.cons.injEq] at hshapes
    obtain ⟨hshape, rfl⟩ := hshapes
    cases p with
    | literal l text' =>
      obtain rfl := Shape.literal.inj hshape
      have hown : isFillable (Plan.literal l text') = true := htext
      rw [gatherRow_cons, gatherRow_cons, idIf_of hown, gather, gather,
        fillRow_cons (by simp [Shape.scriptPlaceholder?]), woven]
      have hle := rowIds_le_cons (cell, Plan.literal l text') row
      refine (hfs row rfl t (some cell) (rowFits_pair.mp hfits).2.2 (hb.mono hle)).mono hle
        (fun hnone => by simp [hnone]) ?_
      rintro - t₁ ⟨row', hrest, hready⟩
      exact ⟨_, hrest.tail hfits hb.nodup_left, RowReady.literal htext hready⟩
    | _ => simp [shape] at hshape

/-- An element that starts no placeholder with the one after it, in front of a chain. -/
theorem RowFillable.next (h : Fillable u f)
    (hnone : ∀ g ∈ fs.head?, Shape.scriptPlaceholder? f g = none)
    (hfs : RowFillable u fs) : RowFillable u (f :: fs) := by
  cases hasks : f.asks with
  | false => exact h.cons hasks hnone hfs
  | true =>
    cases f with
    | literal text => exact hfs.literal hasks
    | _ => cases hasks

/-! ## Placeholders after a marker -/

theorem fillText_ne_nil {text : List Char} (h : fillText fs text = some gs) : gs ≠ [] := by
  rw [fillText] at h
  split at h
  · obtain ⟨hs, -, heq⟩ := Option.bind_eq_some_iff.mp h
    obtain rfl := Option.some.inj heq
    exact chain_ne_nil hs
  · obtain rfl := Option.some.inj h
    simp

/-- Nothing is filled in by nothing, and groups are filled in by groups. -/
theorem fills_form : Fills fs
    (fun f gs => gs ≠ [] ∧ (f.isGroup = true → ∀ g ∈ gs, g.isGroup = true))
    (fun fs gs => (fs ≠ [] → gs ≠ []) ∧
      ((∀ f ∈ fs, f.isGroup = true) → ∀ g ∈ gs, g.isGroup = true)) where
  literal hsome := ⟨fillText_ne_nil hsome, by simp [isGroup]⟩
  empty := by simp
  group _ _ _ _ _ := by simp [isGroup]
  script _ _ _ _ _ := by simp [isGroup]
  command _ _ _ _ _ := by simp [isGroup]
  block _ _ _ _ _ _ _ _ _ := by simp [isGroup]
  nil := by simp
  cons h h' := by
    refine ⟨fun _ => by simp [h.1], fun hfs => ?_⟩
    rw [List.forall_mem_cons] at hfs
    rw [List.forall_mem_append]
    exact ⟨h.2 hfs.1, h'.2 hfs.2⟩
  placeholder _ _ _ _ _ _ _ _ _ _ _ _ _ _ := by simp [isGroup]

theorem fillRow_ne_nil (h : fillRow fs gs = some hs) (hne : gs ≠ []) : hs ≠ [] :=
  (fills_form.fillRow h).1 hne

theorem fillRow_chain (fs gs : List Shape) : fillRow fs (chain gs) = (fillRow fs gs).map chain := by
  cases gs with
  | nil => simp [fillRow, fillInside, woven]
  | cons g gs =>
    rw [chain_cons]
    cases hrow : fillRow fs (g :: gs) with
    | none => rfl
    | some hs =>
      have hne := fillRow_ne_nil hrow (List.cons_ne_nil g gs)
      cases hs with
      | nil => exact absurd rfl hne
      | cons f hs => rfl

/-- What is left of a chain after the digit of a placeholder. -/
def afterDigit (rest : List Char) (fs : List Shape) : List Shape :=
  chain (if rest.isEmpty then fs else .literal (String.ofList rest) :: fs)

/-- A placeholder after a marker is filled in, and then the chain that is left. -/
theorem fillRow_placeholder (h : Shape.scriptPlaceholder? f g = some (marker, index, rest)) :
    fillRow fs (f :: g :: gs) = do
      return .script marker (asOperand (← argument? fs index)) ::
        (← fillRow fs (afterDigit rest gs)) := by
  rw [fillRow, h]
  dsimp only
  rw [afterDigit, fillRow_chain, fillRest]
  cases hargument : argument? fs index with
  | none => rfl
  | some operand =>
    cases hempty : rest.isEmpty with
    | true =>
      rw [if_pos rfl, if_pos rfl]
      cases fillRow fs gs <;> simp
    | false =>
      rw [if_neg Bool.false_ne_true, if_neg Bool.false_ne_true,
        fillRow_cons (by simp [Shape.scriptPlaceholder?]), woven, String.toList_ofList]
      cases fillRow fs gs <;> cases fillText fs rest <;> simp

/-- A digit does not start a placeholder. -/
theorem hasPlaceholder_digit {c : Char} (h : argumentDigit? c = some index) (rest : List Char) :
    hasPlaceholder (c :: rest) = hasPlaceholder rest := by
  have hc : c ≠ '#' := by
    rintro rfl
    cases h
  cases rest with
  | nil => rfl
  | cons d rest => simp [hasPlaceholder, hc]

theorem gatherRow_pulled {own : Plan → Bool} {fresh : NodeId} (hown : own (empty fresh) = false)
    (cell : NodeId) (row : Row) :
    gatherRow (idIf own) (pulled cell fresh row) = gatherRow (idIf own) row := by
  cases row with
  | nil => simp [pulled, idIf_of_not hown, gather]
  | cons x row => simp [pulled]

theorem rowShapes_afterDigitRow (next l fresh : NodeId) (rest : List Char) (row : Row) :
    rowShapes (afterDigitRow next l fresh rest row) = afterDigit rest (rowShapes row) := by
  rw [afterDigitRow, afterDigit]
  split
  · exact rowShapes_pulled next fresh row
  · simp [shape]

/-- Nothing but the digit has gone. -/
theorem gatherRow_afterDigitRow {own : Plan → Bool} {fresh l next : NodeId} (text : String)
    (hempty : own (empty fresh) = false)
    (hown : own (literal l text) = own (literal l (String.ofList rest)))
    (hrest : rest = [] → own (literal l text) = false) (row : Row) :
    gatherRow (idIf own) (afterDigitRow next l fresh rest row) =
      gatherRow (idIf own) ((next, literal l text) :: row) := by
  rw [afterDigitRow]
  split
  · rename_i hnil
    rw [gatherRow_pulled hempty, gatherRow_cons, idIf_of_not (hrest (List.isEmpty_iff.mp hnil)),
      gather]
    rfl
  · rw [gatherRow_cons, gatherRow_cons, idIf, idIf, hown, gather, gather]
    rfl

/-- A chain can be filled in after the digit of a placeholder. -/
theorem RowFillable.afterDigit (h : RowFillable u fs) (rest : List Char) :
    RowFillable u (afterDigit rest fs) := by
  unfold Plan.afterDigit
  split
  · cases fs with
    | nil => exact fillable_empty.cons rfl (by simp) rowFillable_nil
    | cons f fs => exact h
  · exact RowFillable.next (fillable_literal _) (by simp [Shape.scriptPlaceholder?]) h

theorem eq_literal_of_shape (h : p.shape = .literal text) : ∃ l, p = literal l text := by
  cases p with
  | literal l text' =>
    obtain rfl := Shape.literal.inj h
    exact ⟨l, rfl⟩
  | _ => simp [shape] at h

theorem eq_script_of_shape (h : p.shape = .script marker f) :
    ∃ n operand, p = script n marker operand ∧ operand.shape = f := by
  cases p with
  | script n marker' operand =>
    rw [shape, Shape.script.injEq] at h
    obtain ⟨rfl, hoperand⟩ := h
    exact ⟨n, operand, rfl, hoperand⟩
  | _ => simp [shape] at h

/-- A placeholder after a marker is filled in by the first pass. -/
theorem RowFillable.placeholder (h : Shape.scriptPlaceholder? f g = some (marker, index, rest))
    (hfs : RowFillable u fs) : RowFillable u (f :: g :: fs) := by
  intro row hshapes t up hfits hb
  match row with
  | [] | [_] => simp at hshapes
  | (cell, p) :: (next, q) :: row =>
    rw [rowShapes_cons, rowShapes_cons, List.cons.injEq, List.cons.injEq] at hshapes
    obtain ⟨hp, hq, rfl⟩ := hshapes
    rw [fillRow_placeholder h]
    obtain ⟨text, c, rfl, rfl, htext, hdigit⟩ := scriptPlaceholder?_eq_some h
    obtain ⟨n, operand, rfl, hoperand⟩ := eq_script_of_shape hp
    obtain ⟨o, rfl⟩ := eq_literal_of_shape hoperand
    obtain ⟨l, rfl⟩ := eq_literal_of_shape hq
    have hfound : Definition.scriptPlaceholder? t n = some (next, l, rest, index) := by
      refine (hfits.scriptPlaceholder?_cons marker).trans ?_
      rw [hq, h]
      rfl
    have hscript : gatherRow (idIf isHashScript) ((cell, Plan.script n marker (Plan.literal o "#")) ::
        (next, Plan.literal l text) :: row) =
          n :: gatherRow (idIf isHashScript) ((next, Plan.literal l text) :: row) := by
      rw [gatherRow_cons, gather, gather]
      rfl
    have hliteral : gatherRow (idIf isFillable) ((cell, Plan.script n marker (Plan.literal o "#")) ::
        (next, Plan.literal l text) :: row) =
          gatherRow (idIf isFillable) ((next, Plan.literal l text) :: row) := by
      rw [gatherRow_cons, gather, gather]
      rfl
    have hown : isFillable (Plan.literal l text) = hasPlaceholder rest := by
      rw [isFillable, htext, hasPlaceholder_digit hdigit]
    rw [hscript, hliteral, List.forM_cons]
    refine Attempts.bind ((attempts_fillScript hfits hb hfound).mono (le_refl _)
      (fun hnone => by simp [hnone]) fun _ _ h => h) ?_
    rintro - t₁ ⟨x, elements, fresh, hsome, hx, hfirst⟩
    have hrow := hfs.afterDigit rest (afterDigitRow next l fresh rest row)
      (rowShapes_afterDigitRow ..) t₁ (some cell) (rowFits_pair.mp hfirst.fits).2.2
      ((hb.of_trades hfirst.trades).mono (rowIds_le_cons _ _))
    rw [gatherRow_afterDigitRow text rfl rfl (fun _ => rfl),
      gatherRow_afterDigitRow text rfl (by rw [hown, isFillable, String.toList_ofList])
        (fun hnil => by rw [hown, hnil]; rfl)] at hrow
    refine ⟨_, hfirst.trades, hrow.mono (rowIds_le_cons _ _) (fun hnone => by simp [hnone]) ?_⟩
    rintro - t₂ ⟨row', hrest, hready⟩
    refine ⟨_, hfirst.trans (hrest.tail hfirst.fits hfirst.trades.nodup), ?_⟩
    have hunchanged : RowReady u _ _ ((cell, Plan.script n marker x) :: row') :=
      RowReady.cons (Ready.unchanged _) hready
    rw [shape, hx] at hunchanged
    rw [hsome]
    exact hunchanged

/-! ## Both passes -/

variable {kind : String → Prop}

mutual

/-- Every element can be filled in, a regular one where it matters. -/
theorem fillable : ∀ {f : Shape}, (u.strict → f.Regular kind) → Fillable u f
  | .literal text, _ => fillable_literal text
  | .empty, _ => fillable_empty
  | .group fence inner, h => by
    rw [Regular] at h
    exact (rowFillable h).group fence
  | .script marker operand, h => by
    rw [Regular] at h
    refine ((fillable fun hs => (h hs).2).alone fun hasks hs => ?_).script marker
    exact absurd (asks_of_isAtomic (h hs).1) (by simp [hasks])
  | .command name parameters, h => by
    rw [Regular] at h
    exact (allFillable (fun hs => (h hs).2.2) fun hs => (h hs).2.1).command name
  | .block name parameters body, h => by
    rw [Regular] at h
    exact (allFillable (fun hs => (h hs).2.2.1) fun hs => (h hs).2.1).block
      (rowFillable fun hs => (h hs).2.2.2.2) name

theorem allFillable : ∀ {fs : List Shape},
    (u.strict → RegularRow kind fs) → (u.strict → ∀ f ∈ fs, f.isGroup = true) →
      AllFillable u fs
  | [], _, _ => allFillable_nil
  | f :: fs, h, hgroup => by
    simp only [regularRow_cons, List.forall_mem_cons] at h hgroup
    refine ((fillable fun hs => (h hs).1).alone fun hasks hs => ?_).cons
      (allFillable (fun hs => (h hs).2) fun hs => (hgroup hs).2)
    exact absurd (asks_of_isGroup (hgroup hs).1) (by simp [hasks])

theorem rowFillable : ∀ {fs : List Shape}, (u.strict → RegularRow kind fs) → RowFillable u fs
  | [], _ => rowFillable_nil
  | [f], h => by
    rw [regularRow_cons] at h
    exact RowFillable.next (fillable fun hs => (h hs).1) (by simp) rowFillable_nil
  | f :: g :: fs, h => by
    rw [regularRow_cons] at h
    cases hplaceholder : Shape.scriptPlaceholder? f g with
    | none =>
      exact RowFillable.next (fillable fun hs => (h hs).1) (by simpa using hplaceholder)
        (rowFillable fun hs => (h hs).2)
    | some x =>
      exact RowFillable.placeholder hplaceholder
        (rowFillable fun hs => (regularRow_cons.mp (h hs).2).2)

end

/-- All placeholders of a chain are filled in, or one of them asks for an argument that is not
there or stands where nothing can be filled in. -/
theorem attempts_fill {first : NodeId} (h : RowFits t up row)
    (hb : u.Beside t (rowIds row)) (hfirst : nextCell row = some first)
    (hregular : u.strict → RegularRow kind (rowShapes row)) :
    Attempts u.strict (u.d.fill u.ids first) t (rowIds row)
      (fillRow u.shapes (rowShapes row) = none)
      fun _ t' => ∃ row', RowBecomes t t' up row row' ∧
        fillRow u.shapes (rowShapes row) = some (rowShapes row') := by
  have hn := hb.nodup_left
  rw [Definition.fill]
  refine Attempts.get ?_
  rw [Definition.hashScripts, Definition.placeholderLiterals,
    h.filter_visited (tells_isHashScript t) hn hfirst,
    h.filter_visited (tells_isFillable t) hn hfirst]
  refine Attempts.bind (rowFillable hregular row rfl t up h hb) ?_
  rintro - t₁ ⟨row₁, hfirst, hready⟩
  refine ⟨_, hfirst.trades, (hready t₁ up hfirst.fits (hb.of_trades hfirst.trades)).mono
    (le_refl _) (fun h => h) ?_⟩
  rintro - t₂ ⟨row₂, hsecond, hsome⟩
  exact ⟨row₂, hfirst.trans hsecond, hsome⟩

end Formulary.Plan
