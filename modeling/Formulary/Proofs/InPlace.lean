import Formulary.Proofs.Building

/-!
# Changes in place

An element of a formula becomes another at the same position: what it hangs under does not notice.
`Becomes` says this of an element, `AllBecome` of some elements that hang in one place and
`RowBecomes` of a chain, whose first cell stays. A change in place of a part is a change in place of
the whole, and this module says so for each way of being a part.
-/

namespace Formulary.Plan

variable {p p' : Plan} {ps ps' : List Plan} {row : Row} {n : NodeId} {name : String}

section

variable (t t' : Tree) (up : Option NodeId)

/-- An element became another in its place. -/
structure Becomes (p p' : Plan) : Prop where
  fits : p'.Fits t' up
  id_eq : p'.id = p.id
  trades : t.Trades t' p.ids p'.ids

/-- Some elements became others in their places. -/
structure AllBecome (ps ps' : List Plan) : Prop where
  fits : AllFit t' up ps'
  ids_eq : ps'.map Plan.id = ps.map Plan.id
  trades : t.Trades t' (idsOf ps) (idsOf ps')

/-- A chain became another in its place. -/
structure RowBecomes (row row' : Row) : Prop where
  fits : RowFits t' up row'
  next_eq : nextCell row' = nextCell row
  trades : t.Trades t' (rowIds row) (rowIds row')

end

variable {t t' t'' : Tree} {up : Option NodeId}

theorem Becomes.refl (h : p.Fits t up) (hn : p.ids.Nodup) : Becomes t t up p p :=
  ⟨h, rfl, Tree.Trades.refl t hn h.lt_size⟩

/-- Elements become others step by step. -/
theorem Becomes.trans {p'' : Plan} (h : Becomes t t' up p p') (h' : Becomes t' t'' up p' p'') :
    Becomes t t'' up p p'' :=
  ⟨h'.fits, h'.id_eq.trans h.id_eq, h.trades.trans h'.trades⟩

theorem AllBecome.refl (h : AllFit t up ps) (hn : (idsOf ps).Nodup) : AllBecome t t up ps ps :=
  ⟨h, rfl, Tree.Trades.refl t hn h.lt_size⟩

theorem AllBecome.trans {ps'' : List Plan} (h : AllBecome t t' up ps ps')
    (h' : AllBecome t' t'' up ps' ps'') : AllBecome t t'' up ps ps'' :=
  ⟨h'.fits, h'.ids_eq.trans h.ids_eq, h.trades.trans h'.trades⟩

theorem RowBecomes.refl (h : RowFits t up row) (hn : (rowIds row).Nodup) :
    RowBecomes t t up row row :=
  ⟨h, rfl, Tree.Trades.refl t hn h.lt_size⟩

theorem RowBecomes.trans {row' row'' : Row} (h : RowBecomes t t' up row row')
    (h' : RowBecomes t' t'' up row' row'') : RowBecomes t t'' up row row'' :=
  ⟨h'.fits, h'.next_eq.trans h.next_eq, h.trades.trans h'.trades⟩

/-! ## Elements -/

/-- A group stands while the chain in it becomes another. -/
theorem RowBecomes.group {fence : Fence} {inner inner' : Row}
    (h : RowBecomes t t' (some n) inner inner') (hfits : (Plan.group n fence inner).Fits t up)
    (hn : (Plan.group n fence inner).ids.Nodup) :
    Becomes t t' up (.group n fence inner) (.group n fence inner') := by
  rw [Fits] at hfits
  obtain ⟨⟨first, hfirst, hlook⟩, -⟩ := hfits
  rw [ids] at hn
  refine ⟨?_, rfl, ?_⟩
  · rw [Fits]
    refine ⟨⟨first, h.next_eq.trans hfirst, ?_⟩, h.fits⟩
    exact h.trades.keeps.look_of_look hlook (nodup_cons_iff.mp hn).1
  · rw [ids, ids]
    exact h.trades.below hlook hn

/-- A script stands while its operand becomes another. -/
theorem Becomes.script {marker : Marker} (h : Becomes t t' (some n) p p')
    (hfits : (Plan.script n marker p).Fits t up) (hn : (Plan.script n marker p).ids.Nodup) :
    Becomes t t' up (.script n marker p) (.script n marker p') := by
  rw [Fits] at hfits
  rw [ids] at hn
  refine ⟨?_, rfl, ?_⟩
  · rw [Fits, h.id_eq]
    exact ⟨h.trades.keeps.look_of_look hfits.1 (nodup_cons_iff.mp hn).1, h.fits⟩
  · rw [ids, ids]
    exact h.trades.below hfits.1 hn

/-- A command stands while its parameters become others. -/
theorem AllBecome.command (h : AllBecome t t' (some n) ps ps')
    (hfits : (Plan.command n name ps).Fits t up) (hn : (Plan.command n name ps).ids.Nodup) :
    Becomes t t' up (.command n name ps) (.command n name ps') := by
  rw [Fits] at hfits
  rw [ids] at hn
  refine ⟨?_, rfl, ?_⟩
  · rw [Fits, h.ids_eq]
    exact ⟨h.trades.keeps.look_of_look hfits.1 (nodup_cons_iff.mp hn).1, h.fits⟩
  · rw [ids, ids]
    exact h.trades.below hfits.1 hn

/-- A block stands while its parameters become others. -/
theorem AllBecome.block {body : Row} (h : AllBecome t t' (some n) ps ps')
    (hfits : (Plan.block n name ps body).Fits t up) (hn : (Plan.block n name ps body).ids.Nodup) :
    Becomes t t' up (.block n name ps body) (.block n name ps' body) := by
  rw [Fits] at hfits
  obtain ⟨⟨first, hfirst, hlook⟩, -, hbody⟩ := hfits
  rw [ids] at hn
  obtain ⟨hnot, hin⟩ := nodup_cons_iff.mp hn
  rw [Multiset.mem_add, not_or] at hnot
  refine ⟨?_, rfl, ?_⟩
  · rw [Fits, h.ids_eq]
    exact ⟨⟨first, hfirst, h.trades.keeps.look_of_look hlook hnot.1⟩, h.fits,
      hbody.of_trades h.trades hin⟩
  · rw [ids, ids]
    exact (h.trades.frame hin hbody.lt_size).below hlook hn

/-- A block stands while its body becomes another. -/
theorem RowBecomes.body {body body' : Row} (h : RowBecomes t t' (some n) body body')
    (hfits : (Plan.block n name ps body).Fits t up) (hn : (Plan.block n name ps body).ids.Nodup) :
    Becomes t t' up (.block n name ps body) (.block n name ps body') := by
  rw [Fits] at hfits
  obtain ⟨⟨first, hfirst, hlook⟩, hall, -⟩ := hfits
  rw [ids] at hn
  obtain ⟨hnot, hin⟩ := nodup_cons_iff.mp hn
  rw [Multiset.mem_add, not_or] at hnot
  have htrade := (h.trades.frame (add_comm (idsOf ps) _ ▸ hin) hall.lt_size).congr (add_comm _ _)
    (add_comm _ _)
  refine ⟨?_, rfl, ?_⟩
  · rw [Fits]
    refine ⟨⟨first, h.next_eq.trans hfirst, h.trades.keeps.look_of_look hlook hnot.2⟩, ?_, h.fits⟩
    exact hall.of_keeps h.trades.keeps fun i hi hmem =>
      Multiset.disjoint_left.mp (Multiset.nodup_add.mp hin).2.2 hi hmem
  · rw [ids, ids]
    exact htrade.below hlook hn

/-! ## Elements among others -/

theorem AllBecome.head (h : Becomes t t' up p p') (hfits : AllFit t up (p :: ps))
    (hn : (idsOf (p :: ps)).Nodup) :
    AllBecome t t' up (p :: ps) (p' :: ps) := by
  rw [allFit_cons] at hfits
  rw [idsOf_cons] at hn
  refine ⟨allFit_cons.mpr ⟨h.fits, ?_⟩, by rw [List.map_cons, List.map_cons, h.id_eq], ?_⟩
  · exact hfits.2.of_keeps h.trades.keeps fun i hi hmem =>
      Multiset.disjoint_left.mp (Multiset.nodup_add.mp hn).2.2 hmem hi
  · rw [idsOf_cons, idsOf_cons]
    exact h.trades.frame hn hfits.2.lt_size

theorem AllBecome.tail (h : AllBecome t t' up ps ps') (hfits : AllFit t up (p :: ps))
    (hn : (idsOf (p :: ps)).Nodup) :
    AllBecome t t' up (p :: ps) (p :: ps') := by
  rw [allFit_cons] at hfits
  rw [idsOf_cons, add_comm] at hn
  refine ⟨allFit_cons.mpr ⟨hfits.1.of_trades h.trades hn, h.fits⟩,
    by rw [List.map_cons, List.map_cons, h.ids_eq], ?_⟩
  rw [idsOf_cons, idsOf_cons]
  exact (h.trades.frame hn hfits.1.lt_size).congr (add_comm _ _) (add_comm _ _)

/-- One element among others becomes another, and they stay. -/
theorem AllBecome.middle {after : List Plan} (h : Becomes t t' up p p') (before : List Plan)
    (hfits : AllFit t up (before ++ p :: after)) (hn : (idsOf (before ++ p :: after)).Nodup) :
    AllBecome t t' up (before ++ p :: after) (before ++ p' :: after) := by
  induction before with
  | nil => exact AllBecome.head h hfits hn
  | cons q before ih =>
    have hn' := (Multiset.nodup_add.mp (idsOf_cons q (before ++ p :: after) ▸ hn)).2.1
    exact AllBecome.tail (ih (allFit_cons.mp hfits).2 hn') hfits hn

/-- The first element of a chain becomes another in its cell. -/
theorem RowBecomes.head {cell : NodeId} (h : Becomes t t' (some cell) p p')
    (hfits : RowFits t up ((cell, p) :: row)) (hn : (rowIds ((cell, p) :: row)).Nodup) :
    RowBecomes t t' up ((cell, p) :: row) ((cell, p') :: row) := by
  obtain ⟨hcell, -, hrow⟩ := rowFits_pair.mp hfits
  simp only [rowIds_cons] at hn
  obtain ⟨hnot, hin⟩ := nodup_cons_iff.mp hn
  rw [Multiset.mem_add, not_or] at hnot
  refine ⟨rowFits_pair.mpr ⟨?_, h.fits, hrow.of_trades h.trades hin⟩, rfl, ?_⟩
  · rw [h.id_eq]
    exact h.trades.keeps.look_of_look hcell hnot.1
  · simp only [rowIds_cons]
    exact (h.trades.frame hin hrow.lt_size).below hcell hn

/-- The rest of a chain becomes another after its first cell. -/
theorem RowBecomes.tail {cell : NodeId} {row' : Row} (h : RowBecomes t t' (some cell) row row')
    (hfits : RowFits t up ((cell, p) :: row)) (hn : (rowIds ((cell, p) :: row)).Nodup) :
    RowBecomes t t' up ((cell, p) :: row) ((cell, p) :: row') := by
  obtain ⟨hcell, hp, -⟩ := rowFits_pair.mp hfits
  simp only [rowIds_cons] at hn
  obtain ⟨hnot, hin⟩ := nodup_cons_iff.mp hn
  rw [Multiset.mem_add, not_or] at hnot
  rw [add_comm] at hin
  refine ⟨rowFits_pair.mpr ⟨?_, hp.of_trades h.trades hin, h.fits⟩, rfl, ?_⟩
  · rw [h.next_eq]
    exact h.trades.keeps.look_of_look hcell hnot.2
  · simp only [rowIds_cons]
    exact ((h.trades.frame hin hp.lt_size).congr (add_comm _ _) (add_comm _ _)).below hcell hn

/-- The rest of a chain from some cell on. -/
theorem RowBecomes.suffix (pre : Row) (h : RowFits t up (pre ++ row))
    (hn : (rowIds (pre ++ row)).Nodup) :
    ∃ up', RowFits t up' row ∧ ∀ {t' row'}, RowBecomes t t' up' row row' →
      RowBecomes t t' up (pre ++ row) (pre ++ row') := by
  induction pre generalizing up with
  | nil => exact ⟨up, h, fun hrow => hrow⟩
  | cons x pre ih =>
    rw [List.cons_append] at h hn
    have hn' := hn
    rw [rowIds_cons, nodup_cons_iff, Multiset.nodup_add] at hn'
    obtain ⟨up', hfits, hlift⟩ := ih (rowFits_cons.mp h).2.2 hn'.2.2.1
    exact ⟨up', hfits, fun hrow => RowBecomes.tail (hlift hrow) h hn⟩

end Formulary.Plan
