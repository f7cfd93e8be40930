import Formulary.Proofs.InPlace

/-!
# Holes

A plan with a hole is a plan in which the rest of one chain, from some cell on, is left open. What
is plugged into the hole hangs where the hole is, and nothing else depends on it but for the
position of its first cell. So a change of a chain deep inside a formula is a change of what is
plugged into a hole (`RowHole.becomes_plug`), and everything around is as before.
-/

namespace Formulary

mutual

/-- A chain with a hole for the rest of itself or of a chain inside. -/
inductive RowHole where
  /-- The hole is the chain. -/
  | here
  /-- The hole is after an element. -/
  | after (x : NodeId × Plan) (hole : RowHole)
  /-- The hole is inside the first element. -/
  | inside (cell : NodeId) (hole : PlanHole) (rest : List (NodeId × Plan))

/-- An element with a hole for the rest of a chain inside. -/
inductive PlanHole where
  | group (id : NodeId) (fence : Fence) (hole : RowHole)
  | script (id : NodeId) (marker : Marker) (hole : PlanHole)
  | command (id : NodeId) (name : String) (before : List Plan) (hole : PlanHole)
      (after : List Plan)
  | parameter (id : NodeId) (name : String) (before : List Plan) (hole : PlanHole)
      (after : List Plan) (body : List (NodeId × Plan))
  | body (id : NodeId) (name : String) (parameters : List Plan) (hole : RowHole)

end

mutual

/-- Fills the hole of a chain. -/
def RowHole.plug : RowHole → Row → Row
  | .here, row => row
  | .after x hole, row => x :: hole.plug row
  | .inside cell hole rest, row => (cell, hole.plug row) :: rest

/-- Fills the hole of an element. -/
def PlanHole.plug : PlanHole → Row → Plan
  | .group n fence hole, row => .group n fence (hole.plug row)
  | .script n marker hole, row => .script n marker (hole.plug row)
  | .command n name before hole after, row =>
    .command n name (before ++ hole.plug row :: after)
  | .parameter n name before hole after body, row =>
    .block n name (before ++ hole.plug row :: after) body
  | .body n name parameters hole, row => .block n name parameters (hole.plug row)

end

open Plan

mutual

/-- The positions of a chain around its hole. -/
def RowHole.ids : RowHole → Multiset NodeId
  | .here => 0
  | .after x hole => {x.1} + (x.2.ids + hole.ids)
  | .inside cell hole rest => {cell} + (hole.ids + rowIds rest)

/-- The positions of an element around its hole. -/
def PlanHole.ids : PlanHole → Multiset NodeId
  | .group n _ hole => {n} + hole.ids
  | .script n _ hole => {n} + hole.ids
  | .command n _ before hole after => {n} + (idsOf before + (hole.ids + idsOf after))
  | .parameter n _ before hole after body =>
    {n} + (idsOf before + (hole.ids + idsOf after) + rowIds body)
  | .body n _ parameters hole => {n} + (idsOf parameters + hole.ids)

end

mutual

theorem RowHole.rowIds_plug : ∀ (hole : RowHole) (row : Row),
    rowIds (hole.plug row) = hole.ids + rowIds row
  | .here, row => by simp [RowHole.plug, RowHole.ids]
  | .after x hole, row => by
    rw [RowHole.plug, rowIds_cons, RowHole.rowIds_plug hole row, RowHole.ids]
    ac_rfl
  | .inside cell hole rest, row => by
    simp only [RowHole.plug, rowIds_cons, PlanHole.ids_plug hole row, RowHole.ids]
    ac_rfl

theorem PlanHole.ids_plug : ∀ (hole : PlanHole) (row : Row),
    (hole.plug row).ids = hole.ids + rowIds row
  | .group n fence hole, row => by
    rw [PlanHole.plug, Plan.ids, RowHole.rowIds_plug hole row, PlanHole.ids, add_assoc]
  | .script n marker hole, row => by
    rw [PlanHole.plug, Plan.ids, PlanHole.ids_plug hole row, PlanHole.ids, add_assoc]
  | .command _ _ _ hole _, row | .parameter _ _ _ hole _ _, row => by
    simp only [PlanHole.plug, Plan.ids, idsOf_append, idsOf_cons, PlanHole.ids_plug hole row,
      PlanHole.ids]
    ac_rfl
  | .body n name parameters hole, row => by
    simp only [PlanHole.plug, Plan.ids, RowHole.rowIds_plug hole row, PlanHole.ids]
    ac_rfl

end

mutual

/-- What fills a hole fits wherever the hole is. -/
theorem RowHole.exists_rowFits {t : Tree} {row : Row} : ∀ {hole : RowHole} {up : Option NodeId},
    RowFits t up (hole.plug row) → ∃ up', RowFits t up' row
  | .here, up, h => ⟨up, h⟩
  | .after .., _, h => RowHole.exists_rowFits (rowFits_cons.mp h).2.2
  | .inside .., _, h => PlanHole.exists_rowFits (rowFits_pair.mp h).2.1

theorem PlanHole.exists_rowFits {t : Tree} {row : Row} : ∀ {hole : PlanHole} {up : Option NodeId},
    (hole.plug row).Fits t up → ∃ up', RowFits t up' row
  | .group n fence hole, up, h => by
    rw [PlanHole.plug, Fits] at h
    exact RowHole.exists_rowFits h.2
  | .script n marker hole, up, h => by
    rw [PlanHole.plug, Fits] at h
    exact PlanHole.exists_rowFits h.2
  | .command n name before hole after, up, h => by
    rw [PlanHole.plug, Fits] at h
    exact PlanHole.exists_rowFits (allFit_iff.mp h.2 (hole.plug row) (by simp))
  | .parameter n name before hole after body, up, h => by
    rw [PlanHole.plug, Fits] at h
    exact PlanHole.exists_rowFits (allFit_iff.mp h.2.1 (hole.plug row) (by simp))
  | .body n name parameters hole, up, h => by
    rw [PlanHole.plug, Fits] at h
    exact RowHole.exists_rowFits h.2.2

end

/-! ## Filling a hole with something else -/

section

variable {t t' : Tree} {row row' : Row}

mutual

/-- A change in place of what fills a hole is a change in place of the whole. -/
theorem RowHole.becomes_plug
    (hrow : ∀ up, RowFits t up row → RowBecomes t t' up row row') :
    ∀ (hole : RowHole) {up : Option NodeId}, RowFits t up (hole.plug row) →
      (rowIds (hole.plug row)).Nodup → RowBecomes t t' up (hole.plug row) (hole.plug row')
  | .here, up, h, _ => hrow up h
  | .after x hole, up, h, hn => by
    rw [RowHole.plug] at h hn
    have hn' := hn
    rw [rowIds_cons, nodup_cons_iff, Multiset.nodup_add] at hn'
    exact RowBecomes.tail
      (RowHole.becomes_plug hrow hole (rowFits_cons.mp h).2.2 hn'.2.2.1) h hn
  | .inside cell hole rest, up, h, hn => by
    rw [RowHole.plug] at h hn
    have hn' := hn
    rw [rowIds_cons, nodup_cons_iff, Multiset.nodup_add] at hn'
    exact RowBecomes.head
      (PlanHole.becomes_plug hrow hole (rowFits_pair.mp h).2.1 hn'.2.1) h hn

theorem PlanHole.becomes_plug
    (hrow : ∀ up, RowFits t up row → RowBecomes t t' up row row') :
    ∀ (hole : PlanHole) {up : Option NodeId}, (hole.plug row).Fits t up →
      (hole.plug row).ids.Nodup → Becomes t t' up (hole.plug row) (hole.plug row')
  | .group n fence hole, up, h, hn => by
    rw [PlanHole.plug] at h hn
    have hn' := hn
    rw [Plan.ids, nodup_cons_iff] at hn'
    exact (RowHole.becomes_plug hrow hole h.of_group hn'.2).group h hn
  | .script n marker hole, up, h, hn => by
    rw [PlanHole.plug] at h hn
    have hn' := hn
    rw [Plan.ids, nodup_cons_iff] at hn'
    exact (PlanHole.becomes_plug hrow hole h.of_script hn'.2).script h hn
  | .command n name before hole after, up, h, hn => by
    rw [PlanHole.plug] at h hn
    have hn' := hn
    rw [Plan.ids, nodup_cons_iff] at hn'
    have hp := allFit_iff.mp h.of_command (hole.plug row) (by simp)
    have hnp := Multiset.nodup_of_le (ids_le_idsOf (p := hole.plug row) (by simp)) hn'.2
    exact (AllBecome.middle (PlanHole.becomes_plug hrow hole hp hnp) before h.of_command
      hn'.2).command h hn
  | .parameter n name before hole after body, up, h, hn => by
    rw [PlanHole.plug] at h hn
    have hn' := hn
    rw [Plan.ids, nodup_cons_iff, Multiset.nodup_add] at hn'
    have hp := allFit_iff.mp h.of_block.1 (hole.plug row) (by simp)
    have hnp := Multiset.nodup_of_le (ids_le_idsOf (p := hole.plug row) (by simp)) hn'.2.1
    exact (AllBecome.middle (PlanHole.becomes_plug hrow hole hp hnp) before h.of_block.1
      hn'.2.1).block h hn
  | .body n name parameters hole, up, h, hn => by
    rw [PlanHole.plug] at h hn
    have hn' := hn
    rw [Plan.ids, nodup_cons_iff, Multiset.nodup_add] at hn'
    exact (RowHole.becomes_plug hrow hole h.of_block.2 hn'.2.2.1).body h hn

end

end

end Formulary
