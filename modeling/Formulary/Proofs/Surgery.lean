import Formulary.Proofs.InPlace
import Formulary.Tree.Surgery

/-!
# Surgery on plans

What each change of a chain does to its plan, wherever in a formula the chain stands. The cells that
hold their place keep their position and what they hang under, so everything around the chain stays
as it is.

* `RowFits.setCell`, `RowFits.setTail`: a cell gets another element, or other cells after it.
* `run_insert`, `run_delete`, `run_replace_cell`: the programs.
-/

namespace Formulary

namespace Edit

variable {ε α β : Type} {t t' : Tree}

/-- Runs an edit up to its first step. -/
theorem run_bind_of_ok {e : Edit ε α} {f : α → Edit ε β} {a : α} (h : e.run.run t = (.ok a, t')) :
    (e >>= f).run.run t = (f a).run.run t' := by
  rw [ExceptT.run_bind, Tree.run_bind_of_run h]

theorem run_bind_of_error {e : Edit ε α} {f : α → Edit ε β} {x : ε}
    (h : e.run.run t = (.error x, t')) : (e >>= f).run.run t = (.error x, t') := by
  rw [ExceptT.run_bind, Tree.run_bind_of_run h]
  rfl

theorem run_get_bind (f : Tree → Edit ε β) : (get >>= f).run.run t = (f t).run.run t := rfl

theorem run_modify_bind (g : Tree → Tree) (f : Unit → Edit ε β) :
    (modify g >>= f).run.run t = (f ()).run.run (g t) := rfl

theorem run_lift {x : StateM Tree α} {a : α} (h : x.run t = (a, t')) :
    (liftM x : Edit ε α).run.run t = (.ok a, t') := by
  rw [ExceptT.run_liftM, StateT.run_map, h]
  rfl

theorem run_lift_bind {x : StateM Tree α} {f : α → Edit ε β} {a : α} (h : x.run t = (a, t')) :
    ((liftM x : Edit ε α) >>= f).run.run t = (f a).run.run t' :=
  run_bind_of_ok (run_lift h)

theorem run_discard_of_ok {e : Edit ε α} {a : α} (h : e.run.run t = (.ok a, t')) :
    (discard e).run.run t = (.ok (), t') := by
  change (Function.const α () <$> e).run.run t = _
  rw [ExceptT.run_map, StateT.run_map, h]
  rfl

theorem run_reportedAt_of_ok {e : Edit SurgeryError α} {a : α} (h : e.run.run t = (.ok a, t'))
    (place : Span) : (e.reportedAt place).run.run t = (.ok a, t') := by
  change (Except.mapError _ <$> e.run : StateM Tree _).run t = _
  rw [StateT.run_map, h]
  rfl

theorem exists_run_of_reportedAt {e : Edit SurgeryError α} {place : Span} {r : Except Fault α}
    (h : (e.reportedAt place).run.run t = (r, t')) : ∃ r', e.run.run t = (r', t') := by
  change (Except.mapError _ <$> e.run : StateM Tree _).run t = _ at h
  rw [StateT.run_map] at h
  exact ⟨_, Prod.ext rfl (Prod.mk.inj h).2⟩

end Edit

namespace Plan

variable {cell id first : NodeId} {p p' q q' : Plan} {row rest : Row}
  {program : Edit SurgeryError NodeId} {t t' : Tree} {up up' up'' : Option NodeId}

/-! ## Cells -/

/-- A cell gets an element and further cells, wherever they hung before. -/
theorem RowFits.setCell {node : Node} (hcell : t.look cell = some (node, up)) (hp : p.Fits t up')
    (hrow : RowFits t up'' row) (hn : (rowIds ((cell, p) :: row)).Nodup) :
    RowFits (t.setCell cell p.id (nextCell row)) up ((cell, p) :: row) ∧
      t.Trades (t.setCell cell p.id (nextCell row)) (rowIds ((cell, p) :: row))
        (rowIds ((cell, p) :: row)) := by
  have hn' := hn
  rw [rowIds_cons, nodup_cons_iff, Multiset.mem_add, not_or, Multiset.nodup_add] at hn'
  obtain ⟨⟨hcp, hcrow⟩, hnp, hnrow, hdisj⟩ := hn'
  have hnext : nextCell row ≠ some cell := fun h => hcrow (nextCell_mem_rowIds h)
  have hid : cell ≠ p.id := fun h => hcp (h ▸ p.id_mem_ids)
  refine ⟨rowFits_cons.mpr ⟨?_, ?_, ?_⟩, .of_keeps ⟨by simp, by simp, fun i _ hi => ?_⟩ hn ?_⟩
  · rw [Tree.look_setCell, if_neg (by simp [hid, hnext]), if_pos rfl, hcell]
    rfl
  · refine hp.rehang hnp (fun n hlook => ?_) fun i hi hne => ?_
    · rw [Tree.look_setCell, if_pos (Or.inl rfl), hlook, Option.map_some, if_neg hid]
    · have hnot : nextCell row ≠ some i := fun h =>
        Multiset.disjoint_left.mp hdisj hi (nextCell_mem_rowIds h)
      have hcell' : cell ≠ i := fun h => hcp (h ▸ hi)
      rw [Tree.look_setCell, if_neg (by simp [hne, hnot]), if_neg hcell']
  · refine hrow.rehang hnrow (fun first n hfirst hlook => ?_) fun i hi hnot => ?_
    · have hne : cell ≠ first := fun h => hnext (h ▸ hfirst)
      rw [Tree.look_setCell, if_pos (Or.inr hfirst), hlook, Option.map_some, if_neg hne]
    · have hne : i ≠ p.id := fun h => Multiset.disjoint_left.mp hdisj p.id_mem_ids (h ▸ hi)
      have hcell' : cell ≠ i := fun h => hcrow (h ▸ hi)
      rw [Tree.look_setCell, if_neg (by simp [hne, hnot]), if_neg hcell']
  · rw [rowIds_cons, Multiset.mem_add, Multiset.mem_add, Multiset.mem_singleton, not_or,
      not_or] at hi
    have hne : i ≠ p.id := fun h => hi.2.1 (h ▸ p.id_mem_ids)
    have hnot : nextCell row ≠ some i := fun h => hi.2.2 (nextCell_mem_rowIds h)
    rw [Tree.look_setCell, if_neg (by simp [hne, hnot]), if_neg fun h => hi.1 h.symm]
  · simpa [or_imp, forall_and] using ⟨Tree.lt_of_look hcell, hp.lt_size, hrow.lt_size⟩

/-- A cell keeps its element and gets other cells after it: as if it got the element again. -/
theorem RowFits.setTail {old : Option NodeId} (hcell : t.look cell = some (.sequence p.id old, up))
    (hp : p.Fits t (some cell)) (hrow : RowFits t up' row)
    (hn : (rowIds ((cell, p) :: row)).Nodup) :
    RowFits (t.setTail cell (nextCell row)) up ((cell, p) :: row) ∧
      t.Trades (t.setTail cell (nextCell row)) (rowIds ((cell, p) :: row))
        (rowIds ((cell, p) :: row)) := by
  obtain ⟨hfits, ht⟩ := RowFits.setCell hcell hp hrow hn
  have hlook (j : NodeId) : (t.setTail cell (nextCell row)).look j =
      (t.setCell cell p.id (nextCell row)).look j := by
    rw [Tree.look_setTail hcell, Tree.look_setCell]
    by_cases hj : j = p.id
    · have hne : cell ≠ p.id := by
        rintro heq
        rw [rowIds_cons, nodup_cons_iff, heq] at hn
        exact hn.1 (Multiset.mem_add.mpr (Or.inl p.id_mem_ids))
      simp [hj, hne, hp.look]
    · by_cases heq : cell = j
      · simp [← heq, hcell, heq ▸ hj]
      · simp [hj, heq]
  exact ⟨hfits.congr fun i _ => hlook i, .of_keeps ⟨by simp, by simp, fun i hlt hi =>
    (hlook i).trans (ht.keeps.look_eq i hlt hi)⟩ hn fun i hi => by simpa using ht.lt_size i hi⟩

/-- The last cell of a stretch of a chain gets other cells after it. -/
theorem RowFits.relink {old row' : Row} {x : NodeId × Plan} (hlast : row.getLast? = some x)
    (h : RowFits t up (row ++ old)) (hrow : RowFits t up' row')
    (hn : (rowIds (row ++ row')).Nodup) :
    RowFits (t.setTail x.1 (nextCell row')) up (row ++ row') ∧
      t.Trades (t.setTail x.1 (nextCell row')) (rowIds (row ++ row')) (rowIds (row ++ row')) := by
  induction row generalizing up with
  | nil => cases hlast
  | cons y row ih =>
    obtain ⟨cell, p⟩ := y
    rw [List.cons_append] at h hn ⊢
    obtain ⟨hcell, hp, hrest⟩ := rowFits_pair.mp h
    have hsplit (row : Row) : rowIds row + ({cell} + p.ids) = rowIds ((cell, p) :: row) := by
      rw [rowIds_cons]
      ac_rfl
    cases row with
    | nil =>
      obtain rfl := Option.some.inj hlast
      exact RowFits.setTail hcell hp hrow hn
    | cons z row =>
      rw [List.getLast?_cons_cons] at hlast
      rw [← hsplit] at hn
      obtain ⟨hnrow, -, hdisj⟩ := Multiset.nodup_add.mp hn
      obtain ⟨hfits, ht⟩ := ih hlast hrest hnrow
      have hout : ∀ i ∈ {cell} + p.ids, i ∉ rowIds (z :: row ++ row') := fun i hi hmem =>
        Multiset.disjoint_left.mp hdisj hmem hi
      refine ⟨rowFits_pair.mpr ⟨?_, ?_, hfits⟩, (ht.frame hn ?_).congr (hsplit _) (hsplit _)⟩
      · exact ht.keeps.look_of_look hcell (hout cell (by simp))
      · exact hp.of_keeps ht.keeps fun i hi => hout i (by simp [hi])
      · simpa [or_imp, forall_and] using ⟨Tree.lt_of_look hcell, hp.lt_size⟩

/-- An element is hung elsewhere. -/
theorem Fits.setParent (h : p.Fits t up) (hn : p.ids.Nodup) (new : Option NodeId) :
    p.Fits (t.setParent p.id new) new ∧ t.Trades (t.setParent p.id new) p.ids p.ids := by
  refine ⟨h.rehang hn (fun n hlook => ?_) fun i hi hne => ?_, .of_keeps ?_ hn h.lt_size⟩
  · rw [Tree.look_setParent, if_pos rfl, hlook]
    rfl
  · rw [Tree.look_setParent, if_neg hne.symm]
  · exact (Tree.keeps_setParent p.id new).mono (Multiset.singleton_subset.mpr p.id_mem_ids)

/-! ## Programs -/

/-- A new cell for one of two elements is made, to come after the cell of the other one. -/
theorem RowFits.grown_beside {node : Node} (hcell : t.look cell = some (node, up))
    (hp : p.Fits t up') (hq : q.Fits t up'') (hrow : RowFits t (some cell) row)
    (hn : (rowIds ((cell, p) :: row) + q.ids).Nodup) (place : Span) :
    ∃ t', t' = t.grown (.sequence q.id (nextCell row)) place ∧ t'.look cell = some (node, up) ∧
      p.Fits t' up' ∧ RowFits t' none ((t.size, q) :: row) ∧
      t.Trades t' (rowIds ((cell, p) :: row) + q.ids) (rowIds ((cell, p) :: (t.size, q) :: row)) := by
  have hlt : ∀ i ∈ rowIds ((cell, p) :: row), i < t.size := by
    simpa [or_imp, forall_and] using ⟨Tree.lt_of_look hcell, hp.lt_size, hrow.lt_size⟩
  have ht : t.Trades t _ (q.ids + rowIds row + ({cell} + p.ids)) :=
    (Tree.Trades.refl t hn (Tree.lt_size_add hlt hq.lt_size)).congr rfl
      (by simp only [rowIds_cons]; ac_rfl)
  obtain ⟨hnew, hstep⟩ := RowFits.grown_cons hq hrow (ht.drop rfl).nodup place
  have hapart := ht.apart rfl
  exact ⟨_, rfl, hstep.keeps.look_of_look hcell (hapart cell (by simp)),
    hp.of_keeps hstep.keeps fun i hi => hapart i (by simp [hi]), hnew,
    (ht.step rfl hstep).congr rfl (by rw [rowIds_cons (cell, p)]; ac_rfl)⟩

/-- The programs that put an element beside that of a cell, with the element that the cell has then
and the one in the new cell after it. -/
inductive Inserts (cell : NodeId) (p q : Plan) : Edit SurgeryError NodeId → Plan → Plan → Prop
  | after : Inserts cell p q (Tree.insertAfter cell q.id) p q
  | before : Inserts cell p q (Tree.insertBefore cell q.id) q p

theorem run_insert (hinserts : Inserts cell p q program p' q') (h : RowFits t up ((cell, p) :: row))
    (hq : q.Fits t none) (hn : (rowIds ((cell, p) :: row) + q.ids).Nodup) :
    ∃ t', program.run.run t = (.ok t.size, t') ∧
      RowFits t' up ((cell, p') :: (t.size, q') :: row) ∧
      t.Trades t' (rowIds ((cell, p) :: row) + q.ids)
        (rowIds ((cell, p') :: (t.size, q') :: row)) := by
  obtain ⟨hcell, hp, hrow⟩ := rowFits_pair.mp h
  have hnone : t.insertionError? cell q.id = none := by
    simp [Tree.insertionError?, h.isSequence, hq.isSequence, hq.parent]
  cases hinserts with
  | after =>
    obtain ⟨_, rfl, hcell₁, hp₁, hnew, ht⟩ := RowFits.grown_beside hcell hp hq hrow hn (t.span q.id)
    obtain ⟨hrow', hstep⟩ := RowFits.setTail hcell₁ hp₁ hnew ht.nodup
    refine ⟨_, ?_, hrow', ht.trans hstep⟩
    rw [Tree.insertAfter, Edit.run_get_bind, hnone, h.tail]
    rfl
  | before =>
    have hids : rowIds ((cell, p) :: row) + p'.ids = rowIds ((cell, p') :: row) + p.ids := by
      simp only [rowIds_cons]
      ac_rfl
    rw [hids] at hn ⊢
    obtain ⟨_, rfl, hcell₁, hq₁, hnew, ht⟩ := RowFits.grown_beside hcell hq hp hrow hn (t.span cell)
    obtain ⟨hrow', hstep⟩ := RowFits.setCell hcell₁ hq₁ hnew ht.nodup
    refine ⟨_, ?_, hrow', ht.trans hstep⟩
    rw [Tree.insertBefore, Edit.run_get_bind, hnone, h.head, h.tail]
    rfl

/-- A chain after its first element was taken away: the next element comes into its cell, or an
empty one at a new position. -/
def pulled (cell fresh : NodeId) : Row → Row
  | [] => [(cell, .empty fresh)]
  | x :: row => (cell, x.2) :: row

@[simp] theorem nextCell_pulled (cell fresh : NodeId) (row : Row) :
    nextCell (pulled cell fresh row) = some cell := by
  cases row <;> rfl

@[simp] theorem rowShapes_pulled (cell fresh : NodeId) (row : Row) :
    rowShapes (pulled cell fresh row) = Shape.chain (rowShapes row) := by
  cases row <;> simp [pulled, shape]

/-- The element that is taken out hangs under nothing afterwards. -/
theorem run_delete_out (hid : t.owningCell id = some cell) (h : RowFits t up ((cell, p) :: row))
    (hn : (rowIds ((cell, p) :: row)).Nodup) :
    ∃ t', (Tree.delete id).run.run t = (.ok cell, t') ∧
      RowFits t' up (pulled cell t.size row) ∧ p.Fits t' none ∧
      t.Trades t' (rowIds ((cell, p) :: row)) (rowIds (pulled cell t.size row) + p.ids) := by
  obtain ⟨hcell, hp, hrow⟩ := rowFits_pair.mp h
  have ht₀ : t.Trades t _ (p.ids + ({cell} + rowIds row)) :=
    (Tree.Trades.refl t hn h.lt_size).congr rfl (by rw [rowIds_cons]; ac_rfl)
  obtain ⟨hp₁, hstep₁⟩ := hp.setParent (ht₀.drop rfl).nodup none
  have hapart := ht₀.apart rfl
  have hcell₁ := hstep₁.keeps.look_of_look hcell (hapart cell (by simp))
  have hrow₁ := hrow.of_keeps hstep₁.keeps fun i hi => hapart i (by simp [hi])
  cases row with
  | nil =>
    have ht₁ : t.Trades _ _ (0 + ({cell} + p.ids)) :=
      (ht₀.step rfl hstep₁).congr rfl (by simp only [rowIds_nil, zero_add, add_zero]; ac_rfl)
    -- An empty element comes into the cell.
    obtain ⟨hempty, hstep₂⟩ := Fits.grown_empty (t := t.setParent p.id none) ((t.span cell).take 0)
    have hsize : (t.setParent p.id none).size = t.size := by simp
    rw [hsize] at hempty hstep₂
    have ht₂ : t.Trades _ _ (rowIds [(cell, .empty t.size)] + p.ids) :=
      (ht₁.step rfl hstep₂).congr rfl (by
        simp only [rowIds_cons, rowIds_nil, add_zero]
        ac_rfl)
    obtain ⟨hrow', hstep₃⟩ := RowFits.setCell (hstep₂.keeps.look_of_look hcell₁ (by simp)) hempty
      (rowFits_nil : RowFits _ none []) (ht₂.drop rfl).nodup
    refine ⟨_, ?_, hrow', ?_, ht₂.step rfl hstep₃⟩
    · rw [Tree.delete, Edit.run_get_bind, hid]
      simp only [h.head, h.tail, nextCell_nil]
      rw [← hsize]
      rfl
    · exact (hp₁.of_keeps hstep₂.keeps (by simp)).of_keeps hstep₃.keeps (ht₂.apart rfl)
  | cons x row =>
    obtain ⟨next, q⟩ := x
    obtain ⟨hnext, hq, hrest⟩ := rowFits_pair.mp hrow₁
    have ht₁ : t.Trades _ _ (rowIds ((cell, q) :: row) + (p.ids + {next})) :=
      (ht₀.step rfl hstep₁).congr rfl (by simp only [rowIds_cons]; ac_rfl)
    -- The next element comes into the cell, and its own cell is cut loose.
    obtain ⟨hrow', hstep₂⟩ := RowFits.setCell hcell₁ hq hrest (ht₁.drop rfl).nodup
    have hp₂ := hp₁.of_keeps hstep₂.keeps fun i hi => ht₁.apart rfl i (by simp [hi])
    have ht₂ : t.Trades _ _ ({next} + (rowIds ((cell, q) :: row) + p.ids)) :=
      (ht₁.step rfl hstep₂).congr rfl (by ac_rfl)
    have hstep₃ := Tree.Trades.of_keeps (Tree.keeps_setParent next none) (ht₂.drop rfl).nodup
      (ht₂.drop rfl).lt_size
    have hapart := ht₂.apart rfl
    refine ⟨_, ?_, hrow'.of_keeps hstep₃.keeps fun i hi => hapart i (Multiset.mem_add.mpr (Or.inl hi)),
      hp₂.of_keeps hstep₃.keeps fun i hi => hapart i (by simp [hi]),
      ((ht₂.step rfl hstep₃).congr rfl (add_comm _ _)).drop rfl⟩
    rw [Tree.delete, Edit.run_get_bind, hid]
    simp only [h.head, h.tail, nextCell_cons, hrow.head]
    have htail : (t.setParent p.id none).tail next = nextCell row := hrow₁.tail
    rw [← htail]
    rfl

theorem run_delete (hid : t.owningCell id = some cell) (h : RowFits t up ((cell, p) :: row))
    (hn : (rowIds ((cell, p) :: row)).Nodup) :
    ∃ t', (Tree.delete id).run.run t = (.ok cell, t') ∧
      RowFits t' up (pulled cell t.size row) ∧
      t.Trades t' (rowIds ((cell, p) :: row)) (rowIds (pulled cell t.size row)) := by
  obtain ⟨t', hrun, hrow, -, htrades⟩ := run_delete_out hid h hn
  exact ⟨t', hrun, hrow, htrades.drop rfl⟩

theorem RowFits.lastCell {x : NodeId × Plan} (h : RowFits t up row) (hn : (rowIds row).Nodup)
    (hfirst : nextCell row = some first) (hlast : row.getLast? = some x) :
    t.lastCell first = x.1 := by
  rw [Tree.lastCell, h.cells hn hfirst, links, List.getLast?_map, hlast]
  rfl

/-- The last cell of a chain whose first element comes into another cell. -/
theorem RowFits.exists_last (h : RowFits t up ((first, q) :: rest))
    (hn : (rowIds ((first, q) :: rest)).Nodup) (cell : NodeId) :
    ∃ x, ((cell, q) :: rest).getLast? = some x ∧
      (if t.lastCell first = first then cell else t.lastCell first) = x.1 := by
  cases rest with
  | nil => exact ⟨_, rfl, if_pos (h.lastCell hn rfl rfl)⟩
  | cons z rest =>
    obtain ⟨x, hx⟩ : ∃ x, (z :: rest).getLast? = some x :=
      ⟨_, List.getLast?_eq_some_getLast (List.cons_ne_nil z rest)⟩
    have hlast := h.lastCell hn rfl (by rw [List.getLast?_cons_cons, hx])
    refine ⟨x, by rw [List.getLast?_cons_cons, hx], ?_⟩
    rw [hlast, if_neg fun heq => ?_]
    have hmem := cell_mem_rowIds (List.mem_of_getLast? hx)
    rw [heq] at hmem
    rw [rowIds_cons, nodup_cons_iff] at hn
    exact hn.1 (Multiset.mem_add.mpr (Or.inr hmem))

/-- A chain in the place of the element of a cell, given by its own first cell. The old element hangs
under nothing afterwards. -/
theorem run_replaceCell_out (h : RowFits t up ((cell, p) :: row))
    (hnew : RowFits t none ((first, q) :: rest))
    (hn : (rowIds ((cell, p) :: row) + rowIds ((first, q) :: rest)).Nodup) :
    ∃ t', (Tree.replaceCell cell first).run.run t = (.ok (), t') ∧
      RowFits t' up ((cell, q) :: (rest ++ row)) ∧ p.Fits t' none ∧
      t.Trades t' (rowIds ((cell, p) :: row) + rowIds ((first, q) :: rest))
        (rowIds ((cell, q) :: (rest ++ row)) + p.ids) := by
  obtain ⟨hcell, hp, hrow⟩ := rowFits_pair.mp h
  obtain ⟨-, hq, hrest⟩ := rowFits_pair.mp hnew
  have hnnew := (Multiset.nodup_add.mp hn).2.1
  have ht₀ : t.Trades t _ (p.ids + ({cell} + (q.ids + (rowIds rest + rowIds row)))) :=
    (Tree.Trades.refl t hn (Tree.lt_size_add h.lt_size hnew.lt_size)).drop (u := {first})
      (by simp only [rowIds_cons]; ac_rfl)
  -- The old element is cut loose; none of what stays hangs under it.
  obtain ⟨hp₁, hstep₁⟩ := hp.setParent (ht₀.drop rfl).nodup none
  have hapart := ht₀.apart rfl
  have hcell₁ := hstep₁.keeps.look_of_look hcell (hapart cell (by simp))
  have hq₁ := hq.of_keeps hstep₁.keeps fun i hi => hapart i (by simp [hi])
  have hrest₁ := hrest.of_keeps hstep₁.keeps fun i hi => hapart i (by simp [hi])
  have hrow₁ := hrow.of_keeps hstep₁.keeps fun i hi => hapart i (by simp [hi])
  have ht₁ : t.Trades _ _ (rowIds ((cell, q) :: rest) + (rowIds row + p.ids)) :=
    (ht₀.step rfl hstep₁).congr rfl (by rw [rowIds_cons]; ac_rfl)
  obtain ⟨hset, hstep₂⟩ := RowFits.setCell hcell₁ hq₁ hrest₁ (ht₁.drop rfl).nodup
  replace hapart := ht₁.apart rfl
  have hrow₂ := hrow₁.of_keeps hstep₂.keeps fun i hi => hapart i (by simp [hi])
  have hp₂ := hp₁.of_keeps hstep₂.keeps fun i hi => hapart i (by simp [hi])
  have ht₂ : t.Trades _ _ (rowIds ((cell, q) :: rest ++ row) + p.ids) :=
    (ht₁.step rfl hstep₂).congr rfl (by rw [rowIds_append, add_assoc])
  cases row with
  | nil =>
    simp only [List.append_nil] at ht₂ ⊢
    refine ⟨_, ?_, hset, hp₂, ht₂⟩
    rw [Tree.replaceCell, Edit.run_get_bind]
    simp only [h.head, h.tail, hnew.head, hnew.tail, nextCell_nil]
    rfl
  | cons y row =>
    obtain ⟨x, hlast, hx⟩ := hnew.exists_last hnnew cell
    obtain ⟨hlink, hstep₃⟩ := RowFits.relink hlast (by rwa [List.append_nil]) hrow₂
      (ht₂.drop rfl).nodup
    refine ⟨_, ?_, hlink, hp₂.of_keeps hstep₃.keeps (ht₂.apart rfl), ht₂.step rfl hstep₃⟩
    rw [Tree.replaceCell, Edit.run_get_bind]
    simp only [h.head, h.tail, hnew.head, hnew.tail, nextCell_cons, hx]
    rfl

theorem run_replaceCell (h : RowFits t up ((cell, p) :: row))
    (hnew : RowFits t none ((first, q) :: rest))
    (hn : (rowIds ((cell, p) :: row) + rowIds ((first, q) :: rest)).Nodup) :
    ∃ t', (Tree.replaceCell cell first).run.run t = (.ok (), t') ∧
      RowFits t' up ((cell, q) :: (rest ++ row)) ∧
      t.Trades t' (rowIds ((cell, p) :: row) + rowIds ((first, q) :: rest))
        (rowIds ((cell, q) :: (rest ++ row))) := by
  obtain ⟨t', hrun, hrow, -, htrades⟩ := run_replaceCell_out h hnew hn
  exact ⟨t', hrun, hrow, htrades.drop rfl⟩

/-! ## Replacing by something new

What is new since some store hangs under nothing of it, and the formula is not rooted there. -/

theorem ne_of_new {new : Multiset NodeId} {i j : NodeId} (hnew : t.Trades t' 0 new) (hi : i < t.size)
    (hj : j ∈ new) : j ≠ i := by
  rintro rfl
  rcases hnew.fresh j hj with hmem | hle
  · exact Multiset.notMem_zero j hmem
  · exact Nat.not_le_of_lt hi hle

theorem ne_root_of_new {new : Multiset NodeId} {i : NodeId} (hroot : t.root < t.size)
    (hnew : t.Trades t' 0 new) (hi : i ∈ new) : i ≠ t'.root := by
  rw [hnew.keeps.root_eq]
  exact ne_of_new hnew hroot hi

/-- A chain stays where it is while something new is made. -/
theorem RowFits.beside {new : Multiset NodeId} (h : RowFits t up row) (hn : (rowIds row).Nodup)
    (hnew : t.Trades t' 0 new) : RowFits t' up row ∧ t.Trades t' (rowIds row) (rowIds row + new) := by
  refine ⟨h.of_keeps hnew.keeps (by simp), ?_⟩
  exact (hnew.frame (by rwa [zero_add]) h.lt_size).congr (zero_add _) (add_comm _ _)

/-- A new chain in the place of a cell. -/
theorem run_replace_cell (h : RowFits t up ((cell, p) :: row))
    (hn : (rowIds ((cell, p) :: row)).Nodup) (hroot : t.root < t.size)
    (hnew : t.Trades t' 0 (rowIds ((first, q) :: rest)))
    (hfits : RowFits t' none ((first, q) :: rest)) :
    ∃ t'', (Tree.replace cell first).run.run t' = (.ok (), t'') ∧
      RowBecomes t t'' up ((cell, p) :: row) ((cell, q) :: (rest ++ row)) := by
  obtain ⟨h', hframe⟩ := h.beside hn hnew
  obtain ⟨t'', hrun, hrow, htrades⟩ := run_replaceCell h' hfits hframe.nodup
  refine ⟨t'', ?_, hrow, rfl, hframe.trans htrades⟩
  have hne : first ≠ t'.root := ne_root_of_new hroot hnew (by simp)
  have hparent : t'.parent first = none := Tree.parent_of_look (rowFits_pair.mp hfits).1
  rw [Tree.replace, Edit.run_get_bind, hparent]
  simp only [Option.isSome_none, Bool.false_or, beq_iff_eq, hne, if_false, h'.isSequence,
    hfits.isSequence]
  exact hrun

/-- A new element beside the one of a cell. -/
theorem run_insert_new (hinserts : Inserts cell p q program p' q')
    (h : RowFits t up ((cell, p) :: row)) (hn : (rowIds ((cell, p) :: row)).Nodup)
    (hnew : t.Trades t' 0 q.ids) (hq : q.Fits t' none) :
    ∃ t'', program.run.run t' = (.ok t'.size, t'') ∧
      RowBecomes t t'' up ((cell, p) :: row) ((cell, p') :: (t'.size, q') :: row) := by
  obtain ⟨h', hframe⟩ := h.beside hn hnew
  obtain ⟨t'', hrun, hrow, htrades⟩ := run_insert hinserts h' hq hframe.nodup
  refine ⟨t'', hrun, hrow, ?_, hframe.trans htrades⟩
  cases hinserts <;> rfl

/-- A literal gets another text. -/
theorem Fits.setText {text : String} (h : (literal id text).Fits t up) (text' : String) :
    Becomes t (t.setText id text') up (literal id text) (literal id text') := by
  rw [Fits] at h
  have hset : t.setText id text' = t.setNode id (.literal text') := by
    rw [Tree.setText, Tree.node_of_look h]
  have hkeeps : t.Keeps (t.setText id text') {id} := by
    rw [hset]
    refine ⟨by simp, by simp, fun i _ hi => ?_⟩
    rw [Tree.look_setNode, if_neg fun heq => hi (Multiset.mem_singleton.mpr heq.symm)]
  refine ⟨?_, rfl, ?_⟩
  · rw [Fits, hset, Tree.look_setNode, if_pos rfl, h]
    rfl
  · refine Tree.Trades.of_keeps hkeeps (Multiset.nodup_singleton id) fun i hi => ?_
    rw [Multiset.mem_singleton.mp hi]
    exact Tree.lt_of_look h

end Plan

end Formulary
