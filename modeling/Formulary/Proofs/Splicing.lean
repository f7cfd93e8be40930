import Formulary.Block
import Formulary.Proofs.Footprint
import Formulary.Proofs.Markers

/-!
# Putting a block in the place of its delimiting commands

The programs that build a block out of a stretch of a chain, on plans: `run_cutBetween` for the body,
`run_insertAllAfter` for what is left over from the closing command, and `run_spliceBlock` for the
whole.
-/

namespace Formulary

variable {cell : NodeId}

theorem Tree.isSequence_of_look {t : Tree} {head : NodeId} {tail up : Option NodeId}
    (h : t.look cell = some (.sequence head tail, up)) : t.isSequence cell = true := by
  rw [isSequence, node_of_look h]
  rfl

theorem Tree.alters_insertAllAfter {t t' : Tree} {nodes : List NodeId}
    (hrun : (insertAllAfter cell nodes).run.run t = (.ok (), t')) :
    ∃ changed, t.Alters t' changed := by
  induction nodes generalizing t cell with
  | nil =>
    obtain rfl : t = t' := (Prod.mk.inj hrun).2
    exact ⟨[], Alters.refl t []⟩
  | cons node nodes ih =>
    rw [insertAllAfter, Edit.run_modify_bind] at hrun
    rcases hinsert : (insertAfter cell node).run.run (t.setParent node none) with ⟨e | next, t₁⟩
    · rw [Edit.run_bind_of_error hinsert] at hrun
      cases (Prod.mk.inj hrun).1
    · rw [Edit.run_bind_of_ok hinsert] at hrun
      obtain ⟨changed, halters⟩ := ih hrun
      exact ⟨_, ((alters_setParent node none).append (alters_insertAfter hinsert)).append halters⟩

namespace Plan

variable {t : Tree} {up : Option NodeId} {p q : Plan} {qs ps : List Plan} {post mid row : Row}
  {first : NodeId}

/-- Elements are put after a cell, wherever they hung before. -/
theorem run_insertAllAfter (h : RowFits t up ((cell, p) :: row)) (hqs : Loose t qs)
    (hn : (rowIds ((cell, p) :: row) + idsOf qs).Nodup) :
    ∃ (t' : Tree) (new : Row),
      (Tree.insertAllAfter cell (qs.map Plan.id)).run.run t = (.ok (), t') ∧
      RowFits t' up ((cell, p) :: (new ++ row)) ∧ new.map Prod.snd = qs ∧
      t.Trades t' (rowIds ((cell, p) :: row) + idsOf qs) (rowIds ((cell, p) :: (new ++ row))) := by
  induction qs generalizing t up cell p with
  | nil =>
    rw [idsOf_nil, add_zero] at hn ⊢
    exact ⟨t, [], rfl, h, rfl, Tree.Trades.refl t hn h.lt_size⟩
  | cons q qs ih =>
    obtain ⟨up', hq⟩ := hqs q List.mem_cons_self
    have ht₀ : t.Trades t _ (q.ids + (rowIds ((cell, p) :: row) + idsOf qs)) :=
      (Tree.Trades.refl t hn (Tree.lt_size_add h.lt_size hqs.lt_size)).congr rfl
        (by rw [idsOf_cons]; ac_rfl)
    -- The element is cut loose and put after the cell; the others come after it.
    obtain ⟨hq₁, hstep₁⟩ := hq.setParent (ht₀.drop rfl).nodup none
    have hapart := ht₀.apart rfl
    have h₁ := h.of_keeps hstep₁.keeps fun i hi => hapart i (Multiset.mem_add.mpr (Or.inl hi))
    have hqs₁ := hqs.tail.of_keeps hstep₁.keeps fun i hi => hapart i (by simp [hi])
    have ht₁ : t.Trades _ _ (rowIds ((cell, p) :: row) + q.ids + idsOf qs) :=
      (ht₀.step rfl hstep₁).congr rfl (by ac_rfl)
    obtain ⟨t₂, hrun, hrow₂, hstep₂⟩ := run_insert .after h₁ hq₁ (ht₁.drop rfl).nodup
    rw [Tree.size_setParent] at hrun hrow₂ hstep₂
    obtain ⟨hcell, hp, hrest⟩ := rowFits_pair.mp hrow₂
    have hqs₂ := hqs₁.of_keeps hstep₂.keeps (ht₁.apart rfl)
    have ht₂ : t.Trades _ _ (rowIds ((t.size, q) :: row) + idsOf qs + ({cell} + p.ids)) :=
      (ht₁.step rfl hstep₂).congr rfl (by rw [rowIds_cons (cell, p)]; ac_rfl)
    obtain ⟨t₃, new, hrun', hrow₃, hnew, hstep₃⟩ := ih hrest hqs₂ (ht₂.drop rfl).nodup
    replace hapart := ht₂.apart rfl
    refine ⟨t₃, (t.size, q) :: new, ?_, ?_, by rw [List.map_cons, hnew], ?_⟩
    · rw [List.map_cons, Tree.insertAllAfter, Edit.run_modify_bind, Edit.run_bind_of_ok hrun]
      exact hrun'
    · exact rowFits_pair.mpr ⟨hstep₃.keeps.look_of_look hcell (hapart cell (by simp)),
        hp.of_keeps hstep₃.keeps fun i hi => hapart i (by simp [hi]), hrow₃⟩
    · refine (ht₂.step rfl hstep₃).congr rfl ?_
      simp only [List.cons_append, rowIds_cons]
      ac_rfl

/-- The cell right before another one of its chain. -/
theorem RowFits.find?_links {pre : Row} {last : NodeId} {x : NodeId × Plan}
    (h : RowFits t up (pre ++ (last, q) :: post)) (hn : (rowIds (pre ++ (last, q) :: post)).Nodup)
    (hlast : pre.getLast? = some x) :
    (links (pre ++ (last, q) :: post)).find? (fun y => t.tail y.1 == some last) =
      some (x.1, x.2.id) := by
  induction pre generalizing up with
  | nil => cases hlast
  | cons y pre ih =>
    obtain ⟨cell, p⟩ := y
    rw [List.cons_append] at h hn
    have htail := h.tail
    rw [List.cons_append, links_cons, List.find?_cons]
    cases pre with
    | nil =>
      obtain rfl := Option.some.inj hlast
      simp [htail]
    | cons z pre =>
      rw [List.getLast?_cons_cons] at hlast
      have hne : z.1 ≠ last := by
        rintro rfl
        simp only [List.cons_append, rowIds_cons, rowIds_append] at hn
        rw [nodup_cons_iff, Multiset.nodup_add, nodup_cons_iff] at hn
        exact hn.2.2.1.1 (by simp)
      rw [rowIds_cons, nodup_cons_iff, Multiset.nodup_add] at hn
      simp only [htail, List.cons_append, nextCell_cons, Option.some_beq_some,
        beq_eq_false_iff_ne.mpr hne]
      exact ih (rowFits_pair.mp h).2.2 hn.2.2.1 hlast

theorem RowFits.setParent (h : RowFits t up row) (hfirst : nextCell row = some first)
    (hn : (rowIds row).Nodup) (new : Option NodeId) :
    RowFits (t.setParent first new) new row ∧
      t.Trades (t.setParent first new) (rowIds row) (rowIds row) := by
  refine ⟨h.rehang hn (fun i n hi hlook => ?_) fun i hi hne => ?_, .of_keeps ?_ hn h.lt_size⟩
  · obtain rfl := Option.some.inj (hfirst.symm.trans hi)
    rw [Tree.look_setParent, if_pos rfl, hlook]
    rfl
  · have hne' : first ≠ i := fun heq => hne (heq ▸ hfirst)
    rw [Tree.look_setParent, if_neg hne']
  · exact (Tree.keeps_setParent first new).mono
      (Multiset.singleton_subset.mpr (nextCell_mem_rowIds hfirst))

/-- A chain without elements is one empty element at a place. -/
theorem run_chain_nil (place : Span) :
    ∃ cell t', (Tree.chain place []).run t = (cell, t') ∧ RowFits t' none [(cell, .empty t.size)] ∧
      t.Trades t' 0 (rowIds [(cell, .empty t.size)]) ∧ t.size < t'.size ∧
      t'.span t.size = place := by
  obtain ⟨hempty, htrades⟩ := Fits.grown_empty (t := t) place
  obtain ⟨hrow, htrades'⟩ := RowFits.grown_cons hempty (rowFits_nil : RowFits _ none [])
    (by simp [ids]) place
  refine ⟨_, _, rfl, hrow, htrades.trans (htrades'.congr (by simp) rfl), ?_, ?_⟩
  · exact hrow.lt_size t.size (by simp [ids])
  · have hcell := Tree.alters_grown (t := t.grown .empty place) (.sequence t.size none) place
    exact (hcell.span_eq t.size (by simp)).trans (Tree.span_grown .empty place)

/-- What is cut out between two cells: the chain that stood there, or a chain without elements at a
place. -/
def IsCut (σ : NodeId → Span) (place : Span) (mid body : Row) : Prop :=
  (mid ≠ [] ∧ body = mid) ∨ (mid = [] ∧ ∃ cell n, body = [(cell, .empty n)] ∧ σ n = place)

/-- What stands between two cells becomes a chain of its own; if nothing does, the new chain is
empty. -/
theorem run_cutBetween {last : NodeId} (h : RowFits t up ((first, p) :: (mid ++ (last, q) :: post)))
    (hn : (rowIds ((first, p) :: (mid ++ (last, q) :: post))).Nodup) (place : Span) :
    ∃ (body : Row) (start : NodeId) (t' : Tree),
      (Tree.cutBetween first last place).run t = (start, t') ∧ nextCell body = some start ∧
      RowFits t' none body ∧ rowShapes body = Shape.chain (rowShapes mid) ∧
      (∀ noted, gatherRow (delims noted) body = gatherRow (delims noted) mid) ∧
      t.Trades t' (rowIds mid) (rowIds body) ∧ (∀ σ, t'.SpansIn σ → IsCut σ place mid body) ∧
      ∃ changed, t.Alters t' changed := by
  have htail : t.tail first = nextCell (mid ++ (last, q) :: post) := h.tail
  obtain ⟨-, -, hrest⟩ := rowFits_pair.mp h
  rw [rowIds_cons, nodup_cons_iff, Multiset.nodup_add] at hn
  have hnrest := hn.2.2.1
  cases mid with
  | nil =>
    obtain ⟨cell, t', hrun, hbody, htrades, hlt, hspan⟩ := run_chain_nil (t := t) place
    refine ⟨[(cell, .empty t.size)], cell, t', ?_, rfl, hbody, by simp [shape], ?_, htrades,
      fun σ hσ => Or.inr ⟨rfl, cell, t.size, rfl, (hσ _ hlt).trans hspan⟩, [],
      (Tree.grows_chain place []).alters hrun⟩
    · rw [Tree.cutBetween, Tree.run_get_bind, htail, List.nil_append, nextCell_cons,
        Option.filter_some_neg (by simp)]
      exact hrun
    · simp [gather, delims]
  | cons y mid =>
    obtain ⟨start, r⟩ := y
    obtain ⟨x, hx⟩ : ∃ x, ((start, r) :: mid).getLast? = some x :=
      ⟨_, List.getLast?_eq_some_getLast (List.cons_ne_nil _ mid)⟩
    have hnmid := (Multiset.nodup_add.mp (rowIds_append _ _ ▸ hnrest)).1
    obtain ⟨hcut, hstep₁⟩ := RowFits.relink hx hrest (rowFits_nil : RowFits t none [])
      (by rwa [List.append_nil])
    rw [List.append_nil] at hcut hstep₁
    obtain ⟨hhung, hstep₂⟩ := hcut.setParent rfl hnmid none
    refine ⟨(start, r) :: mid, start, _, ?_, rfl, hhung, by simp, fun _ => rfl,
      hstep₁.trans hstep₂, fun _ _ => Or.inl ⟨List.cons_ne_nil _ _, rfl⟩, _,
      (Tree.alters_setTail x.1 none).append (Tree.alters_setParent start none)⟩
    · have hne : start ≠ last := by
        rintro rfl
        simp only [List.cons_append, rowIds_cons, rowIds_append] at hnrest
        rw [nodup_cons_iff] at hnrest
        exact hnrest.1 (by simp)
      have hfind := hrest.find?_links hnrest hx
      rw [Tree.cutBetween, Tree.run_get_bind, htail, List.cons_append, nextCell_cons,
        Option.filter_some_pos (by simpa using hne)]
      have hcells : t.cells start = links ((start, r) :: mid ++ (last, q) :: post) :=
        hrest.cells hnrest rfl
      dsimp only
      rw [hcells, hfind]
      rfl

/-- A block in the place of the element of a cell, and other elements right after it. Two elements
that nothing uses any more are cut loose. -/
theorem run_putBlock {start a b begins : NodeId} {head : NodeId} {next up' up'' : Option NodeId}
    {body : Row} (hstart : t.look start = some (.sequence head next, up)) (hps : Loose t ps)
    (hbody : RowFits t up' body) (hbegins : nextCell body = some begins) (hqs : Loose t qs)
    (hpost : RowFits t up'' post)
    (hn : (idsOf ps + rowIds body + (idsOf qs + (rowIds post + ({start} + ({a} + {b}))))).Nodup)
    (hlt : ∀ i ∈ idsOf ps + rowIds body + (idsOf qs + (rowIds post + ({start} + ({a} + {b})))),
      i < t.size) (name : String) (place : Span) :
    ∃ (t' : Tree) (extras : Row),
      (Tree.insertAllAfter start (qs.map Plan.id)).run.run
        ((((t.grown (.block name (ps.map Plan.id) begins) place).setParent a none).setParent b
          none).setCell start t.size (nextCell post)) = (.ok (), t') ∧
      RowFits t' up ((start, .block t.size name ps body) :: (extras ++ post)) ∧
      extras.map Prod.snd = qs ∧
      t.Trades t' (idsOf ps + rowIds body + (idsOf qs + (rowIds post + ({start} + ({a} + {b})))))
        (rowIds ((start, .block t.size name ps body) :: (extras ++ post))) ∧
      ∃ changed, (t.grown (.block name (ps.map Plan.id) begins) place).Alters t' changed := by
  have ht₁ := Tree.Trades.refl t hn hlt
  obtain ⟨hblock, hstep₂⟩ := AllFit.grown_block hps hbody hbegins (ht₁.drop rfl).nodup name place
  have hapart := ht₁.apart rfl
  have hstart₂ := hstep₂.keeps.look_of_look hstart (hapart start (by simp))
  have hpost₂ := hpost.of_keeps hstep₂.keeps fun i hi => hapart i (by simp [hi])
  have hqs₂ := hqs.of_keeps hstep₂.keeps fun i hi => hapart i (by simp [hi])
  have ht₂ : t.Trades (t.grown _ _) _ ({a} + {b} +
      ({t.size} + (idsOf ps + rowIds body) + (idsOf qs + (rowIds post + {start})))) :=
    (ht₁.step rfl hstep₂).congr rfl (by rw [ids]; ac_rfl)
  have hin₂ := ht₂.drop rfl
  have hk₃ : (t.grown _ _).Keeps (((t.grown (.block name (ps.map Plan.id) begins) place).setParent a
      none).setParent b none) ({a} + {b}) :=
    ((Tree.keeps_setParent a none).mono fun i hi => Multiset.mem_add.mpr (Or.inl hi)).trans
      (Tree.keeps_setParent b none) fun i hi => Or.inl (Multiset.mem_add.mpr (Or.inr hi))
  have hstep₃ := Tree.Trades.of_keeps hk₃ hin₂.nodup hin₂.lt_size
  replace hapart := ht₂.apart rfl
  have hstart₃ := hk₃.look_of_look hstart₂ (hapart start (by simp))
  have hblock₃ := hblock.of_keeps hk₃ fun i hi => hapart i (by
    rw [ids] at hi
    exact Multiset.mem_add.mpr (Or.inl hi))
  have hpost₃ := hpost₂.of_keeps hk₃ fun i hi => hapart i (by simp [hi])
  have hqs₃ := hqs₂.of_keeps hk₃ fun i hi => hapart i (by simp [hi])
  have ht₃ : t.Trades _ _ (rowIds ((start, .block t.size name ps body) :: post) +
      (idsOf qs + ({a} + {b}))) :=
    (ht₂.step rfl hstep₃).congr rfl (by
      simp only [rowIds_cons, ids]
      ac_rfl)
  obtain ⟨hrow₄, hstep₄⟩ := RowFits.setCell hstart₃ hblock₃ hpost₃ (ht₃.drop rfl).nodup
  replace hapart := ht₃.apart rfl
  have hqs₄ := hqs₃.of_keeps hstep₄.keeps fun i hi => hapart i (by simp [hi])
  have ht₄ : t.Trades _ _ (rowIds ((start, .block t.size name ps body) :: post) + idsOf qs +
      ({a} + {b})) :=
    (ht₃.step rfl hstep₄).congr rfl (by ac_rfl)
  obtain ⟨t', extras, hrun, hrow, hextras, hstep₅⟩ :=
    run_insertAllAfter hrow₄ hqs₄ (ht₄.drop rfl).nodup
  obtain ⟨changed, halters⟩ := Tree.alters_insertAllAfter hrun
  exact ⟨t', extras, hrun, hrow, hextras, (ht₄.step rfl hstep₅).drop rfl, _,
    ((Tree.alters_setParent a none).append (Tree.alters_setParent b none)).append
      ((Tree.alters_setCell (Tree.isSequence_of_look hstart₃) t.size (nextCell post)).append halters)⟩

/-- A block in the place of two commands and everything between them. -/
theorem run_spliceBlock (first last : BlockMarker) {start stop : NodeId} {word word' : String}
    (h : RowFits t up ((start, .command first.command word (p :: ps)) ::
      (mid ++ (stop, .command last.command word' (q :: qs)) :: post)))
    (hn : (rowIds ((start, .command first.command word (p :: ps)) ::
      (mid ++ (stop, .command last.command word' (q :: qs)) :: post))).Nodup) :
    ∃ (t' : Tree) (n : NodeId) (body extras : Row),
      (Tree.spliceBlock first last).run.run t = (.ok (), t') ∧
      RowBecomes t t' up ((start, .command first.command word (p :: ps)) ::
          (mid ++ (stop, .command last.command word' (q :: qs)) :: post))
        ((start, .block n first.name ps body) :: (extras ++ post)) ∧
      extras.map Prod.snd = qs ∧ rowShapes body = Shape.chain (rowShapes mid) ∧
      (∀ noted, gatherRow (delims noted) body = gatherRow (delims noted) mid) ∧
      (∀ σ, t'.SpansIn σ → IsCut σ (Span.point (σ first.command).stop) mid body ∧
        σ n = (σ first.command).union (σ last.command)) ∧
      ∃ changed, t.Alters t' changed := by
  obtain ⟨hstart, hopen, hrest⟩ := rowFits_pair.mp h
  obtain ⟨up', hclose⟩ := hrest.of_append
  obtain ⟨hstop, hclosing, hpost⟩ := rowFits_pair.mp hclose
  have howner : t.owningCell first.command = some start := h.owningCell
  have howner' : t.owningCell last.command = some stop := hclose.owningCell
  rw [Fits] at hopen hclosing
  obtain ⟨hfirst, hps⟩ := hopen
  obtain ⟨hlast, hqs⟩ := hclosing
  -- The names and what is cut loose are left behind in the store.
  have ht₀ : t.Trades t _ (rowIds mid + (idsOf ps + (idsOf qs + (rowIds post +
      ({start} + ({stop} + ({first.command} + {last.command}))))))) :=
    (Tree.Trades.refl t hn h.lt_size).drop (u := p.ids + q.ids) (by
      simp only [rowIds_cons, rowIds_append, ids, idsOf_cons]
      ac_rfl)
  obtain ⟨body, begins, t₁, hcut, hbegins, hbody, hshapes, hmarkers, hstep₁, hiscut, changed₁,
    halters₁⟩ := run_cutBetween h hn (Span.point (t.span first.command).stop)
  have hapart := ht₀.apart rfl
  have hstart₁ := hstep₁.keeps.look_of_look hstart (hapart start (by simp))
  have hstop₁ := hstep₁.keeps.look_of_look hstop (hapart stop (by simp))
  have hpost₁ := hpost.of_keeps hstep₁.keeps fun i hi => hapart i (by simp [hi])
  have hps₁ := (allFit_cons.mp hps).2.loose.of_keeps hstep₁.keeps fun i hi => hapart i (by simp [hi])
  have hqs₁ := (allFit_cons.mp hqs).2.loose.of_keeps hstep₁.keeps fun i hi => hapart i (by simp [hi])
  have ht₁ : t.Trades t₁ _ (idsOf ps + rowIds body + (idsOf qs + (rowIds post +
      ({start} + ({first.command} + {last.command})))) + {stop}) :=
    (ht₀.step rfl hstep₁).congr rfl (by ac_rfl)
  have hin₁ := ht₁.drop rfl
  obtain ⟨t', extras, hrun, hrow, hextras, hstep₂, changed₂, halters₂⟩ := run_putBlock hstart₁ hps₁
    hbody hbegins hqs₁ hpost₁ hin₁.nodup hin₁.lt_size first.name
      ((t.span first.command).union (t.span last.command))
  -- The block was added in the middle, and its span stays.
  have hgrown := Tree.alters_grown (t := t₁) (.block first.name (ps.map Plan.id) begins)
    ((t.span first.command).union (t.span last.command))
  have halters := halters₁.append (hgrown.append halters₂)
  have hspans : ∀ σ, t'.SpansIn σ → IsCut σ (Span.point (σ first.command).stop) mid body ∧
      σ t₁.size = (σ first.command).union (σ last.command) := by
    intro σ hσ
    have hσ₂ := halters₂.spansIn hσ
    rw [halters.spansIn hσ _ (Tree.lt_of_look hfirst), halters.spansIn hσ _ (Tree.lt_of_look hlast)]
    exact ⟨hiscut σ (hgrown.spansIn hσ₂), (hσ₂ t₁.size (by simp)).trans (Tree.span_grown _ _)⟩
  refine ⟨t', t₁.size, body, extras, ?_, ⟨hrow, rfl, (ht₁.step rfl hstep₂).drop rfl⟩, hextras,
    hshapes, hmarkers, hspans, _, halters⟩
  have hps' : (t.node first.command).parameters.drop 1 = ps.map Plan.id := by
    simp [Tree.node_of_look hfirst, Node.parameters]
  have hqs' : (t.node last.command).parameters.drop 1 = qs.map Plan.id := by
    simp [Tree.node_of_look hlast, Node.parameters]
  have hrest' : t₁.tail stop = nextCell post := by
    simp [Tree.tail, Tree.node_of_look hstop₁]
  rw [Tree.spliceBlock, Edit.run_get_bind, howner, howner']
  dsimp only
  rw [Edit.run_lift_bind hcut, Edit.run_get_bind, hrest', hps', hqs',
    Edit.run_lift_bind (Tree.run_alloc_eq _ _ t₁), Edit.run_modify_bind]
  exact Edit.run_reportedAt_of_ok hrun _

end Plan

end Formulary
