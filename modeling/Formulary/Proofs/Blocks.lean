import Formulary.Proofs.Regular
import Formulary.Proofs.Splicing
import Mathlib.Logic.Relation

/-!
# Resolving blocks

Blocks are resolved by one pass over the delimiting commands of a formula. The pass keeps this
(`Pairing`): the formula that is there, with its blocks spread out, is the one that was read; and
the commands that are still open followed by those still to come are the delimiting commands that
are left, in the order of the text. So when the pass ends without a fault, what is there spreads to
what was read (`Tree.resolveBlocks_sound`).

A closing command is paired with the innermost open one. Between the two, in their chain, no
delimiting command can be left, or it would be listed between them.
-/

namespace Formulary

open Plan Shape

variable {r : Except Fault Unit} {t' : Tree}

/-! ## Regularity around a hole -/

section

variable {kind : String → Prop} {row row' : Row}

theorem RowHole.plug_ne_nil (h : row ≠ []) (hole : RowHole) : hole.plug row ≠ [] := by
  cases hole <;> simp [RowHole.plug, h]

theorem PlanHole.isAtomic_plug (hole : PlanHole) :
    (hole.plug row').shape.isAtomic = (hole.plug row).shape.isAtomic := by
  cases hole <;> simp [PlanHole.plug, shape, isAtomic]

theorem PlanHole.isGroup_plug (hole : PlanHole) :
    (hole.plug row').shape.isGroup = (hole.plug row).shape.isGroup := by
  cases hole <;> simp [PlanHole.plug, shape, isGroup]

mutual

theorem RowHole.regularRow_plug (hne : row' ≠ []) : ∀ hole : RowHole,
    RegularRow kind (rowShapes (hole.plug row)) → RegularRow kind (rowShapes row) ∧
      (RegularRow kind (rowShapes row') → RegularRow kind (rowShapes (hole.plug row')))
  | .here, h => ⟨h, id⟩
  | .after x hole, h => by
    rw [RowHole.plug, rowShapes_cons, regularRow_cons] at h
    obtain ⟨hrow, hplug⟩ := RowHole.regularRow_plug hne hole h.2
    refine ⟨hrow, fun h' => ?_⟩
    rw [RowHole.plug, rowShapes_cons, regularRow_cons]
    exact ⟨h.1, hplug h'⟩
  | .inside cell hole rest, h => by
    rw [RowHole.plug, rowShapes_cons, regularRow_cons] at h
    obtain ⟨hrow, hplug⟩ := PlanHole.regular_plug hne hole h.1
    refine ⟨hrow, fun h' => ?_⟩
    rw [RowHole.plug, rowShapes_cons, regularRow_cons]
    exact ⟨hplug h', h.2⟩

theorem PlanHole.regular_plug (hne : row' ≠ []) : ∀ hole : PlanHole,
    (hole.plug row).shape.Regular kind → RegularRow kind (rowShapes row) ∧
      (RegularRow kind (rowShapes row') → (hole.plug row').shape.Regular kind)
  | .group n fence hole, h => by
    rw [PlanHole.plug, shape, Regular] at h ⊢
    exact RowHole.regularRow_plug hne hole h
  | .script n marker hole, h => by
    rw [PlanHole.plug, shape, Regular] at h ⊢
    obtain ⟨hrow, hplug⟩ := PlanHole.regular_plug hne hole h.2
    exact ⟨hrow, fun h' => ⟨hole.isAtomic_plug.trans h.1, hplug h'⟩⟩
  | .command n name before hole after, h => by
    simp only [PlanHole.plug, shape, Regular, shapes_append, shapes_cons, List.forall_mem_append,
      List.forall_mem_cons, regularRow_append, regularRow_cons] at h ⊢
    obtain ⟨hkind, ⟨hbefore, hgroup, hafter⟩, hregular, hhole, hregular'⟩ := h
    obtain ⟨hrow, hplug⟩ := PlanHole.regular_plug hne hole hhole
    exact ⟨hrow, fun h' => ⟨hkind, ⟨hbefore, hole.isGroup_plug.trans hgroup, hafter⟩, hregular,
      hplug h', hregular'⟩⟩
  | .parameter n name before hole after body, h => by
    simp only [PlanHole.plug, shape, Regular, shapes_append, shapes_cons, List.forall_mem_append,
      List.forall_mem_cons, regularRow_append, regularRow_cons] at h ⊢
    obtain ⟨hname, ⟨hbefore, hgroup, hafter⟩, ⟨hregular, hhole, hregular'⟩, hbody⟩ := h
    obtain ⟨hrow, hplug⟩ := PlanHole.regular_plug hne hole hhole
    exact ⟨hrow, fun h' => ⟨hname, ⟨hbefore, hole.isGroup_plug.trans hgroup, hafter⟩,
      ⟨hregular, hplug h', hregular'⟩, hbody⟩⟩
  | .body n name parameters hole, h => by
    simp only [PlanHole.plug, shape, Regular, ne_eq, rowShapes_eq_nil_iff] at h ⊢
    obtain ⟨hname, hgroups, hparameters, -, hbody⟩ := h
    obtain ⟨hrow, hplug⟩ := RowHole.regularRow_plug hne hole hbody
    exact ⟨hrow, fun h' => ⟨hname, hgroups, hparameters, hole.plug_ne_nil hne, hplug h'⟩⟩

end

variable {noted : NodeId → Nat}

theorem side?_of_delims {id : NodeId} {word : String} {ps : List Plan}
    (h : delims noted (.command id word ps) = []) : BlockMarker.side? word = none := by
  rw [delims] at h
  split at h
  · cases h
  · assumption

mutual

/-- A formula without delimiting commands is resolved. -/
theorem Plan.regular_of_markers : ∀ {p : Plan}, delims noted p = [] → gather (delims noted) p = [] →
    p.shape.Regular (fun _ => True) → p.shape.Regular fun name => BlockMarker.side? name = none
  | .literal .., _, _, _ | .empty _, _, _, _ => by simp [shape, Regular]
  | .group _ _ inner, _, hm, h => by
    rw [gather] at hm
    rw [shape, Regular] at h ⊢
    exact Plan.regularRow_of_markers hm h
  | .script _ _ operand, _, hm, h => by
    rw [gather, List.append_eq_nil_iff] at hm
    rw [shape, Regular] at h ⊢
    exact ⟨h.1, Plan.regular_of_markers hm.1 hm.2 h.2⟩
  | .command _ word ps, hown, hm, h => by
    rw [gather] at hm
    rw [shape, Regular] at h ⊢
    exact ⟨side?_of_delims hown, h.2.1, Plan.regularRow_of_markersOf hm h.2.2⟩
  | .block _ name ps body, _, hm, h => by
    rw [gather, List.append_eq_nil_iff] at hm
    rw [shape, Regular] at h ⊢
    exact ⟨h.1, h.2.1, Plan.regularRow_of_markersOf hm.1 h.2.2.1, h.2.2.2.1,
      Plan.regularRow_of_markers hm.2 h.2.2.2.2⟩

theorem Plan.regularRow_of_markersOf : ∀ {ps : List Plan}, gatherAll (delims noted) ps = [] →
    RegularRow (fun _ => True) (shapes ps) → Resolved (shapes ps)
  | [], _, _ => regularRow_nil
  | p :: ps, hm, h => by
    rw [gatherAll_cons, List.append_eq_nil_iff, List.append_eq_nil_iff] at hm
    rw [shapes_cons, regularRow_cons] at h
    rw [Resolved, shapes_cons, regularRow_cons]
    exact ⟨Plan.regular_of_markers hm.1 hm.2.1 h.1, Plan.regularRow_of_markersOf hm.2.2 h.2⟩

theorem Plan.regularRow_of_markers : ∀ {row : Row}, gatherRow (delims noted) row = [] →
    RegularRow (fun _ => True) (rowShapes row) → Resolved (rowShapes row)
  | [], _, _ => regularRow_nil
  | (cell, p) :: row, hm, h => by
    rw [gatherRow_cons, List.append_eq_nil_iff, List.append_eq_nil_iff] at hm
    rw [rowShapes_cons, regularRow_cons] at h
    rw [Resolved, rowShapes_cons, regularRow_cons]
    exact ⟨Plan.regular_of_markers hm.1 hm.2.1 h.1, Plan.regularRow_of_markers hm.2.2 h.2⟩

end

end

/-! ## Spreading around a hole -/

section

variable {row row' : Row}

mutual

/-- What fills a hole in a tame chain spreads to one, and what the chain spreads to depends on what
the hole spreads to. -/
theorem RowHole.spreadRow_plug : ∀ hole : RowHole,
    TameChain (spreadRow (rowShapes (hole.plug row))) → TameChain (spreadRow (rowShapes row)) ∧
      (spreadRow (rowShapes row') = spreadRow (rowShapes row) →
        spreadRow (rowShapes (hole.plug row')) = spreadRow (rowShapes (hole.plug row)))
  | .here, h => ⟨h, id⟩
  | .after x hole, h => by
    simp only [RowHole.plug, rowShapes_cons, spreadRow_cons] at h ⊢
    obtain ⟨hrow, hplug⟩ := RowHole.spreadRow_plug hole h.of_spreadOnto
    exact ⟨hrow, fun h' => by rw [hplug h']⟩
  | .inside cell hole rest, h => by
    simp only [RowHole.plug, rowShapes_cons, spreadRow_cons] at h ⊢
    obtain ⟨hrow, hplug⟩ := PlanHole.spreadOnto_plug hole h
    exact ⟨hrow, fun h' => hplug h' _⟩

theorem PlanHole.spreadOnto_plug : ∀ (hole : PlanHole) {rest : List Shape},
    TameChain ((hole.plug row).shape.spreadOnto rest) → TameChain (spreadRow (rowShapes row)) ∧
      (spreadRow (rowShapes row') = spreadRow (rowShapes row) → ∀ rest,
        (hole.plug row').shape.spreadOnto rest = (hole.plug row).shape.spreadOnto rest)
  | .group n fence hole, rest, h => by
    simp only [PlanHole.plug, shape, spreadOnto] at h ⊢
    have hinner := (tameRow_cons.mp h.1).1
    rw [Tame] at hinner
    obtain ⟨hrow, hplug⟩ := RowHole.spreadRow_plug hole hinner
    exact ⟨hrow, fun h' rest => by rw [hplug h']⟩
  | .script n marker hole, rest, h => by
    rw [PlanHole.plug, shape] at h ⊢
    obtain ⟨hblock, hoperand⟩ := h.of_script
    obtain ⟨hrow, hplug⟩ := PlanHole.spreadOnto_plug hole hoperand
    refine ⟨hrow, fun h' rest => ?_⟩
    rw [PlanHole.plug, shape, spreadOnto, spreadOnto, hplug h', spreadOnto_eq hblock]
  | .command n name before hole after, rest, h => by
    simp only [PlanHole.plug, shape, spreadOnto] at h ⊢
    have hparameters := (tameRow_cons.mp h.1).1
    rw [Tame] at hparameters
    obtain ⟨hrow, hplug⟩ := PlanHole.spreadOnto_plug hole (tameChain_of_parameter hparameters.1
      hparameters.2 (f := (hole.plug row).shape) (by simp [shapes_eq_map]))
    refine ⟨hrow, fun h' rest => ?_⟩
    simp only [shapes_append, shapes_cons, spreadRow_exchange (hplug h')]
  | .parameter n name before hole after body, rest, h => by
    simp only [PlanHole.plug, shape, spreadOnto] at h ⊢
    have hopening := (tameRow_cons.mp h.1).1
    simp only [delimiter, Tame, tameRow_cons] at hopening
    obtain ⟨hrow, hplug⟩ := PlanHole.spreadOnto_plug hole (tameChain_of_parameter hopening.1.2
      (fun g hg => hopening.2 g (List.mem_cons_of_mem _ hg)) (f := (hole.plug row).shape)
      (by simp [shapes_eq_map]))
    refine ⟨hrow, fun h' rest => ?_⟩
    simp only [shapes_append, shapes_cons, spreadRow_exchange (hplug h')]
  | .body n name parameters hole, rest, h => by
    rw [PlanHole.plug, shape] at h ⊢
    obtain ⟨hrow, hplug⟩ := RowHole.spreadRow_plug hole h.of_body
    exact ⟨hrow, fun h' rest => by rw [PlanHole.plug, shape, spreadOnto, spreadOnto, hplug h']⟩

end

end

/-! ## The pass -/

/-- A command that delimits a block, at its positions. -/
def delimiterAt (side : Delimiting) (i n c l : NodeId) (name : String) (ps : List Plan) : Plan :=
  .command i side.command (.group n .braces [(c, .literal l name)] :: ps)

theorem shape_delimiterAt (side : Delimiting) (i n c l : NodeId) (name : String) (ps : List Plan) :
    (delimiterAt side i n c l name ps).shape = delimiter side name (shapes ps) := by
  simp [delimiterAt, shape, delimiter]

theorem markers_delimiterAt (noted : NodeId → Nat) (side : Delimiting) (i n c l : NodeId)
    (name : String) (ps : List Plan) :
    gather (delims noted) (delimiterAt side i n c l name ps) = gatherAll (delims noted) ps :=
  markers_named ..

/-- One step of the pass, with spans given: somewhere in a chain, a block comes into the place of two
delimiting commands and all that stands between them. The parameters of the closing command stay
after the block, and no other groups follow. -/
inductive Spliced (σ : NodeId → Span) : Row → Row → Prop
  | intro (hole : RowHole) (start stop : NodeId) {i j m n c l n' c' l' : NodeId} {name : String}
    {ps : List Plan} {mid extras post body : Row} (hspan : σ m = (σ i).union (σ j))
    (hbody : IsCut σ (Span.point (σ i).stop) mid body)
    (hextras : ∀ p ∈ extras.map Prod.snd, p.shape.isGroup = true)
    (hpost : ∀ f ∈ (rowShapes post).head?, f.isGroup = false) :
    Spliced σ
      (hole.plug ((start, delimiterAt .opens i n c l name ps) ::
        (mid ++ (stop, delimiterAt .closes j n' c' l' name (extras.map Prod.snd)) :: post)))
      (hole.plug ((start, .block m name ps body) :: (extras ++ post)))

/-- What the pass over the delimiting commands keeps: some are open, others are still to come, and
the formula spreads to the one that was read. -/
structure Pairing (noted : NodeId → Nat) (fs : List Shape) (opened remaining : List BlockMarker)
    (t : Tree) (row : Row) : Prop where
  root : nextCell row = some t.root
  fits : RowFits t none row
  nodup : (rowIds row).Nodup
  spread : spreadRow (rowShapes row) = fs
  markers : gatherRow (delims noted) row = opened.reverse ++ remaining
  names : ∀ m ∈ gatherRow (delims noted) row, BlockMarker.isName m.name = true
  regular : RegularRow (fun _ => True) (rowShapes row)
  opens : ∀ m ∈ opened, m.side = .opens

namespace Pairing

variable {noted : NodeId → Nat} {fs : List Shape} {opened remaining : List BlockMarker}
  {first last : BlockMarker} {t : Tree} {row : Row}

theorem pairError?_eq_none (h : t.pairError? first last = none) :
    first.name = last.name ∧ first.depth = last.depth ∧
      t.inOneChain first.command last.command = true := by
  unfold Tree.pairError? at h
  split at h
  · cases h
  · rename_i hname
    split at h
    · cases h
    · rename_i hchain
      simp only [ne_eq, Decidable.not_not] at hname
      simp only [ne_eq, Bool.or_eq_true, decide_eq_true_eq, Bool.not_eq_true', not_or,
        Decidable.not_not, Bool.not_eq_false] at hchain
      exact ⟨hname, hchain.1, hchain.2⟩

/-- A delimiting command that has a cell is somewhere in a chain. -/
theorem exists_plug (h : Pairing noted fs opened remaining t row) {m : BlockMarker}
    (hm : m ∈ gatherRow (delims noted) row) (hcell : (t.owningCell m.command).isSome = true) :
    ∃ (hole : RowHole) (cell : NodeId) (p : Plan) (post : Row),
      row = hole.plug ((cell, p) :: post) ∧ delims noted p = [m] := by
  rcases exists_hole_of_mem h.fits hm with ⟨hole, cell, p, post, hrow, hp⟩ | hnone
  · exact ⟨hole, cell, p, post, hrow, hp⟩
  · rw [hnone] at hcell
    cases hcell

/-- Two delimiting commands of one chain, in that chain. -/
theorem exists_stretch (h : Pairing noted fs (first :: opened) (last :: remaining) t row)
    (hchain : t.inOneChain first.command last.command = true) :
    ∃ (hole : RowHole) (start stop : NodeId) (p q : Plan) (mid post : Row),
      row = hole.plug ((start, p) :: (mid ++ (stop, q) :: post)) ∧
      delims noted p = [first] ∧ delims noted q = [last] := by
  have hfirst : first ∈ gatherRow (delims noted) row := by simp [h.markers]
  have hlast : last ∈ gatherRow (delims noted) row := by simp [h.markers]
  unfold Tree.inOneChain at hchain
  split at hchain
  · rename_i start stop hstart hstop
    obtain ⟨hole, cell, p, post, hrow, hp⟩ := h.exists_plug hfirst (by simp [hstart])
    obtain ⟨hole', cell', q, post', hrow', hq⟩ := h.exists_plug hlast (by simp [hstop])
    obtain ⟨up, hfits⟩ := RowHole.exists_rowFits (hrow ▸ h.fits)
    obtain ⟨up', hfits'⟩ := RowHole.exists_rowFits (hrow' ▸ h.fits)
    have hp' : first.command = p.id := delims_command (hp ▸ List.mem_singleton_self first)
    have hq' : last.command = q.id := delims_command (hq ▸ List.mem_singleton_self last)
    obtain rfl : cell = start := by
      rw [hp', hfits.owningCell] at hstart
      exact Option.some.inj hstart
    obtain rfl : cell' = stop := by
      rw [hq', hfits'.owningCell] at hstop
      exact Option.some.inj hstop
    have hn : (rowIds ((cell, p) :: post)).Nodup := by
      have hn := h.nodup
      rw [hrow, RowHole.rowIds_plug] at hn
      exact (Multiset.nodup_add.mp hn).2.1
    rw [hfits.cells hn rfl, List.any_eq_true] at hchain
    obtain ⟨link, hlink, hcell⟩ := hchain
    obtain ⟨⟨c, r⟩, hmem, rfl⟩ := List.mem_map.mp hlink
    obtain rfl : c = cell' := by simpa using hcell
    -- The cell of the second command is in the chain, and so is what the store has there.
    obtain ⟨pre, rest, hsplit⟩ := List.append_of_mem hmem
    rw [hsplit] at hfits
    obtain ⟨up'', hrest⟩ := hfits.of_append
    obtain ⟨heq, -⟩ := List.cons.inj (hrest.unique hfits' rfl)
    obtain ⟨-, rfl⟩ := Prod.mk.inj heq
    cases pre with
    | nil =>
      exfalso
      obtain ⟨heq, -⟩ := List.cons.inj hsplit
      obtain ⟨-, rfl⟩ := Prod.mk.inj heq
      have hnodup : ((gatherRow (delims noted) row).map BlockMarker.command).Nodup :=
        h.fits.nodup_delims h.nodup
      rw [h.markers] at hnodup
      simp only [List.reverse_cons, List.append_assoc, List.singleton_append, List.map_append,
        List.map_cons, List.nodup_append, List.nodup_cons] at hnodup
      exact hnodup.2.1.1 (by simp [hp', hq'])
    | cons x pre =>
      obtain ⟨rfl, rfl⟩ := List.cons.inj hsplit
      exact ⟨hole, cell, c, p, r, pre, rest, hrow, hp, hq⟩
  · cases hchain

/-- Two delimiting commands that pair up, with all that stands between them. -/
theorem exists_delimiters (h : Pairing noted fs (first :: opened) (last :: remaining) t row)
    (hside : last.side = .closes) (hpair : t.pairError? first last = none) :
    ∃ (hole : RowHole) (start stop n c l n' c' l' : NodeId) (ps qs : List Plan) (mid post : Row),
      row = hole.plug ((start, delimiterAt .opens first.command n c l first.name ps) ::
        (mid ++ (stop, delimiterAt .closes last.command n' c' l' first.name qs) :: post)) ∧
      delims noted (delimiterAt .opens first.command n c l first.name ps) = [first] ∧
      delims noted (delimiterAt .closes last.command n' c' l' first.name qs) = [last] := by
  obtain ⟨hname, -, hchain⟩ := pairError?_eq_none hpair
  obtain ⟨hole, start, stop, p, q, mid, post, hrow, hp, hq⟩ := h.exists_stretch hchain
  obtain ⟨n, c, l, ps, rfl, -⟩ := shape_of_delims hp (h.names first (by simp [h.markers]))
  obtain ⟨n', c', l', qs, rfl, -⟩ := shape_of_delims hq (h.names last (by simp [h.markers]))
  rw [h.opens first List.mem_cons_self] at hrow hp
  rw [hside, ← hname] at hrow hq
  exact ⟨hole, start, stop, n, c, l, n', c', l', ps, qs, mid, post, hrow, hp, hq⟩

/-- Between the innermost open command and the next one, no delimiting command is left, and around
the two the list of those that are left stays. -/
theorem markers_between {hole : RowHole} {start stop : NodeId} {p q : Plan} {mid post : Row}
    (h : Pairing noted fs (first :: opened) (last :: remaining) t
      (hole.plug ((start, p) :: (mid ++ (stop, q) :: post))))
    (hp : delims noted p = [first]) (hq : delims noted q = [last]) :
    gather (delims noted) p = [] ∧ gatherRow (delims noted) mid = [] ∧
      ∀ row', gatherRow (delims noted) row' = gather (delims noted) q ++ gatherRow (delims noted) post →
        gatherRow (delims noted) (hole.plug row') = opened.reverse ++ remaining := by
  obtain ⟨left, right, hplug⟩ := RowHole.exists_rowMarkers_plug (by simp [hp]) hole h.names
  have hlist := h.markers
  have hnodup : (gatherRow (delims noted) (hole.plug _)).Nodup :=
    List.Nodup.of_map _ (h.fits.nodup_delims h.nodup)
  rw [hlist] at hnodup
  rw [hplug] at hlist
  simp only [gatherRow_cons, gatherRow_append, hp, hq, List.nil_append, List.append_assoc,
    List.cons_append, List.reverse_cons] at hlist hnodup
  have hfirst := (List.nodup_cons.mp (List.nodup_middle.mp hnodup)).1
  have hlast := (List.nodup_cons.mp (List.nodup_cons.mp (List.nodup_append.mp hnodup).2.1).2).1
  rw [List.mem_append, not_or] at hfirst
  obtain ⟨rfl, -, hlater⟩ :=
    (List.append_cons_inj_of_notMem hfirst.1 hfirst.2).mp hlist.symm
  rw [← List.append_assoc, ← List.nil_append (last :: remaining)] at hlater
  obtain ⟨hnone, -, rfl⟩ :=
    (List.append_cons_inj_of_notMem (List.not_mem_nil) hlast).mp hlater
  obtain ⟨hinside, hmid⟩ := List.append_eq_nil_iff.mp hnone.symm
  refine ⟨hinside, hmid, fun row' hrow' => ?_⟩
  rw [hplug, hrow', List.append_assoc]

/-- Closing the innermost open block puts it in place and leaves the rest as it was. -/
theorem close (h : Pairing noted fs (first :: opened) (last :: remaining) t row)
    (hfs : TameChain fs) (hside : last.side = .closes) (hpair : t.pairError? first last = none) :
    ∃ (t' : Tree) (row' : Row), (Tree.spliceBlock first last).run.run t = (.ok (), t') ∧
      Pairing noted fs opened remaining t' row' ∧ (∀ σ, t'.SpansIn σ → Spliced σ row row') ∧
      ∃ changed, t.Alters t' changed := by
  obtain ⟨hole, start, stop, n, c, l, n', c', l', ps, qs, mid, post, rfl, hp, hq⟩ :=
    h.exists_delimiters hside hpair
  obtain ⟨up, hfits⟩ := RowHole.exists_rowFits h.fits
  have hn := h.nodup
  rw [RowHole.rowIds_plug] at hn
  obtain ⟨t', m, body, extras, hrun, hlocal, rfl, hshapes, hbody, hspans, hchanged⟩ :=
    run_spliceBlock first last hfits (Multiset.nodup_add.mp hn).2.1
  have hbecomes := RowHole.becomes_plug (fun up' hup => hup.up_eq hfits ▸ hlocal) hole h.fits h.nodup
  obtain ⟨hinside, hmid, haround⟩ := h.markers_between hp hq
  rw [markers_delimiterAt] at hinside haround
  have hkept : gatherRow (delims noted) (hole.plug ((start, .block m first.name ps body) ::
      (extras ++ post))) = opened.reverse ++ remaining :=
    haround _ (by simp [gather, hbody, hinside, hmid, gatherRow_eq _ extras])
  -- What stood there and what takes its place, as shapes.
  have hold : rowShapes ((start, delimiterAt .opens first.command n c l first.name ps) ::
      (mid ++ (stop, delimiterAt .closes last.command n' c' l' first.name (extras.map Prod.snd)) ::
        post)) = delimiter .opens first.name (shapes ps) ::
        (rowShapes mid ++ delimiter .closes first.name (rowShapes extras) :: rowShapes post) := by
    simp [shape_delimiterAt, rowShapes_eq_shapes extras]
  have hnew : rowShapes ((start, .block m first.name ps body) :: (extras ++ post)) =
      .block first.name (shapes ps) (chain (rowShapes mid)) :: (rowShapes extras ++ rowShapes post) := by
    simp [shape, hshapes]
  obtain ⟨htame, hplug⟩ := hole.spreadRow_plug (h.spread ▸ hfs)
  rw [hold] at htame
  refine ⟨t', _, hrun, ⟨?_, hbecomes.fits, hbecomes.trades.nodup, ?_, hkept, ?_, ?_, fun k hk =>
    h.opens k (List.mem_cons_of_mem _ hk)⟩, fun σ hσ => ?_, hchanged⟩
  · rw [hbecomes.trades.keeps.root_eq, ← h.root]
    exact hbecomes.next_eq
  · rw [← h.spread]
    refine hplug ?_
    rw [hnew, hold, spreadRow_splice htame]
  · intro k hk
    refine h.names k ?_
    rw [h.markers]
    rw [hkept] at hk
    simp only [List.reverse_cons, List.append_assoc, List.mem_append, List.mem_cons] at hk ⊢
    tauto
  · obtain ⟨hrow, hplug⟩ := RowHole.regularRow_plug (List.cons_ne_nil _ _) hole h.regular
    refine hplug ?_
    rw [hold] at hrow
    simp only [delimiter, regularRow_cons, regularRow_append, Regular, List.forall_mem_cons] at hrow
    obtain ⟨⟨-, ⟨-, hgroups⟩, -, hps⟩, hmid, ⟨-, -, -, hextras⟩, hpost⟩ := hrow
    simp only [hnew, regularRow_cons, regularRow_append, Regular, regularRow_chain]
    exact ⟨⟨h.names first (by simp [h.markers]), hgroups, hps, chain_ne_nil _, hmid⟩, hextras, hpost⟩
  · obtain ⟨hcut, hspan⟩ := hspans σ hσ
    obtain ⟨hgroups, hpost⟩ := htame.groups_closing
    rw [rowShapes_eq_shapes, shapes_eq_map] at hgroups
    exact .intro hole start stop hspan hcut (fun r hr => hgroups _ (List.mem_map_of_mem hr))
      (forall_head_spreadRow.mp hpost)

/-- An opening command becomes the innermost open one. -/
theorem open_next (h : Pairing noted fs opened (first :: remaining) t row)
    (hside : first.side = .opens) : Pairing noted fs (first :: opened) remaining t row := by
  refine { h with markers := ?_, opens := ?_ }
  · simp [h.markers]
  · intro m hm
    rcases List.mem_cons.mp hm with rfl | hm
    · exact hside
    · exact h.opens m hm

/-- The pass from any point on. It splices one block after the other, or fails for how delimiting
commands stand. -/
theorem pairBlocks_cases (h : Pairing noted fs opened remaining t row) (hfs : TameChain fs)
    (hrun : (Tree.pairBlocks opened remaining).run.run t = (r, t')) :
    (r = .ok () ∧ ∃ row', Pairing noted fs [] [] t' row' ∧
        Relation.ReflTransGen (Spliced t'.span) row row' ∧ ∃ changed, t.Alters t' changed) ∨
      ∃ e, r = .error (.block e) := by
  induction remaining generalizing opened t row with
  | nil =>
    obtain ⟨rfl, rfl⟩ := Prod.mk.inj hrun
    cases opened with
    | nil => exact Or.inl ⟨rfl, row, h, .refl, [], .refl _ []⟩
    | cons m opened => exact Or.inr ⟨_, rfl⟩
  | cons m remaining ih =>
    unfold Tree.pairBlocks at hrun
    rcases hside : m.side with _ | _
    · rw [hside] at hrun
      exact ih (h.open_next hside) hrun
    · rw [hside] at hrun
      cases opened with
      | nil => exact Or.inr ⟨_, (Prod.mk.inj hrun).1.symm⟩
      | cons first opened =>
        dsimp only at hrun
        rw [Edit.run_get_bind] at hrun
        split at hrun
        · exact Or.inr ⟨_, (Prod.mk.inj hrun).1.symm⟩
        · rename_i hpair
          -- A pair that is accepted can be spliced.
          obtain ⟨t₁, row₁, hsplice, h₁, hstep, changed, halters⟩ := h.close hfs hside hpair
          rw [Edit.run_bind_of_ok hsplice] at hrun
          refine (ih h₁ hrun).imp_left ?_
          rintro ⟨rfl, row', h', hsteps, changed', halters'⟩
          exact ⟨rfl, row', h', .head (hstep _ (halters'.spansIn fun _ _ => rfl)) hsteps, _,
            halters.append halters'⟩

end Pairing

namespace Tree

variable {row : Row} {s : String} {t : Tree}

/-- Resolving splices one block after the other until no delimiting command is left, or fails for
what is wrong with these. -/
theorem resolveBlocks_cases (hroot : nextCell row = some t.root) (hfits : RowFits t none row)
    (hn : (rowIds row).Nodup) (hfs : TameChain (rowShapes row))
    (hrun : resolveBlocks.run.run t = (r, t')) :
    (r = .ok () ∧ ∃ noted row', Pairing noted (rowShapes row) [] [] t' row' ∧
        Relation.ReflTransGen (Spliced t'.span) row row' ∧ ∃ changed, t.Alters t' changed) ∨
      ∃ e, r = .error (.block e) := by
  obtain ⟨noted, hnoted⟩ := exists_noted hn 0
  rw [resolveBlocks, Edit.run_get_bind] at hrun
  split at hrun
  · exact Or.inr ⟨_, (Prod.mk.inj hrun).1.symm⟩
  · rename_i markers hcollect
    obtain ⟨hnames, rfl⟩ := (BlockMarker.collect_eq_ok_iff hroot hfits hn hnoted).mp hcollect
    have hstart : Pairing noted (rowShapes row) [] (gatherRow (delims noted) row) t row :=
      ⟨hroot, hfits, hn, hfs.1.spreadRow, rfl, hnames, hfs.1.regular, by simp⟩
    exact (hstart.pairBlocks_cases hfs hrun).imp_left (And.imp_right (Exists.intro noted))

theorem resolveBlocks_splices (hroot : nextCell row = some t.root) (hfits : RowFits t none row)
    (hn : (rowIds row).Nodup) (hfs : TameChain (rowShapes row))
    (hrun : resolveBlocks.run.run t = (.ok (), t')) :
    ∃ noted row', Pairing noted (rowShapes row) [] [] t' row' ∧
      Relation.ReflTransGen (Spliced t'.span) row row' ∧ ∃ changed, t.Alters t' changed := by
  rcases resolveBlocks_cases hroot hfits hn hfs hrun with ⟨-, hspliced⟩ | ⟨e, herror⟩
  · exact hspliced
  · cases herror

/-- Resolving puts blocks in the place of all delimiting commands, and spreading them out again
gives what was there before. -/
theorem resolveBlocks_sound {fs : List Shape} (h : t.Depicts fs) (hfs : TameChain fs)
    (hrun : resolveBlocks.run.run t = (.ok (), t')) :
    ∃ gs, t'.Depicts gs ∧ spreadRow gs = fs ∧ Resolved gs := by
  obtain ⟨row, hroot, hfits, hn, rfl⟩ := h
  obtain ⟨noted, row', hend, -⟩ := resolveBlocks_splices hroot hfits hn hfs hrun
  exact ⟨rowShapes row', ⟨row', hend.root, hend.fits, hend.nodup, rfl⟩, hend.spread,
    regularRow_of_markers hend.markers hend.regular⟩

theorem eq_ok_of_toOption {ε α : Type} {x : Except ε α} {a : α} (h : x.toOption = some a) :
    x = .ok a := by
  cases x with
  | error e => cases h
  | ok b => exact congrArg Except.ok (Option.some.inj h)

/-- A formula is read with its blocks by reading it without them first. -/
theorem exists_parse_of_parseMath (h : parseMath s = .ok t) :
    ∃ t₀, parse s = .ok t₀ ∧ resolveBlocks.run.run t₀ = (.ok (), t) := by
  rw [parseMath] at h
  rcases hparse : parse s with e | t₀
  · rw [hparse] at h
    cases h
  · rw [hparse] at h
    dsimp only at h
    split at h
    · rename_i t₁ hrun
      obtain rfl := Except.ok.inj h
      exact ⟨t₀, rfl, hrun⟩
    · cases h

/-- A formula that was read with its blocks is resolved, spreads to a canonical one and is written
as the text it was read from. -/
theorem parseMath_sound (h : parseMath s = .ok t) :
    ∃ fs, t.Depicts fs ∧ Resolved fs ∧ CanonicalChain none (spreadRow fs) ∧
      charsOf fs = s.toList := by
  obtain ⟨t₀, hparse, hrun⟩ := exists_parse_of_parseMath h
  obtain ⟨fs, hfs, hcanonical, hchars⟩ := parse_sound hparse
  obtain ⟨gs, hgs, rfl, hresolved⟩ := resolveBlocks_sound hfs hcanonical.tameChain hrun
  exact ⟨gs, hgs, hresolved, hcanonical, by rw [← charsOf_spreadRow, hchars]⟩

/-- Reading loses nothing: a formula that was read, with its blocks or without, is written as the
text it was read from. -/
theorem reading_lossless (s : String) :
    (∀ t, parse s = .ok t → t.text = s) ∧ ∀ t, parseMath s = .ok t → t.text = s := by
  refine ⟨fun t h => ?_, fun t h => ?_⟩
  · obtain ⟨fs, hfs, -, hchars⟩ := parse_sound h
    rw [← String.toList_inj, hfs.text, hchars]
  · obtain ⟨fs, hfs, -, -, hchars⟩ := parseMath_sound h
    rw [← String.toList_inj, hfs.text, hchars]

/-- Nested blocks with groups after both kinds of delimiting commands, an operand cut out of a run of
text, an escape, an empty group and free brackets. -/
theorem reading_lossless_nested :
    let s := r"\begin{a}{l}x^ab\{]\begin{b*}\end{b*}{}y\end{a}[2]z["
    (∃ t, parse s = .ok t ∧ t.text = s) ∧ ∃ t, parseMath s = .ok t ∧ t.text = s := by
  intro s
  have hparse : (parse s).isOk = true := by decide +kernel
  have hparseMath : (parseMath s).isOk = true := by decide +kernel
  constructor
  · cases h : parse s with
    | error e => simp [h, Except.isOk, Except.toBool] at hparse
    | ok t => exact ⟨t, rfl, (reading_lossless s).1 t h⟩
  · cases h : parseMath s with
    | error e => simp [h, Except.isOk, Except.toBool] at hparseMath
    | ok t => exact ⟨t, rfl, (reading_lossless s).2 t h⟩

end Tree

end Formulary
