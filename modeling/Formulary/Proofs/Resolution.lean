import Formulary.Proofs.Blocks

/-!
# Every spread formula is resolved again

The pass over the delimiting commands succeeds on every formula that a resolved one spreads to, and
gives that one back (`Tree.resolveBlocks_complete`). The proof follows the resolved formula: the
commands of one part are passed over with what is open left as it was (`Passes`), so the parts can
be looked at one after the other.

What a part needs to know of the depths is `Level`: the delimiting commands of one chain were noted
at one depth.
-/

namespace Formulary

open Plan Shape

namespace Plan

variable {p : Plan} {d : Nat} {row : Row} {f : Shape} {fs : List Shape}

/-! ## Depths in chains -/

section

variable (noted : NodeId → Nat)

mutual

/-- In each chain below an element the delimiting commands were noted at one depth. -/
def Level : Plan → Prop
  | .literal .. | .empty _ => True
  | .group _ _ inner => ∃ d, LevelRow d inner
  | .script _ _ operand => Level operand
  | .command _ _ parameters => LevelAll parameters
  | .block _ _ parameters body => LevelAll parameters ∧ ∃ d, LevelRow d body

/-- The same below some elements. -/
def LevelAll : List Plan → Prop
  | [] => True
  | p :: ps => Level p ∧ LevelAll ps

/-- The same below a chain, and its own delimiting commands were noted at the given depth. -/
def LevelRow (d : Nat) : Row → Prop
  | [] => True
  | (_, p) :: row => (∀ m ∈ delims noted p, m.depth = d) ∧ Level p ∧ LevelRow d row

end

end

variable {noted : NodeId → Nat} {t t' t'' : Tree} {up : Option NodeId}

@[simp] theorem levelAll_nil : LevelAll noted [] := by
  rw [LevelAll]
  trivial

@[simp] theorem levelAll_cons {ps : List Plan} :
    LevelAll noted (p :: ps) ↔ Level noted p ∧ LevelAll noted ps := by
  rw [LevelAll]

@[simp] theorem levelRow_nil : LevelRow noted d [] := by
  rw [LevelRow]
  trivial

@[simp] theorem levelRow_cons {x : NodeId × Plan} :
    LevelRow noted d (x :: row) ↔
      (∀ m ∈ delims noted x.2, m.depth = d) ∧ Level noted x.2 ∧ LevelRow noted d row := by
  rw [LevelRow]

@[simp] theorem levelRow_append {row' : Row} :
    LevelRow noted d (row ++ row') ↔ LevelRow noted d row ∧ LevelRow noted d row' := by
  induction row with
  | nil => simp
  | cons x row ih => simp [ih, and_assoc]

/-- Elements that are no delimiting commands go with any depth. -/
theorem levelRow_of_levelAll (hown : ∀ x ∈ row, delims noted x.2 = [])
    (h : LevelAll noted (row.map Prod.snd)) :
    LevelRow noted d row := by
  induction row with
  | nil => simp
  | cons x row ih =>
    rw [List.map_cons, levelAll_cons] at h
    refine levelRow_cons.mpr ⟨?_, h.1, ih (fun y hy => hown y (List.mem_cons_of_mem _ hy)) h.2⟩
    simp [hown x List.mem_cons_self]

theorem depth_of_delims {m : BlockMarker} (h : m ∈ delims noted p) :
    m.depth = noted p.id := by
  cases p with
  | command id word parameters =>
    rw [delims] at h
    split at h
    · rw [List.mem_singleton.mp h, id_command]
    · cases h
  | _ => simp [delims] at h

mutual

/-- Depths as a visit has them are level below an element. -/
theorem level_of_visits : ∀ {p : Plan} {d : Nat}, (∀ x ∈ visits d p, noted x.2 = x.1) →
    Level noted p
  | .literal .., _, _ | .empty _, _, _ => by simp [Level]
  | .group _ _ inner, d, h => by
    rw [visits] at h
    rw [Level]
    exact ⟨d + 1, levelRow_of_visits fun x hx => h x (List.mem_append_right _ hx)⟩
  | .script _ _ operand, d, h => by
    rw [visits] at h
    rw [Level]
    exact level_of_visits fun x hx => h x (List.mem_cons_of_mem _ hx)
  | .command _ _ parameters, d, h => by
    rw [visits] at h
    rw [Level]
    exact levelAll_of_visits h
  | .block _ _ parameters body, d, h => by
    rw [visits] at h
    rw [Level]
    exact ⟨levelAll_of_visits fun x hx => h x (List.mem_append_left _ hx), d,
      levelRow_of_visits fun x hx => h x (List.mem_append_right _ (List.mem_append_right _ hx))⟩

theorem levelAll_of_visits : ∀ {ps : List Plan} {d : Nat},
    (∀ x ∈ visitsOf d ps, noted x.2 = x.1) → LevelAll noted ps
  | [], _, _ => levelAll_nil
  | p :: ps, d, h => by
    rw [visitsOf] at h
    refine levelAll_cons.mpr ⟨level_of_visits (d := d) fun x hx => h x ?_,
      levelAll_of_visits (d := d) fun x hx => h x ?_⟩
    · exact List.mem_cons_of_mem _ (List.mem_append_left _ hx)
    · exact List.mem_cons_of_mem _ (List.mem_append_right _ hx)

/-- Depths as a visit has them are level. -/
theorem levelRow_of_visits : ∀ {row : Row} {d : Nat}, (∀ x ∈ rowVisits d row, noted x.2 = x.1) →
    LevelRow noted d row
  | [], _, _ => levelRow_nil
  | (cell, p) :: row, d, h => by
    rw [rowVisits] at h
    refine levelRow_cons.mpr ⟨fun m hm => ?_, level_of_visits (d := d) fun x hx => h x ?_,
      levelRow_of_visits fun x hx => h x ?_⟩
    · rw [depth_of_delims hm]
      exact h (d, p.id) List.mem_cons_self
    · exact List.mem_cons_of_mem _ (List.mem_append_left _ hx)
    · exact List.mem_cons_of_mem _ (List.mem_append_right _ hx)

end

/-! ## Passing over commands -/

/-- The pass goes over some delimiting commands, all with proper names, and leaves those that were
open as they were. -/
structure Passes (t t' : Tree) (ms : List BlockMarker) : Prop where
  names : ∀ m ∈ ms, BlockMarker.isName m.name = true
  run_eq : ∀ opened rest, (Tree.pairBlocks opened (ms ++ rest)).run.run t =
    (Tree.pairBlocks opened rest).run.run t'

theorem Passes.nil (t : Tree) : Passes t t [] where
  names := by simp
  run_eq _ _ := rfl

theorem Passes.append {ms ms' : List BlockMarker} (h : Passes t t' ms) (h' : Passes t' t'' ms') :
    Passes t t'' (ms ++ ms') where
  names := List.forall_mem_append.mpr ⟨h.names, h'.names⟩
  run_eq opened rest := by rw [List.append_assoc, h.run_eq, h'.run_eq]

/-- A pair of commands and what is between them. -/
theorem Passes.pair {first last : BlockMarker} {ms : List BlockMarker} (h : Passes t t' ms)
    (hopens : first.side = .opens) (hcloses : last.side = .closes)
    (hname : BlockMarker.isName first.name = true) (hpair : t'.pairError? first last = none)
    (hsplice : (Tree.spliceBlock first last).run.run t' = (.ok (), t'')) :
    Passes t t'' (first :: (ms ++ [last])) where
  names := by
    have hnames : first.name = last.name := by
      by_contra hne
      simp [Tree.pairError?, hne] at hpair
    intro m hm
    simp only [List.mem_cons, List.mem_append, List.not_mem_nil, or_false] at hm
    rcases hm with rfl | hm | rfl
    · exact hname
    · exact h.names m hm
    · exact hnames ▸ hname
  run_eq opened rest := by
    have hopen : Tree.pairBlocks opened (first :: (ms ++ [last]) ++ rest) =
        Tree.pairBlocks (first :: opened) (ms ++ (last :: rest)) := by
      rw [List.cons_append, List.append_assoc, List.singleton_append]
      conv_lhs => unfold Tree.pairBlocks
      rw [hopens]
    rw [hopen, h.run_eq]
    conv_lhs => unfold Tree.pairBlocks
    rw [hcloses]
    dsimp only
    rw [Edit.run_get_bind, hpair]
    exact Edit.run_bind_of_ok hsplice

/-- Two commands of one chain that were noted at one depth and under one name are a pair. -/
theorem RowFits.pairError?_eq_none {first last : BlockMarker} {start stop : NodeId} {q : Plan}
    {mid post : Row} (h : RowFits t up ((start, p) :: (mid ++ (stop, q) :: post)))
    (hn : (rowIds ((start, p) :: (mid ++ (stop, q) :: post))).Nodup) (hfirst : first.command = p.id)
    (hlast : last.command = q.id) (hname : first.name = last.name)
    (hdepth : first.depth = last.depth) : t.pairError? first last = none := by
  obtain ⟨up', hrest⟩ := (rowFits_pair.mp h).2.2.of_append
  have hchain : t.inOneChain first.command last.command = true := by
    rw [Tree.inOneChain, hfirst, hlast, h.owningCell, hrest.owningCell]
    dsimp only
    rw [h.cells hn rfl, List.any_eq_true]
    exact ⟨(stop, q.id), by simp [links], by simp⟩
  simp [Tree.pairError?, hname, hdepth, hchain]

theorem isBlock_of_isAtomic (h : f.isAtomic = true) : f.isBlock = false := by
  cases f <;> simp_all [isAtomic, isBlock]

/-! ## Parts of a formula -/

section

variable (noted : NodeId → Nat)

/-- Wherever an element stands with its blocks spread out, the pass puts them in place. -/
def Resolvable (f : Shape) : Prop :=
  ∀ t up p, p.Fits t up → p.ids.Nodup → Level noted p → p.shape = f.spread →
    ∃ t' p', Passes t t' (gather (delims noted) p) ∧ Becomes t t' up p p' ∧ p'.shape = f

/-- The same for elements that are parameters. -/
def AllResolvable (fs : List Shape) : Prop :=
  ∀ t up ps, AllFit t up ps → (idsOf ps).Nodup → LevelAll noted ps → shapes ps = spreadRow fs →
    ∃ t' ps', Passes t t' (gatherAll (delims noted) ps) ∧ AllBecome t t' up ps ps' ∧ shapes ps' = fs

/-- The same for the start of a chain. -/
def RowResolvable (fs : List Shape) : Prop :=
  ∀ t up row rest d, RowFits t up (row ++ rest) → (rowIds (row ++ rest)).Nodup →
    LevelRow noted d row → rowShapes row = spreadRow fs →
    ∃ t' row', Passes t t' (gatherRow (delims noted) row) ∧
      RowBecomes t t' up (row ++ rest) (row' ++ rest) ∧ rowShapes row' = fs

end

/-- An element of a resolved formula, with what is inside spread out, is no delimiting command. -/
theorem delims_of_shape (hblock : f.isBlock = false)
    (hf : f.Regular fun name => BlockMarker.side? name = none) (h : p.shape = f.spread) :
    delims noted p = [] := by
  cases p with
  | command i word ps =>
    cases f with
    | command name parameters =>
      rw [shape, spread_command, Shape.command.injEq] at h
      rw [Regular] at hf
      simp [delims, h.1, hf.1]
    | block => cases hblock
    | script marker operand =>
      exfalso
      rw [Regular] at hf
      rw [spread_script marker (isBlock_of_isAtomic hf.1)] at h
      simp [shape] at h
    | literal | empty | group => simp [shape, spread, spreadOnto] at h
  | _ => rfl

theorem Resolvable.literal (text : String) : Resolvable noted (.literal text) := by
  intro t up p h hn _ hshape
  rw [spread, spreadOnto] at hshape
  cases p with
  | literal n text' => exact ⟨t, _, by rw [gather]; exact Passes.nil t, Becomes.refl h hn, hshape⟩
  | _ => simp [shape] at hshape

theorem Resolvable.empty : Resolvable noted .empty := by
  intro t up p h hn _ hshape
  rw [spread, spreadOnto] at hshape
  cases p with
  | empty n => exact ⟨t, _, by rw [gather]; exact Passes.nil t, Becomes.refl h hn, hshape⟩
  | _ => simp [shape] at hshape

/-- A group can be resolved if its chain can. -/
theorem RowResolvable.group (hfs : RowResolvable noted fs) (fence : Fence) :
    Resolvable noted (.group fence fs) := by
  intro t up p h hn hlevel hshape
  rw [spread_group] at hshape
  cases p with
  | group n fence' inner =>
    rw [shape, Shape.group.injEq] at hshape
    obtain ⟨rfl, hshapes⟩ := hshape
    have hninner := hn
    rw [ids, nodup_cons_iff] at hninner
    rw [Level] at hlevel
    obtain ⟨d, hlevel⟩ := hlevel
    obtain ⟨t', inner', hpass, hbecomes, rfl⟩ := hfs t (some n) inner [] d
      (by simpa using h.of_group) (by simpa using hninner.2) hlevel hshapes
    simp only [List.append_nil] at hbecomes
    exact ⟨t', _, by rwa [gather], hbecomes.group h hn, by rw [shape]⟩
  | _ => simp [shape] at hshape

/-- A script can be resolved if its operand can. -/
theorem Resolvable.script (hf : Resolvable noted f) (hatomic : f.isAtomic = true)
    (hregular : f.Regular fun name => BlockMarker.side? name = none) (marker : Marker) :
    Resolvable noted (.script marker f) := by
  intro t up p h hn hlevel hshape
  have hblock := isBlock_of_isAtomic hatomic
  rw [spread_script marker hblock] at hshape
  cases p with
  | script n marker' operand =>
    rw [shape, Shape.script.injEq] at hshape
    obtain ⟨rfl, hshape⟩ := hshape
    have hnoperand := hn
    rw [ids, nodup_cons_iff] at hnoperand
    rw [Level] at hlevel
    obtain ⟨t', operand', hpass, hbecomes, rfl⟩ := hf t (some n) operand h.of_script hnoperand.2
      hlevel hshape
    refine ⟨t', _, ?_, hbecomes.script h hn, by rw [shape]⟩
    rwa [gather, delims_of_shape hblock hregular hshape]
  | _ => simp [shape] at hshape

theorem AllResolvable.command (hfs : AllResolvable noted fs) (name : String) :
    Resolvable noted (.command name fs) := by
  intro t up p h hn hlevel hshape
  rw [spread_command] at hshape
  cases p with
  | command n name' ps =>
    rw [shape, Shape.command.injEq] at hshape
    obtain ⟨rfl, hshapes⟩ := hshape
    have hnps := hn
    rw [ids, nodup_cons_iff] at hnps
    rw [Level] at hlevel
    obtain ⟨t', ps', hpass, hbecome, rfl⟩ := hfs t (some n) ps h.of_command hnps.2 hlevel hshapes
    exact ⟨t', _, by rwa [gather], hbecome.command h hn, by rw [shape]⟩
  | _ => simp [shape] at hshape

theorem AllResolvable.nil : AllResolvable noted [] := by
  intro t up ps h hn _ hshapes
  obtain rfl : ps = [] := by
    cases ps with
    | nil => rfl
    | cons p ps => simp at hshapes
  exact ⟨t, [], Passes.nil t, AllBecome.refl h hn, by simp⟩

theorem AllResolvable.cons (hf : Resolvable noted f) (hgroup : f.isGroup = true)
    (hregular : f.Regular fun name => BlockMarker.side? name = none)
    (hfs : AllResolvable noted fs) : AllResolvable noted (f :: fs) := by
  intro t up ps h hn hlevel hshapes
  have hblock := isBlock_of_isGroup hgroup
  rw [spreadRow_cons, spreadOnto_eq hblock] at hshapes
  cases ps with
  | nil => simp at hshapes
  | cons p ps =>
    rw [shapes_cons, List.cons.injEq] at hshapes
    rw [levelAll_cons] at hlevel
    have hn' := hn
    rw [idsOf_cons, Multiset.nodup_add] at hn'
    obtain ⟨t', p', hpass, hbecomes, rfl⟩ := hf t up p (allFit_cons.mp h).1 hn'.1 hlevel.1 hshapes.1
    have hfirst := AllBecome.head hbecomes h hn
    obtain ⟨t'', ps', hpass', hrest, rfl⟩ := hfs t' up ps (allFit_cons.mp hfirst.fits).2 hn'.2.1
      hlevel.2 hshapes.2
    refine ⟨t'', p' :: ps', ?_, hfirst.trans (hrest.tail hfirst.fits hfirst.trades.nodup), by simp⟩
    rw [gatherAll_cons, delims_of_shape hblock hregular hshapes.1]
    exact hpass.append hpass'

theorem RowResolvable.nil : RowResolvable noted [] := by
  intro t up row rest d h hn _ hshapes
  rw [spreadRow_nil, rowShapes_eq_nil_iff] at hshapes
  subst hshapes
  exact ⟨t, [], Passes.nil t, RowBecomes.refl h hn, by simp⟩

theorem RowResolvable.cons (hf : Resolvable noted f) (hblock : f.isBlock = false)
    (hregular : f.Regular fun name => BlockMarker.side? name = none)
    (hfs : RowResolvable noted fs) : RowResolvable noted (f :: fs) := by
  intro t up row rest d h hn hlevel hshapes
  rw [spreadRow_cons, spreadOnto_eq hblock] at hshapes
  obtain ⟨cell, p, row, rfl, hshape, hrow⟩ := exists_of_rowShapes_eq_cons hshapes
  rw [List.cons_append] at h hn
  obtain ⟨-, hlevel₁, hlevel₂⟩ := levelRow_cons.mp hlevel
  have hn' := hn
  rw [rowIds_cons, nodup_cons_iff, Multiset.nodup_add] at hn'
  obtain ⟨t', p', hpass, hbecomes, rfl⟩ := hf t (some cell) p (rowFits_pair.mp h).2.1 hn'.2.1 hlevel₁
    hshape
  have hfirst := RowBecomes.head hbecomes h hn
  obtain ⟨t'', row', hpass', hrest, rfl⟩ := hfs t' (some cell) row rest d
    (rowFits_pair.mp hfirst.fits).2.2 hn'.2.2.1 hlevel₂ hrow
  refine ⟨t'', (cell, p') :: row', ?_, ?_, by simp⟩
  · rw [gatherRow_cons, delims_of_shape hblock hregular hshape]
    exact hpass.append hpass'
  · exact hfirst.trans (hrest.tail hfirst.fits hfirst.trades.nodup)

/-! ## Blocks -/

theorem delims_delimiterAt (side : Delimiting) (i n c l : NodeId) (name : String)
    (ps : List Plan) :
    delims noted (delimiterAt side i n c l name ps) = [⟨side, name, i, noted i⟩] := by
  rw [delimiterAt, delims, side?_eq_some_iff.mpr rfl]
  rfl

theorem level_delimiterAt (side : Delimiting) (i n c l : NodeId) (name : String)
    (ps : List Plan) : Level noted (delimiterAt side i n c l name ps) ↔ LevelAll noted ps := by
  simp [delimiterAt, Level, delims]

/-- An element that looks like a delimiting command is one. -/
theorem exists_delimiterAt {side : Delimiting} {name : String} {gs : List Shape}
    (h : p.shape = delimiter side name gs) :
    ∃ i n c l ps, p = delimiterAt side i n c l name ps ∧ shapes ps = gs := by
  cases p with
  | command i word ps =>
    rw [shape, delimiter, Shape.command.injEq] at h
    obtain ⟨rfl, hps⟩ := h
    cases ps with
    | nil => simp at hps
    | cons p ps =>
      rw [shapes_cons, List.cons.injEq] at hps
      obtain ⟨hp, hps⟩ := hps
      cases p with
      | group n fence inner =>
        rw [shape, Shape.group.injEq] at hp
        obtain ⟨rfl, hinner⟩ := hp
        obtain ⟨c, q, rest, rfl, hq, hrest⟩ := exists_of_rowShapes_eq_cons hinner
        rw [rowShapes_eq_nil_iff] at hrest
        subst hrest
        cases q with
        | literal l text =>
          rw [shape] at hq
          obtain rfl := Shape.literal.inj hq
          exact ⟨i, n, c, l, ps, rfl, hps⟩
        | _ => simp [shape] at hq
      | _ => simp [shape] at hp
  | _ => simp [shape, delimiter] at h

theorem delims_of_isGroup (h : p.shape.isGroup = true) : delims noted p = [] := by
  cases p with
  | command => simp [shape, isGroup] at h
  | _ => rfl

/-- The body of a block has no element of its own where it is empty. -/
theorem RowResolvable.body {body : List Shape} (hbody : RowResolvable noted body) (hne : body ≠ [])
    {rest : Row} (h : RowFits t up (row ++ rest)) (hn : (rowIds (row ++ rest)).Nodup)
    (hlevel : LevelRow noted d row) (hshapes : rowShapes row = contents (spreadRow body)) :
    ∃ t' row', Passes t t' (gatherRow (delims noted) row) ∧
      RowBecomes t t' up (row ++ rest) (row' ++ rest) ∧ chain (rowShapes row') = body := by
  by_cases hempty : spreadRow body = [.empty]
  · rw [hempty, contents, rowShapes_eq_nil_iff] at hshapes
    subst hshapes
    exact ⟨t, [], Passes.nil t, RowBecomes.refl h hn, (eq_empty_of_spreadRow hempty).symm⟩
  · rw [contents_of_ne hempty] at hshapes
    obtain ⟨t', row', hpass, hbecomes, rfl⟩ := hbody t up row rest d h hn hlevel hshapes
    refine ⟨t', row', hpass, hbecomes, ?_⟩
    cases row' with
    | nil => simp at hne
    | cons x row' => rfl

/-- A block is put in place where its two commands stand. -/
theorem RowResolvable.block {name : String} {parameters body : List Shape}
    (hname : BlockMarker.isName name = true) (hparameters : AllResolvable noted parameters)
    (hbody : RowResolvable noted body) (hne : body ≠ []) (hfs : RowResolvable noted fs) :
    RowResolvable noted (.block name parameters body :: fs) := by
  intro t up row rest d h hn hlevel hshapes
  -- The chain is the two commands, what is between them and what is after them.
  rw [spreadRow_cons, spreadOnto] at hshapes
  obtain ⟨start, p, row, rfl, hp, hrow⟩ := exists_of_rowShapes_eq_cons hshapes
  obtain ⟨mid, row, rfl, hmid, hrow⟩ := exists_of_rowShapes_eq_append hrow
  obtain ⟨stop, q, post, rfl, hq, hpost⟩ := exists_of_rowShapes_eq_cons hrow
  obtain ⟨i, n, c, l, ps, rfl, hps⟩ := exists_delimiterAt hp
  obtain ⟨j, n', c', l', qs, rfl, hqs⟩ := exists_delimiterAt hq
  rw [List.cons_append, List.append_assoc, List.cons_append] at h hn
  simp only [levelRow_cons, levelRow_append, delims_delimiterAt, level_delimiterAt,
    List.mem_singleton, forall_eq] at hlevel
  obtain ⟨hopens, hlevelps, hlevelmid, hcloses, hlevelqs, hlevelpost⟩ := hlevel
  -- The parameters of the opening command are resolved first, then what is between.
  have hopen := (rowFits_pair.mp h).2.1
  have hn' := hn
  rw [rowIds_cons, nodup_cons_iff, Multiset.nodup_add] at hn'
  have hopen' := hopen
  have hnopen := hn'.2.1
  rw [delimiterAt, Fits] at hopen'
  rw [delimiterAt, ids, nodup_cons_iff] at hnopen
  have hnps := hnopen.2
  rw [idsOf_cons, Multiset.nodup_add] at hnps
  obtain ⟨t₁, ps', hpass₁, hps', rfl⟩ := hparameters t (some i) ps (allFit_cons.mp hopen'.2).2
    hnps.2.1 hlevelps hps
  have hb₁ := RowBecomes.head ((hps'.tail hopen'.2 hnopen.2).command hopen hn'.2.1) h hn
  obtain ⟨t₂, mid', hpass₂, hmid', rfl⟩ := hbody.body hne (rowFits_pair.mp hb₁.fits).2.2
    hn'.2.2.1 hlevelmid hmid
  have hb₂ := hb₁.trans (hmid'.tail hb₁.fits hb₁.trades.nodup)
  -- Then the pair is spliced, and what the closing command leaves goes on with the chain.
  obtain ⟨t₃, m, body, extras, hsplice, hb₃, hextras, hbody, -⟩ :=
    run_spliceBlock ⟨.opens, name, i, noted i⟩ ⟨.closes, name, j, noted j⟩ hb₂.fits
      hb₂.trades.nodup
  have hrowShapes : rowShapes (extras ++ post) = spreadRow fs := by
    rw [rowShapes_append, hpost, rowShapes_eq_shapes, hextras, hqs, List.takeWhile_append_dropWhile]
  have hgroups : ∀ x ∈ extras, delims noted x.2 = [] := by
    intro x hx
    have hx : x.2.shape ∈ shapes qs := by
      rw [shapes_eq_map, ← hextras]
      exact List.mem_map_of_mem (List.mem_map_of_mem hx)
    rw [hqs] at hx
    exact delims_of_isGroup (List.mem_takeWhile_imp hx)
  have hn₃ := hb₃.trades.nodup
  rw [rowIds_cons, nodup_cons_iff, Multiset.nodup_add] at hn₃
  obtain ⟨t₄, row', hpass₄, hb₄, rfl⟩ := hfs t₃ (some start) (extras ++ post) rest d
    (by simpa using (rowFits_pair.mp hb₃.fits).2.2) (by simpa using hn₃.2.2.1)
    (levelRow_append.mpr ⟨levelRow_of_levelAll hgroups (hextras ▸ hlevelqs), hlevelpost⟩) hrowShapes
  have hpair : t₂.pairError? ⟨.opens, name, i, noted i⟩ ⟨.closes, name, j, noted j⟩ = none :=
    hb₂.fits.pairError?_eq_none hb₂.trades.nodup rfl rfl rfl (hopens.trans hcloses.symm)
  have hpass := (hpass₁.append hpass₂).pair rfl rfl hname hpair hsplice
  refine ⟨t₄, (start, .block m name ps' body) :: row', ?_, ?_, ?_⟩
  · have hlist : gatherRow (delims noted) ((start, delimiterAt .opens i n c l name ps) ::
        (mid ++ (stop, delimiterAt .closes j n' c' l' name qs) :: post)) =
        ⟨.opens, name, i, noted i⟩ :: (gatherAll (delims noted) ps ++ gatherRow (delims noted) mid ++
          [⟨.closes, name, j, noted j⟩]) ++ gatherRow (delims noted) (extras ++ post) := by
      simp [delims_delimiterAt, markers_delimiterAt, gatherRow_eq _ extras, hextras]
    rw [hlist]
    exact hpass.append hpass₄
  · have hb := (hb₂.trans hb₃).trans (RowBecomes.tail (by simpa using hb₄) hb₃.fits hb₃.trades.nodup)
    simpa [delimiterAt] using hb
  · rw [rowShapes_cons, shape, hbody]

/-! ## Formulas -/

mutual

/-- Every resolved element that is no block can be resolved again. -/
theorem resolvable : ∀ {f : Shape}, (f.Regular fun name => BlockMarker.side? name = none) →
    f.isBlock = false → Resolvable noted f
  | .literal text, _, _ => Resolvable.literal text
  | .empty, _, _ => Resolvable.empty
  | .group fence inner, hf, _ => by
    rw [Regular] at hf
    exact (rowResolvable hf).group fence
  | .script marker operand, hf, _ => by
    rw [Regular] at hf
    exact (resolvable hf.2 (isBlock_of_isAtomic hf.1)).script hf.1 hf.2 marker
  | .command name parameters, hf, _ => by
    rw [Regular] at hf
    exact (allResolvable hf.2.2 hf.2.1).command name
  | .block .., _, hblock => by cases hblock

theorem allResolvable : ∀ {fs : List Shape}, Resolved fs → (∀ f ∈ fs, f.isGroup = true) →
    AllResolvable noted fs
  | [], _, _ => AllResolvable.nil
  | f :: fs, hfs, hgroups => by
    rw [Resolved, regularRow_cons] at hfs
    have hgroup := hgroups f List.mem_cons_self
    exact AllResolvable.cons (resolvable hfs.1 (isBlock_of_isGroup hgroup)) hgroup hfs.1
      (allResolvable hfs.2 fun g hg => hgroups g (List.mem_cons_of_mem _ hg))

theorem rowResolvable : ∀ {fs : List Shape}, Resolved fs → RowResolvable noted fs
  | [], _ => RowResolvable.nil
  | .block name parameters body :: fs, hfs => by
    rw [Resolved, regularRow_cons, Regular] at hfs
    obtain ⟨⟨hname, hgroups, hparameters, hne, hbody⟩, hfs⟩ := hfs
    exact RowResolvable.block hname (allResolvable hparameters hgroups) (rowResolvable hbody) hne
      (rowResolvable hfs)
  | .literal _ :: fs, hfs | .empty :: fs, hfs | .group .. :: fs, hfs | .script .. :: fs, hfs
  | .command .. :: fs, hfs => by
    rw [Resolved, regularRow_cons] at hfs
    exact RowResolvable.cons (resolvable hfs.1 rfl) rfl hfs.1 (rowResolvable hfs.2)

end

end Plan

namespace Tree

/-- The blocks of a resolved formula are put in place again where they are spread out. -/
theorem resolveBlocks_complete {t : Tree} {fs : List Shape} (h : t.Depicts (spreadRow fs))
    (hfs : Resolved fs) :
    ∃ t', resolveBlocks.run.run t = (.ok (), t') ∧ t'.Depicts fs := by
  obtain ⟨row, hroot, hfits, hn, hshapes⟩ := h
  obtain ⟨noted, hnoted⟩ := exists_noted hn 0
  obtain ⟨t', row', hpass, hbecomes, rfl⟩ := rowResolvable hfs t none row [] 0 (by simpa using hfits)
    (by simpa using hn) (levelRow_of_visits hnoted) hshapes
  simp only [List.append_nil] at hbecomes
  have hcollect := (BlockMarker.collect_eq_ok_iff hroot hfits hn hnoted).mpr ⟨hpass.names, rfl⟩
  refine ⟨t', ?_, row', ?_, hbecomes.fits, hbecomes.trades.nodup, rfl⟩
  · have hrun := hpass.run_eq [] []
    rw [List.append_nil] at hrun
    rw [resolveBlocks, Edit.run_get_bind, hcollect]
    exact hrun
  · rw [hbecomes.trades.keeps.root_eq, ← hroot]
    exact hbecomes.next_eq

/-- A resolved formula that spreads to a canonical one is read back from its text. -/
theorem parseMath_complete {fs : List Shape} (hfs : Resolved fs)
    (hcanonical : CanonicalChain none (spreadRow fs)) :
    ∃ t, parseMath (String.ofList (charsOf fs)) = .ok t ∧ t.Depicts fs := by
  obtain ⟨t, hparse, ht⟩ := parse_complete hcanonical
  obtain ⟨t', hrun, ht'⟩ := resolveBlocks_complete ht hfs
  rw [charsOf_spreadRow] at hparse
  exact ⟨t', by rw [parseMath, hparse]; dsimp only; rw [hrun], ht'⟩

end Tree

end Formulary
