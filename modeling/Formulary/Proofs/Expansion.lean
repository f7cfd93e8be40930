import Formulary.Proofs.Names
import Formulary.Proofs.Uses

/-!
# Expansion is rewriting

The walk that expands the macros of a formula, against the rewriting of its shape. The walk holds on
to cells while what they hold is taken out, replaced and looked at again; the rewriting only knows
the elements from there on.

`Tracks` says that a part of the walk ends only as a part of the rewriting does: with an error in a
macro that has the same code, or with a formula of the shape that the rewriting gives, and with the
same macros known. It also says that what is left after a failure is a formula, and a neat one, and
that a visitor which does the same wherever expansion can stand (`Tree.Meets`) is led the same way.
Of names that were to go, definitions and those of known macros, none is left (`Clear`). The walk is
given a number of steps, and everything is proved for all of its parts together, by induction on
that number (`tracked`).
-/

namespace Formulary

open Plan Shape

variable {t : Tree} {ds : Definitions} {fs : List Shape} {ms : List Macro} {body row' : Row}
  {d : Definition} {m : Macro} {name : String} {ps' : List Plan}

/-! ## Refinement -/

/-- Definitions that stand for macros with neat bodies. -/
structure Definitions.StandFor (ds : Definitions) (ms : List Macro) : Prop where
  each : List.Forall₂ Definition.StandsFor ds.toList ms
  neat : ∀ m ∈ ms, NeatRow m.body

/-- No command has a name that was to go. -/
def Clear (blocked : String → Prop) (names : List String) : Prop := ∀ name ∈ names, ¬blocked name

theorem clear_nil {blocked : String → Prop} : Clear blocked [] := List.forall_mem_nil _

theorem clear_append {blocked : String → Prop} {names names' : List String} :
    Clear blocked (names ++ names') ↔ Clear blocked names ∧ Clear blocked names' :=
  List.forall_mem_append

/-- Definitions that stand for macros, with all names that are to go among theirs. -/
structure Definitions.Cover (blocked : String → Prop) (ds : Definitions) (ms : List Macro) : Prop
    extends ds.StandFor ms where
  covers : ∀ name, blocked name → name = definingCommand ∨ ∃ m ∈ ms, m.name = name

/-- The walk ends only as the rewriting does. What it leaves is described by `post`, and by `bad`
after a failure, for which a macro is always to blame. -/
def Refines {α : Type} (walk : Walk Definitions Fault Unit) (t : Tree) (ds : Definitions)
    (rewriting : Rewriting α) (ms : List Macro) (post : α → Tree → Prop) (bad : Tree → Prop) : Prop :=
  ∀ r t' ds', walk.run.run (t, ds) = some (r, t', ds') → ∃ ms', ds'.StandFor ms' ∧
    match r with
    | .ok () => ∃ a, post a t' ∧ rewriting.run.run ms = some (.ok a, ms')
    | .error x => (bad t' ∧ ∃ e, x = .expansion e) ∧ ∃ code, x.diagnostic.code = some code ∧
        rewriting.run.run ms = some (.error code, ms')

/-- A walk that ends does so as the rewriting does: both end well, or both fail in a macro. -/
inductive EndAlike (blocked : String → Prop) {α : Type} (post : α → Tree → Prop)
    (bad : Tree → Prop) :
    Option (Except Fault Unit × Tree × Definitions) → Option (Except Code α × List Macro) → Prop
  | endless {out : Option (Except Code α × List Macro)} : EndAlike blocked post bad none out
  | ok {a : α} {t : Tree} {ds : Definitions} {ms : List Macro} : ds.Cover blocked ms → post a t →
      EndAlike blocked post bad (some (.ok (), t, ds)) (some (.ok a, ms))
  | error {x : Fault} {code : Code} {t : Tree} {ds : Definitions} {ms : List Macro} :
      ds.Cover blocked ms → bad t → x.OfMacro code →
      EndAlike blocked post bad (some (.error x, t, ds)) (some (.error code, ms))

/-- A walk refines a rewriting, with names that are to go, and another walk goes the same way. -/
structure Tracks (blocked : String → Prop) {α : Type} (walk other : Walk Definitions Fault Unit)
    (t : Tree) (ds : Definitions) (x : Rewriting α) (ms : List Macro) (post : α → Tree → Prop)
    (bad : Tree → Prop) : Prop where
  same : other.run.run (t, ds) = walk.run.run (t, ds)
  alike : EndAlike blocked post bad (walk.run.run (t, ds)) (x.run.run ms)

namespace Tracks

variable {α β : Type} {walk walk' other other' : Walk Definitions Fault Unit} {t : Tree}
  {ds : Definitions} {x x' : Rewriting α} {ms : List Macro} {post post' : α → Tree → Prop}
  {bad bad' : Tree → Prop} {blocked : String → Prop}

theorem refines (h : Tracks blocked walk other t ds x ms post bad) :
    Refines walk t ds x ms post bad := by
  intro r t' ds' hrun
  have halike := h.alike
  rw [hrun] at halike
  generalize x.run.run ms = out at halike ⊢
  cases halike with
  | ok hknown hpost => exact ⟨_, hknown.toStandFor, _, hpost, rfl⟩
  | error hknown hbad hcode =>
    exact ⟨_, hknown.toStandFor, ⟨hbad, hcode.exists_eq⟩, _, hcode.diagnostic_code, rfl⟩

theorem mono (h : Tracks blocked walk other t ds x ms post bad)
    (hpost : ∀ a t', post a t' → post' a t')
    (hbad : ∀ t', bad t' → bad' t') : Tracks blocked walk other t ds x ms post' bad' := by
  obtain ⟨hsame, halike⟩ := h
  refine ⟨hsame, ?_⟩
  generalize walk.run.run (t, ds) = out at halike ⊢
  generalize x.run.run ms = out' at halike ⊢
  cases halike with
  | endless => exact .endless
  | ok hknown ha => exact .ok hknown (hpost _ _ ha)
  | error hknown hleft hcode => exact .error hknown (hbad _ hleft) hcode

/-- Only the runs from the given state count. -/
theorem congr (h : Tracks blocked walk other t ds x ms post bad)
    (hwalk : walk'.run.run (t, ds) = walk.run.run (t, ds))
    (hother : other'.run.run (t, ds) = other.run.run (t, ds))
    (hx : x'.run.run ms = x.run.run ms) : Tracks blocked walk' other' t ds x' ms post bad := by
  obtain ⟨hsame, halike⟩ := h
  refine ⟨by rw [hother, hwalk, hsame], ?_⟩
  rw [hwalk, hx]
  exact halike

theorem endless : Tracks blocked Walk.endless Walk.endless t ds x ms post bad :=
  ⟨rfl, .endless⟩

theorem of_ok {a : α} (hknown : ds.Cover blocked ms) (hpost : post a t) :
    Tracks blocked (pure ()) (pure ()) t ds (pure a) ms post bad :=
  ⟨rfl, .ok hknown hpost⟩

/-- One part after the other. -/
theorem bind {next next' : Unit → Walk Definitions Fault Unit} {f : α → Rewriting β}
    {post' : β → Tree → Prop} (h : Tracks blocked walk other t ds x ms post bad)
    (hbad : ∀ t', bad t' → bad' t')
    (hnext : ∀ a t' ds' ms', post a t' → ds'.Cover blocked ms' →
      Tracks blocked (next ()) (next' ()) t' ds' (f a) ms' post' bad') :
    Tracks blocked (walk >>= next) (other >>= next') t ds (x >>= f) ms post' bad' := by
  obtain ⟨hsame, halike⟩ := h
  generalize hw : walk.run.run (t, ds) = out at hsame halike
  generalize hx : x.run.run ms = out' at halike
  cases halike with
  | endless =>
    refine ⟨by rw [run_bind_of_none hsame, run_bind_of_none hw], ?_⟩
    rw [run_bind_of_none hw]
    exact .endless
  | ok hknown ha =>
    obtain ⟨hsame', halike'⟩ := hnext _ _ _ _ ha hknown
    refine ⟨by rw [run_bind_of_ok hsame, run_bind_of_ok hw, hsame'], ?_⟩
    rw [run_bind_of_ok hw, run_bind_of_ok hx]
    exact halike'
  | error hknown hleft hcode =>
    refine ⟨by rw [run_bind_of_error hsame, run_bind_of_error hw], ?_⟩
    rw [run_bind_of_error hw, run_bind_of_error hx]
    exact .error hknown (hbad _ hleft) hcode

/-- Nothing more is done in the walk, and the rewriting puts its result together. -/
theorem map {f : α → β} {post' : β → Tree → Prop} (h : Tracks blocked walk other t ds x ms post bad)
    (hpost : ∀ a t', post a t' → post' (f a) t') (hbad : ∀ t', bad t' → bad' t') :
    Tracks blocked walk other t ds (do return f (← x)) ms post' bad' := by
  have hdone : Tracks blocked (walk >>= pure) (other >>= pure) t ds (do return f (← x)) ms post'
      bad' :=
    h.bind hbad fun a t' _ _ ha hknown => .of_ok hknown (hpost a t' ha)
  rwa [bind_pure, bind_pure] at hdone

/-- What is done after the first part changes nothing. -/
theorem followed {next next' : Unit → Walk Definitions Fault Unit}
    (h : Tracks blocked walk other t ds x ms post bad)
    (hnext : ∀ a t' ds', post a t' → (next ()).run.run (t', ds') = some (.ok (), t', ds') ∧
      (next' ()).run.run (t', ds') = some (.ok (), t', ds')) :
    Tracks blocked (walk >>= next) (other >>= next') t ds x ms post bad := by
  have hdone : Tracks blocked (walk >>= next) (other >>= next') t ds (x >>= pure) ms post bad := by
    refine h.bind (fun _ hleft => hleft) fun a t' ds' ms' ha hknown => ?_
    obtain ⟨hwalk, hother⟩ := hnext a t' ds' ha
    exact (of_ok hknown ha).congr hwalk hother rfl
  rwa [bind_pure] at hdone

end Tracks

/-! ## Macros that are known -/

namespace Definitions.StandFor

variable {ds : Definitions} {ms : List Macro}

/-- The same names are known. -/
theorem find? (h : ds.StandFor ms) (name : String) :
    (ds.find? name = none ∧ (ms.find? fun m => m.name == name) = none) ∨
      ∃ d m, ds.find? name = some d ∧ (ms.find? fun m => m.name == name) = some m ∧
        d.StandsFor m ∧ NeatRow m.body := by
  obtain ⟨list⟩ := ds
  obtain ⟨heach, hneat⟩ := h
  rw [Definitions.find?]
  dsimp only at heach ⊢
  induction heach with
  | nil => exact Or.inl ⟨rfl, rfl⟩
  | @cons d m ds ms hdm _ ih =>
    rw [List.forall_mem_cons] at hneat
    rw [List.find?_cons, List.find?_cons, hdm.name_eq]
    cases hname : m.name == name with
    | true => exact Or.inr ⟨d, m, rfl, rfl, hdm, hneat.1⟩
    | false => exact ih hneat.2

/-- A macro that is recorded is defined, or its name is taken for both. -/
theorem insert (h : ds.StandFor ms) (hdm : d.StandsFor m) (hneat : NeatRow m.body) (place : Span) :
    (∃ ds', ds.insert d place = .ok ds' ∧ ds'.StandFor (ms ++ [m]) ∧
        (Rewriting.record m).run.run ms = some (.ok (), ms ++ [m])) ∨
      ∃ e, ds.insert d place = .error e ∧ e.code = .duplicateDefinition ∧
        (Rewriting.record m).run.run ms = some (.error .duplicateDefinition, ms) := by
  have hany : (ms.any fun known => known.name == m.name) =
      (ms.find? fun known => known.name == m.name).isSome := by
    rw [Bool.eq_iff_iff, List.find?_isSome, List.any_eq_true]
  rw [Rewriting.run_record, hany, Definitions.insert, Definitions.contains, hdm.name_eq]
  rcases h.find? m.name with ⟨hds, hms⟩ | ⟨d', m', hds, hms, -, -⟩
  · rw [hds, hms]
    refine Or.inl ⟨_, rfl, ⟨?_, ?_⟩, rfl⟩
    · exact List.rel_append h.each (.cons hdm .nil)
    · rw [List.forall_mem_append]
      exact ⟨h.neat, by simpa using hneat⟩
  · rw [hds, hms]
    exact Or.inr ⟨_, rfl, rfl, rfl⟩

end Definitions.StandFor

namespace Definitions.Cover

variable {blocked : String → Prop} {ds ds' : Definitions}

theorem push (h : ds.Cover blocked ms) (h' : ds'.StandFor (ms ++ [m])) :
    ds'.Cover blocked (ms ++ [m]) :=
  ⟨h', fun name hname =>
    (h.covers name hname).imp_right (Exists.imp fun _ => And.imp_left (List.mem_append_left _))⟩

/-- What is passed over is not to go. -/
theorem not_blocked (h : ds.Cover blocked ms) {parameters : List Shape}
    (hpass : Rewriting.PassesOver ms (.command name parameters)) : ¬blocked name := by
  intro hblocked
  obtain ⟨hname, hnone⟩ := hpass name parameters rfl
  rcases h.covers name hblocked with hdefining | ⟨m, hm, hmname⟩
  · exact hname hdefining
  · exact List.find?_eq_none.mp hnone m hm (beq_iff_eq.mpr hmname)

end Definitions.Cover

/-! ## What stands where the walk is -/

section

variable {t t' : Tree} {up : Option NodeId} {row : Row} {p : Plan} {ps : List Plan}
  {id cell : NodeId}

/-- A neat chain in the store. -/
structure RowLive (t : Tree) (up : Option NodeId) (row : Row) : Prop where
  fits : RowFits t up row
  nodup : (rowIds row).Nodup
  root_lt : t.root < t.size
  neat : NeatRow (rowShapes row)

/-- A neat element in the store. -/
structure Live (t : Tree) (up : Option NodeId) (p : Plan) : Prop where
  fits : p.Fits t up
  nodup : p.ids.Nodup
  root_lt : t.root < t.size
  neat : p.shape.Neat

/-- Neat parameters in the store. -/
structure AllLive (t : Tree) (up : Option NodeId) (ps : List Plan) : Prop where
  fits : AllFit t up ps
  nodup : (idsOf ps).Nodup
  root_lt : t.root < t.size
  neat : NeatRow (shapes ps)
  groups : ∀ f ∈ shapes ps, f.isGroup = true

theorem root_lt_of_keeps {changed : Multiset NodeId} (h : t.root < t.size)
    (hk : t.Keeps t' changed) : t'.root < t'.size := by
  rw [hk.root_eq]
  exact h.trans_le hk.size_le

theorem RowLive.becomes (h : RowLive t up row) (hrow : RowBecomes t t' up row row')
    (hneat : NeatRow (rowShapes row')) : RowLive t' up row' :=
  ⟨hrow.fits, hrow.trades.nodup, root_lt_of_keeps h.root_lt hrow.trades.keeps, hneat⟩

theorem RowLive.keeps (h : RowLive t up row) (hk : t.Keeps t' 0) : RowBecomes t t' up row row := by
  refine ⟨h.fits.of_keeps hk (by simp), rfl, ?_⟩
  exact .of_keeps (hk.mono (Multiset.zero_subset _)) h.nodup h.fits.lt_size

theorem Live.becomes {p' : Plan} (h : Live t up p) (hp : Becomes t t' up p p')
    (hneat : p'.shape.Neat) : Live t' up p' :=
  ⟨hp.fits, hp.trades.nodup, root_lt_of_keeps h.root_lt hp.trades.keeps, hneat⟩

theorem Live.keeps (h : Live t up p) (hk : t.Keeps t' 0) : Becomes t t' up p p := by
  refine ⟨h.fits.of_keeps hk (by simp), rfl, ?_⟩
  exact .of_keeps (hk.mono (Multiset.zero_subset _)) h.nodup h.fits.lt_size

theorem RowLive.element (h : RowLive t up ((cell, p) :: row)) : Live t (some cell) p := by
  refine ⟨(rowFits_pair.mp h.fits).2.1, ?_, h.root_lt, ?_⟩
  · exact Multiset.nodup_of_le
      (ids_le_rowIds (List.mem_cons_self (a := (cell, p)) (l := row))) h.nodup
  · have hneat := h.neat
    rw [rowShapes_cons, neatRow_cons] at hneat
    exact hneat.1

theorem RowLive.rest (h : RowLive t up ((cell, p) :: row)) : RowLive t (some cell) row := by
  refine ⟨(rowFits_pair.mp h.fits).2.2, ?_, h.root_lt, ?_⟩
  · exact Multiset.nodup_of_le (rowIds_le_cons (cell, p) row) h.nodup
  · have hneat := h.neat
    rw [rowShapes_cons, neatRow_cons] at hneat
    exact hneat.2

theorem Plan.RowBecomes.shapes_ne_nil {first : NodeId} (h : RowBecomes t t' up row row')
    (hfirst : nextCell row = some first) : rowShapes row' ≠ [] := by
  intro hnil
  have hnext := h.next_eq
  rw [(rowShapes_eq_nil_iff row').mp hnil, hfirst] at hnext
  cases hnext

theorem Plan.AllBecome.shapes_eq_nil (h : AllBecome t t' up ps ps') (hnil : shapes ps = []) :
    shapes ps' = [] := by
  rw [shapes_eq_map, List.map_eq_nil_iff] at *
  have hids := h.ids_eq
  rwa [hnil, List.map_nil, List.map_eq_nil_iff] at hids

theorem Live.inner {fence : Fence} {inner : Row} (h : Live t up (group id fence inner)) :
    RowLive t (some id) inner ∧ ∃ first, nextCell inner = some first := by
  obtain ⟨hfits, hn, hroot, hneat⟩ := h
  rw [Fits] at hfits
  rw [shape, Neat] at hneat
  obtain ⟨⟨first, hfirst, -⟩, hrow⟩ := hfits
  exact ⟨⟨hrow, Multiset.nodup_of_le (inside_le _) hn, hroot, hneat.2⟩, first, hfirst⟩

theorem Live.operand {marker : Marker} (h : Live t up (script id marker p)) :
    Live t (some id) p ∧ p.shape.isAtomic = true := by
  obtain ⟨hfits, hn, hroot, hneat⟩ := h
  rw [shape, Neat] at hneat
  exact ⟨⟨hfits.of_script, Multiset.nodup_of_le (inside_le _) hn, hroot, hneat.2⟩, hneat.1⟩

theorem Live.parameters (h : Live t up (command id name ps)) :
    AllLive t (some id) ps ∧ id ∉ idsOf ps := by
  obtain ⟨hfits, hn, hroot, hneat⟩ := h
  rw [shape, Neat] at hneat
  rw [ids, nodup_cons_iff] at hn
  exact ⟨⟨hfits.of_command, hn.2, hroot, hneat.2.2.2, hneat.2.2.1⟩, hn.1⟩

theorem Live.block (h : Live t up (block id name ps body)) :
    AllLive t (some id) ps ∧ id ∉ idsOf ps ∧ RowLive t (some id) body ∧
      ∃ first, nextCell body = some first := by
  obtain ⟨hfits, hn, hroot, hneat⟩ := h
  rw [Fits] at hfits
  rw [shape, Neat] at hneat
  obtain ⟨⟨first, hfirst, -⟩, hall, hrow⟩ := hfits
  obtain ⟨-, hgroups, hparameters, -, hbody⟩ := hneat
  rw [ids, nodup_cons_iff, Multiset.mem_add, not_or, Multiset.nodup_add] at hn
  exact ⟨⟨hall, hn.2.1, hroot, hparameters, hgroups⟩, hn.1.1, ⟨hrow, hn.2.2.1, hroot, hbody⟩, first,
    hfirst⟩

end

/-! ## One step of the walk -/

/-- Where expansion can stand: at a chain, at an element of it, at an operand or at a parameter. -/
inductive Tree.Meets (t : Tree) : NodeId → Prop
  | chain {up : Option NodeId} {row : Row} {cell : NodeId} :
    RowLive t up row → nextCell row = some cell → t.Meets cell
  | element {up : Option NodeId} {cell : NodeId} {p : Plan} {rest : Row} :
    RowLive t up ((cell, p) :: rest) → t.Meets p.id
  | operand {up : Option NodeId} {s : NodeId} {marker : Marker} {p : Plan} :
    Live t up (script s marker p) → t.Meets p.id
  | parameter {up : Option NodeId} {p : Plan} : Live t up p → p.shape.isGroup = true → t.Meets p.id

section

open Definitions (visitor)

/-- Whether the visitor only looks at a node. -/
def Definitions.LooksAt (ds : Definitions) (t : Tree) (id : NodeId) : Prop :=
  ∀ name parameters, t.node id = .command name parameters →
    name ≠ definingCommand ∧ ds.find? name = none

variable {t : Tree} {ds : Definitions} {id : NodeId} {parameters : List NodeId}
  {walk : Walk Definitions Fault Unit}

theorem run_visitor_into (h : ds.LooksAt t id) :
    (visitor id).run.run (t, ds) = some (.ok .into, t, ds) := by
  rw [visitor, run_bind_of_ok run_tree]
  split
  · rename_i name parameters hnode
    obtain ⟨hname, hfind⟩ := h name parameters hnode
    rw [if_neg hname, run_bind_of_ok run_notes, hfind]
    rfl
  · rfl

theorem run_visitor_define (hnode : t.node id = .command definingCommand parameters) :
    (visitor id).run.run (t, ds) =
      (do Definitions.define id; return .past : Walk Definitions Fault Descent).run.run (t, ds) := by
  rw [visitor, run_bind_of_ok run_tree, hnode]
  dsimp only
  rw [if_pos rfl]

theorem run_visitor_use (hnode : t.node id = .command name parameters)
    (hname : name ≠ definingCommand) (hfind : ds.find? name = some d) :
    (visitor id).run.run (t, ds) =
      (do Walk.edit (d.expand id); return .past : Walk Definitions Fault Descent).run.run
        (t, ds) := by
  rw [visitor, run_bind_of_ok run_tree, hnode]
  dsimp only
  rw [if_neg hname, run_bind_of_ok run_notes, hfind]

theorem run_through_into (h : ds.LooksAt t id) (n : Nat) :
    (Walk.through visitor (n + 1) id).run.run (t, ds) =
      (Walk.below visitor n id (t.node id)).run.run (t, ds) := by
  rw [Walk.through_succ, run_bind_of_ok (run_visitor_into h)]
  dsimp only
  rw [run_bind_of_ok run_tree]

theorem run_through_past (h : (visitor id).run.run (t, ds) =
      (do walk; return .past : Walk Definitions Fault Descent).run.run (t, ds)) (n : Nat) :
    (Walk.through visitor (n + 1) id).run.run (t, ds) = walk.run.run (t, ds) := by
  rw [Walk.through, run_bind_congr h, bind_assoc]
  simp only [pure_bind, bind_pure_unit]

/-- The visitor goes into a node only if it leaves everything as it is and the node is neither a
definition nor a use. -/
theorem eq_of_run_visitor_into {s : Tree × Definitions}
    (h : (visitor id).run.run (t, ds) = some (.ok .into, s)) : s = (t, ds) ∧ ds.LooksAt t id := by
  have hpasses : ds.LooksAt t id := by
    intro name parameters hnode
    rw [visitor, run_bind_of_ok run_tree, hnode] at h
    dsimp only at h
    by_cases hname : name = definingCommand
    · rw [if_pos hname] at h
      rcases run_bind_eq_some h with ⟨-, s₁, -, hpast⟩ | ⟨e, s₁, -, hout⟩
      · cases hpast
      · cases hout
    · rw [if_neg hname, run_bind_of_ok run_notes] at h
      rcases hfind : ds.find? name with _ | d
      · exact ⟨hname, rfl⟩
      · rw [hfind] at h
        rcases run_bind_eq_some h with ⟨-, s₁, -, hpast⟩ | ⟨e, s₁, -, hout⟩
        · cases hpast
        · cases hout
  rw [run_visitor_into hpasses] at h
  cases h
  exact ⟨rfl, hpasses⟩

/-- A visitor that does with everything expansion can meet what expansion does. -/
def AgreesOnMet (other : Visitor Definitions Fault) : Prop :=
  ∀ id t ds, (t.Meets id ∧ ∃ ms, ds.StandFor ms) →
    (other id).run.run (t, ds) = (visitor id).run.run (t, ds)

theorem agreesOnMet_visitor : AgreesOnMet visitor := fun _ _ _ _ => rfl

variable {other : Visitor Definitions Fault} {n : Nat} {ms : List Macro}

/-- What is shown is the same, so the walks go apart below it if at all. -/
theorem AgreesOnMet.through (hother : AgreesOnMet other) (hmeets : t.Meets id)
    (hknown : ds.StandFor ms)
    (hbelow : ds.LooksAt t id → (Walk.below other n id (t.node id)).run.run (t, ds) =
      (Walk.below visitor n id (t.node id)).run.run (t, ds)) :
    (Walk.through other (n + 1) id).run.run (t, ds) =
      (Walk.through visitor (n + 1) id).run.run (t, ds) := by
  rw [Walk.through_succ, Walk.through_succ]
  refine run_bind_agree (hother id t ds ⟨hmeets, ms, hknown⟩) ?_
  rintro (_ | _) s hinto
  · obtain ⟨rfl, hlooks⟩ := eq_of_run_visitor_into hinto
    exact hbelow hlooks
  · rfl

variable {α : Type} {x : Rewriting α} {post : α → Tree → Prop} {bad : Tree → Prop}
  {blocked : String → Prop}

/-- The walk goes into a node. -/
theorem Tracks.into (hother : AgreesOnMet other) (hmeets : t.Meets id)
    (hknown : ds.Cover blocked ms) (hlooks : ds.LooksAt t id)
    (h : Tracks blocked (Walk.below visitor n id (t.node id)) (Walk.below other n id (t.node id))
      t ds x ms post bad) :
    Tracks blocked (Walk.through visitor (n + 1) id) (Walk.through other (n + 1) id) t ds x ms
      post bad := by
  refine ⟨hother.through hmeets hknown.toStandFor fun _ => h.same, ?_⟩
  rw [run_through_into hlooks]
  exact h.alike

/-- The walk goes past a node in one step. -/
theorem Tracks.past (hother : AgreesOnMet other) (hmeets : t.Meets id)
    (hknown : ds.Cover blocked ms) (hnot : ¬ ds.LooksAt t id) (hvisitor : (visitor id).run.run (t, ds) =
      (do walk; return .past : Walk Definitions Fault Descent).run.run (t, ds))
    (h : EndAlike blocked post bad (walk.run.run (t, ds)) (x.run.run ms)) :
    Tracks blocked (Walk.through visitor n id) (Walk.through other n id) t ds x ms post bad := by
  cases n with
  | zero =>
    rw [Walk.through, Walk.through]
    exact Tracks.endless
  | succ n =>
    refine ⟨hother.through hmeets hknown.toStandFor fun hlooks => absurd hlooks hnot, ?_⟩
    rw [run_through_past hvisitor]
    exact h

/-- A definition is looked at in one step. -/
theorem Tracks.define (hother : AgreesOnMet other) (hmeets : t.Meets id)
    (hknown : ds.Cover blocked ms) (hnode : t.node id = .command definingCommand parameters)
    (h : EndAlike blocked post bad ((Definitions.define id).run.run (t, ds)) (x.run.run ms)) :
    Tracks blocked (Walk.through visitor n id) (Walk.through other n id) t ds x ms post bad := by
  exact Tracks.past hother hmeets hknown (fun hlooks => (hlooks _ _ hnode).1 rfl)
    (run_visitor_define hnode) h

/-- A use is looked at in one step. -/
theorem Tracks.use (hother : AgreesOnMet other) (hmeets : t.Meets id)
    (hknown : ds.Cover blocked ms) (hnode : t.node id = .command name parameters)
    (hname : name ≠ definingCommand)
    (hfind : ds.find? name = some d)
    (h : EndAlike blocked post bad ((Walk.edit (d.expand id)).run.run (t, ds)) (x.run.run ms)) :
    Tracks blocked (Walk.through visitor n id) (Walk.through other n id) t ds x ms post bad := by
  refine Tracks.past hother hmeets hknown (fun hlooks => ?_) (run_visitor_use hnode hname hfind) h
  rw [(hlooks _ _ hnode).2] at hfind
  cases hfind

end

/-! ## Definitions and uses in a chain -/

section

open Definitions (visitor)
open Rewriting (PassesOver takeOut putIn putInOperand rewriteRow rewriteInside rewriteOperand
  rewriteAll)

variable {t' : Tree} {row rest : Row} {id cell s : NodeId} {ps : List Plan} {marker : Marker}
  {p : Plan} {f : Shape} {node : Node} {t : Tree} {up : Option NodeId} {ds : Definitions}
  {ms : List Macro} {n : Nat} {other : Visitor Definitions Fault} {name : String}
  {before : List NodeId} {blocked : String → Prop}

/-- A chain became another of the given shape. -/
def RowReshaped (t : Tree) (up : Option NodeId) (row : Row) (fs : List Shape) (t' : Tree) : Prop :=
  ∃ row', RowBecomes t t' up row row' ∧ rowShapes row' = fs ∧ NeatRow fs

/-- What is left of a chain after a failure. -/
def RowLeft (t : Tree) (up : Option NodeId) (row : Row) (t' : Tree) : Prop :=
  ∃ fs, RowReshaped t up row fs t'

theorem RowLive.left (h : RowLive t up row) (hk : t.Keeps t' 0) : RowLeft t up row t' :=
  ⟨_, row, h.keeps hk, rfl, h.neat⟩

/-- The next element of a chain has come into its first cell, in the place of the one at `id`. -/
def MovedUp (t : Tree) (up : Option NodeId) (row : Row) (cell id : NodeId) (fs : List Shape)
    (t' : Tree) : Prop :=
  ∃ q rest, RowBecomes t t' up row ((cell, q) :: rest) ∧ q.id ≠ id ∧
    rowShapes ((cell, q) :: rest) = fs ∧ NeatRow fs

/-- How a definition that has a cell is read, noted and taken out. -/
theorem run_define_cell (ds : Definitions) (hcell : t.owningCell id = some cell) :
    (Definitions.define id).run.run (t, ds) =
      (match Definition.read t id cell with
        | .error e => throw (.expansion e)
        | .ok (d, count) => do
          match (← Walk.notes).insert d (t.span id) with
          | .error e => throw (.expansion e)
          | .ok ds =>
            Walk.note fun _ => ds
            Walk.edit ((Definitions.deleteElements cell count).reportedAt (t.span id)) :
        Walk Definitions Fault Unit).run.run (t, ds) := by
  rw [Definitions.define, run_bind_of_ok run_tree]
  rewrite [hcell]
  rfl

/-- A definition cannot be read, its name is taken, or it is noted and taken out of the chain. -/
theorem run_define (h : RowFits t up ((cell, command id definingCommand ps) :: row))
    (hn : (rowIds ((cell, command id definingCommand ps) :: row)).Nodup) (ds : Definitions) :
    (∃ e, Macro.read (shapes ps) (rowShapes row) = .error e.code ∧
        (Definitions.define id).run.run (t, ds) = some (.error (.expansion e), t, ds)) ∨
      ∃ d m fs, Macro.read (shapes ps) (rowShapes row) = .ok (m, fs) ∧ d.StandsFor m ∧
        ((∃ e, ds.insert d (t.span id) = .error e ∧
            (Definitions.define id).run.run (t, ds) = some (.error (.expansion e), t, ds)) ∨
          ∃ ds' t' q rest, ds.insert d (t.span id) = .ok ds' ∧
            (Definitions.define id).run.run (t, ds) = some (.ok (), t', ds') ∧
            RowBecomes t t' up ((cell, command id definingCommand ps) :: row) ((cell, q) :: rest) ∧
            q.id ≠ id ∧ rowShapes ((cell, q) :: rest) = chain fs) := by
  have hcommand := (rowFits_pair.mp h).2.1
  have hread := answers_read h hn
  have howner : t.owningCell id = some cell := h.owningCell
  rw [run_define_cell ds howner]
  rcases htaken : Macro.read (shapes ps) (rowShapes row) with code | ⟨m, fs⟩
  · rcases hdef : Definition.read t id cell with e | x
    · rw [htaken, hdef] at hread
      exact Or.inl ⟨e, congrArg _ (Eq.symm hread), rfl⟩
    · rw [htaken, hdef] at hread
      cases hread
  · rcases hdef : Definition.read t id cell with e | ⟨d, count⟩
    · rw [htaken, hdef] at hread
      cases hread
    · rw [htaken, hdef] at hread
      obtain ⟨hdm, taken, left, rfl, rfl, rfl⟩ := hread
      refine Or.inr ⟨d, m, _, rfl, hdm, ?_⟩
      dsimp only
      rw [run_bind_of_ok run_notes]
      rcases hinsert : ds.insert d (t.span id) with e | ds'
      · exact Or.inl ⟨e, rfl, rfl⟩
      · obtain ⟨fresh, t', hdelete, hbecomes, hfresh⟩ := run_deleteElements h hn
        have hne : t'.head cell ≠ some id := by
          refine head_pulled_ne hbecomes.fits ?_ ?_
          · exact Nat.ne_of_lt (Nat.lt_of_lt_of_le (Tree.lt_of_look hcommand.look) hfresh)
          · simp only [rowIds_cons, rowIds_append] at hn
            rw [nodup_cons_iff, ← add_assoc, add_comm _ (rowIds left), Multiset.nodup_add] at hn
            intro hmem
            refine Multiset.disjoint_left.mp hn.2.2.2 hmem (Multiset.mem_add.mpr (Or.inl ?_))
            exact id_mem_ids (command id definingCommand ps)
        have hshapes := rowShapes_pulled cell fresh left
        obtain ⟨q, after, hpulled⟩ := exists_of_nextCell hbecomes.next_eq
        rw [hpulled] at hbecomes hshapes
        rw [hbecomes.fits.head] at hne
        refine Or.inr ⟨ds', t', q, after, rfl, ?_, hbecomes, fun heq => hne (congrArg some heq),
          hshapes⟩
        rw [run_bind_of_ok (run_note _), run_edit, Edit.run_reportedAt_of_ok hdelete]

theorem tracks_define (h : RowLive t up ((cell, command id definingCommand ps) :: row))
    (hother : AgreesOnMet other) (hknown : ds.Cover blocked ms) :
    Tracks blocked (Walk.through visitor n id) (Walk.through other n id) t ds
      (takeOut (shapes ps) (rowShapes row)) ms
      (MovedUp t up ((cell, command id definingCommand ps) :: row) cell id)
      (RowLeft t up ((cell, command id definingCommand ps) :: row)) := by
  have hneat := h.neat
  rw [rowShapes_cons, neatRow_cons, shape, Neat] at hneat
  refine Tracks.define hother (.element h) hknown h.element.fits.node ?_
  have hstays := h.left (Tree.Keeps.refl t 0)
  rw [takeOut]
  rcases run_define h.fits h.nodup ds with ⟨e, htaken, hrun⟩ | ⟨d, m, fs, htaken, hdm, hout⟩
  · rw [hrun, htaken]
    exact .error hknown hstays ⟨e, rfl, rfl⟩
  · obtain ⟨hbody, hleft⟩ := neat_read hneat.1.2.2.2 hneat.2 htaken
    have hlift : (liftM (Except.ok (m, fs) : Except Code (Macro × List Shape)) :
        Rewriting (Macro × List Shape)).run.run ms = some (.ok (m, fs), ms) := rfl
    rw [htaken, run_bind_of_ok hlift]
    rcases hknown.insert hdm hbody (t.span id) with
      ⟨ds', hinsert, hknown', hrecord⟩ | ⟨e, hinsert, hcode, hrecord⟩
    · rcases hout with ⟨e, hinsert', -⟩ | ⟨ds'', t', q, rest, hinsert', hrun, hbecomes, hne, hshapes⟩
      · cases hinsert.symm.trans hinsert'
      · cases hinsert.symm.trans hinsert'
        rw [hrun, run_bind_of_ok hrecord]
        exact .ok (hknown.push hknown') ⟨q, rest, hbecomes, hne, hshapes, neatRow_chain.mpr hleft⟩
    · rcases hout with ⟨e', hinsert', hrun⟩ | ⟨ds'', t', q, rest, hinsert', -⟩
      · cases hinsert.symm.trans hinsert'
        rw [hrun, run_bind_of_error hrecord]
        exact .error hknown hstays ⟨e, rfl, hcode⟩
      · cases hinsert.symm.trans hinsert'

theorem tracks_use (h : RowLive t up ((cell, command id name ps) :: row))
    (hother : AgreesOnMet other) (hknown : ds.Cover blocked ms) (hname : name ≠ definingCommand)
    (hfind : ds.find? name = some d) (hdm : d.StandsFor m) (hm : NeatRow m.body) :
    Tracks blocked (Walk.through visitor n id) (Walk.through other n id) t ds
      (putIn m (shapes ps) (rowShapes row)) ms
      (MovedUp t up ((cell, command id name ps) :: row) cell id)
      (RowLeft t up ((cell, command id name ps) :: row)) := by
  have hneat := h.neat
  rw [rowShapes_cons, neatRow_cons, shape, Neat] at hneat
  refine Tracks.use hother (.element h) hknown h.element.fits.node hname hfind ?_
  rw [run_edit, putIn]
  rcases run_expand_cell hdm (fun _ : True => hm) h.fits h.nodup h.root_lt with
    ⟨fs, t', hexpand, hsome, q, rest, hbecomes, hne, hshapes⟩ |
    ⟨x, code, t', hexpand, hnone, hcode, hkeeps⟩
  · rw [hexpand, hsome]
    have hfs : NeatRow fs := neat_instantiate hm hneat.1.2.2.2 hsome
    refine .ok hknown ⟨q, rest, hbecomes, hne, hshapes, ?_⟩
    exact neatRow_chain.mpr (neatRow_append.mpr ⟨hfs.contents, hneat.2⟩)
  · rw [hexpand, hnone]
    exact .error hknown (h.left hkeeps) (hcode trivial)

/-- Another operand has come to a script, in the place of the one at `id`. -/
def OperandSwapped (t : Tree) (up : Option NodeId) (s : NodeId) (marker : Marker) (p : Plan)
    (id : NodeId) (f : Shape) (t' : Tree) : Prop :=
  ∃ q, Becomes t t' up (script s marker p) (script s marker q) ∧ q.id ≠ id ∧ q.shape = f ∧ f.Neat ∧
    f.isAtomic = true

theorem tracks_use_operand (h : Live t up (script s marker (command id name ps)))
    (hother : AgreesOnMet other) (hknown : ds.Cover blocked ms) (hname : name ≠ definingCommand)
    (hfind : ds.find? name = some d) (hdm : d.StandsFor m) (hm : NeatRow m.body) :
    Tracks blocked (Walk.through visitor n id) (Walk.through other n id) t ds
      (putInOperand m (shapes ps)) ms
      (OperandSwapped t up s marker (command id name ps) id)
      fun t' => Becomes t t' up (script s marker (command id name ps))
        (script s marker (command id name ps)) := by
  obtain ⟨hoperand, -⟩ := h.operand
  have hneat := hoperand.neat
  rw [shape, Neat] at hneat
  refine Tracks.use hother (.operand h) hknown hoperand.fits.node hname hfind ?_
  rw [run_edit, putInOperand]
  have hk : (Part.element (script s marker (command id name ps))).children[0]? =
      some (.element (command id name ps)) := rfl
  rcases run_expand_alone hdm (fun _ : True => hm) hk rfl h.fits h.nodup h.root_lt with
    ⟨fs, t', hexpand, hsome, q, hbecomes, hne, hshape⟩ |
    ⟨x, code, t', hexpand, hnone, hcode, hkeeps⟩
  · rw [hexpand, hsome]
    have hfs : NeatRow fs := neat_instantiate hm hneat.2.2.2 hsome
    exact .ok hknown ⟨q, ⟨hbecomes.fits, rfl, hbecomes.trades⟩, hne, hshape, hfs.asOperand,
      isAtomic_asOperand fs⟩
  · rw [hexpand, hnone]
    exact .error hknown (h.keeps hkeeps) (hcode trivial)

/-- No cell holds an operand, so a definition there has no place. -/
theorem tracks_define_operand (h : Live t up (script s marker (command id definingCommand ps)))
    (hother : AgreesOnMet other) (hknown : ds.Cover blocked ms) :
    Tracks blocked (Walk.through visitor n id) (Walk.through other n id) t ds
      (throw .misplacedDefinition : Rewriting Shape) ms (fun _ _ => False)
      fun t' => Becomes t t' up (script s marker (command id definingCommand ps))
        (script s marker (command id definingCommand ps)) := by
  have howner : t.owningCell id = none := h.fits.owningCell_operand
  refine Tracks.define hother (.operand h) hknown h.fits.of_script.node ?_
  rw [Definitions.define, run_bind_of_ok run_tree]
  dsimp only
  rw [howner]
  exact .error hknown (Becomes.refl h.fits h.nodup) ⟨_, rfl, rfl⟩

/-! ## All parts of the walk -/

/-- An element became another of the given shape and of the same kind. -/
def Reshaped (t : Tree) (up : Option NodeId) (p : Plan) (f : Shape) (t' : Tree) : Prop :=
  ∃ p', Becomes t t' up p p' ∧ p'.shape = f ∧ f.Neat ∧ f.isGroup = p.shape.isGroup ∧
    f.isAtomic = p.shape.isAtomic

/-- Parameters became others of the given shapes. -/
def AllReshaped (t : Tree) (up : Option NodeId) (ps : List Plan) (fs : List Shape) (t' : Tree) :
    Prop :=
  ∃ ps', AllBecome t t' up ps ps' ∧ shapes ps' = fs ∧ NeatRow fs ∧ ∀ f ∈ fs, f.isGroup = true

/-- A script got an operand of the given shape. -/
def OperandReshaped (t : Tree) (up : Option NodeId) (s : NodeId) (marker : Marker) (p : Plan)
    (f : Shape) (t' : Tree) : Prop :=
  ∃ p', Becomes t t' up (script s marker p) (script s marker p') ∧ p'.shape = f ∧ f.Neat ∧
    f.isAtomic = true

/-- Walking through an element that is passed over. -/
def TracksElement (blocked : String → Prop) (other : Visitor Definitions Fault) (n : Nat) : Prop :=
  ∀ {t up p ds ms}, Live t up p → t.Meets p.id → ds.Cover blocked ms → PassesOver ms p.shape →
    Tracks blocked (Walk.through visitor n p.id) (Walk.through other n p.id) t ds
      (rewriteInside p.shape) ms (fun f t' => Clear blocked f.commands ∧ Reshaped t up p f t')
      fun t' => ∃ f, Reshaped t up p f t'

/-- Walking through a chain from its first cell. -/
def TracksChain (blocked : String → Prop) (other : Visitor Definitions Fault) (n : Nat) : Prop :=
  ∀ {t up row cell ds ms}, RowLive t up row → ds.Cover blocked ms → nextCell row = some cell →
    Tracks blocked (Walk.through visitor n cell) (Walk.through other n cell) t ds
      (rewriteRow (rowShapes row)) ms
      (fun fs t' => Clear blocked (commandsOf fs) ∧ RowReshaped t up row fs t') (RowLeft t up row)

/-- Walking along a chain. -/
def TracksAlong (blocked : String → Prop) (other : Visitor Definitions Fault) (n : Nat) : Prop :=
  ∀ {t up row cell ds ms}, RowLive t up row → ds.Cover blocked ms → nextCell row = some cell →
    Tracks blocked (Walk.alongChain visitor n cell) (Walk.alongChain other n cell) t ds
      (rewriteRow (rowShapes row)) ms
      (fun fs t' => Clear blocked (commandsOf fs) ∧ RowReshaped t up row fs t') (RowLeft t up row)

/-- Walking to an operand, until it stays as it is. -/
def TracksOperand (blocked : String → Prop) (other : Visitor Definitions Fault) (n : Nat) : Prop :=
  ∀ {t up s marker p ds ms}, Live t up (script s marker p) → ds.Cover blocked ms →
    Tracks blocked (Walk.toOperand visitor n s) (Walk.toOperand other n s) t ds
      (rewriteOperand p.shape) ms
      (fun f t' => Clear blocked f.commands ∧ OperandReshaped t up s marker p f t')
      fun t' => ∃ f, OperandReshaped t up s marker p f t'

/-- Walking to the parameters from one of them on. -/
def TracksParameters (blocked : String → Prop) (other : Visitor Definitions Fault) (n : Nat) :
    Prop :=
  ∀ {t up id node before ps ds ms}, t.look id = some (node, up) →
    node.parameters = before ++ ps.map Plan.id → id ∉ idsOf ps → AllLive t (some id) ps →
    ds.Cover blocked ms →
    Tracks blocked (Walk.toParameters visitor n id before.length)
      (Walk.toParameters other n id before.length) t ds (rewriteAll (shapes ps)) ms
      (fun fs t' => Clear blocked (commandsOf fs) ∧ AllReshaped t (some id) ps fs t')
      fun t' => ∃ fs, AllReshaped t (some id) ps fs t'

/-- Every part of the walk with a number of steps tracks its part of the rewriting. -/
structure Tracked (blocked : String → Prop) (other : Visitor Definitions Fault) (n : Nat) :
    Prop where
  element : TracksElement blocked other n
  chain : TracksChain blocked other n
  along : TracksAlong blocked other n
  operand : TracksOperand blocked other n
  parameters : TracksParameters blocked other n

theorem tracked_zero : Tracked blocked other 0 where
  element _ _ _ _ := by
    rw [Walk.through, Walk.through]
    exact Tracks.endless
  chain _ _ _ := by
    rw [Walk.through, Walk.through]
    exact Tracks.endless
  along _ _ _ := by
    rw [Walk.alongChain, Walk.alongChain]
    exact Tracks.endless
  operand _ _ := by
    rw [Walk.toOperand, Walk.toOperand]
    exact Tracks.endless
  parameters _ _ _ _ _ := by
    rw [Walk.toParameters, Walk.toParameters]
    exact Tracks.endless

/-- What the rewriting passes over, the visitor only looks at. -/
theorem looksAt_of_passesOver (h : PassesOver ms p.shape) (hfits : p.Fits t up)
    (hknown : ds.StandFor ms) : ds.LooksAt t p.id := by
  intro name parameters hnode
  rw [hfits.node] at hnode
  cases p with
  | command id name' ps =>
    obtain ⟨rfl, -⟩ := Node.command.inj hnode
    obtain ⟨hname, hfind⟩ := h name' (shapes ps) (by rw [shape])
    refine ⟨hname, ?_⟩
    rcases hknown.find? name' with ⟨hnone, -⟩ | ⟨d, m, -, hsome, -⟩
    · exact hnone
    · rw [hfind] at hsome
      cases hsome
  | literal | empty | group | script | block => cases hnode

theorem Tracked.chain_succ (h : Tracked blocked other n) (hother : AgreesOnMet other) :
    TracksChain blocked other (n + 1) := by
  intro t up row cell ds ms hlive hknown hcell
  obtain ⟨p, rest, rfl⟩ := exists_of_nextCell hcell
  have hnode := hlive.fits.node
  have hlooks : ds.LooksAt t cell := by
    intro name parameters heq
    rw [hnode] at heq
    cases heq
  refine Tracks.into hother (.chain hlive hcell) hknown hlooks ?_
  rw [hnode]
  exact h.along hlive hknown hcell

/-- With other parameters it is a block of the same body. -/
theorem AllReshaped.block (h : AllReshaped t (some id) ps fs t')
    (hlive : Live t up (block id name ps body)) :
    ∃ ps', Becomes t t' up (block id name ps body) (block id name ps' body) ∧ shapes ps' = fs ∧
      Live t' up (block id name ps' body) := by
  obtain ⟨ps', hbecome, rfl, hneat', hgroups⟩ := h
  have hneat := hlive.neat
  rw [shape, Neat] at hneat
  have hblock := hbecome.block hlive.fits hlive.nodup
  refine ⟨ps', hblock, rfl, hlive.becomes hblock ?_⟩
  rw [shape, Neat]
  exact ⟨hneat.1, hgroups, hneat', hneat.2.2.2.1, hneat.2.2.2.2⟩

/-- What became of an element stands in the same cell, before the same rest. -/
theorem Reshaped.first (h : Reshaped t (some cell) p f t')
    (hlive : RowLive t up ((cell, p) :: rest)) :
    ∃ p', RowBecomes t t' up ((cell, p) :: rest) ((cell, p') :: rest) ∧ p'.shape = f ∧
      p'.id = p.id ∧ RowLive t' up ((cell, p') :: rest) := by
  obtain ⟨p', hbecomes, rfl, hneat, -⟩ := h
  have hrow := RowBecomes.head hbecomes hlive.fits hlive.nodup
  refine ⟨p', hrow, rfl, hbecomes.id_eq, hlive.becomes hrow ?_⟩
  rw [rowShapes_cons, neatRow_cons]
  exact ⟨hneat, hlive.rest.neat⟩

theorem Tracked.element_succ (h : Tracked blocked other n) (hother : AgreesOnMet other) :
    TracksElement blocked other (n + 1) := by
  intro t up p ds ms hlive hmeets hknown hpass
  refine Tracks.into hother hmeets hknown (looksAt_of_passesOver hpass hlive.fits hknown.toStandFor) ?_
  have hfits := hlive.fits
  have hneat := hlive.neat
  have hn := hlive.nodup
  rw [hfits.node]
  cases p with
  | literal | empty =>
    rw [shape, rewriteInside, Rewriting.Task.perform]
    refine Tracks.of_ok hknown ⟨?_, _, Becomes.refl hfits hn, rfl, hneat, rfl, rfl⟩
    rw [commands]
    exact clear_nil
  | group id fence inner =>
    obtain ⟨hinner, first, hfirst⟩ := hlive.inner
    rw [shape, Neat] at hneat
    rw [shape, rewriteInside, Rewriting.Task.perform, top, hfirst]
    have hpost : ∀ fs t', RowReshaped t (some id) inner fs t' →
        Reshaped t up (.group id fence inner) (.group fence fs) t' := by
      rintro fs t' ⟨inner', hbecomes, rfl, hneat'⟩
      refine ⟨_, hbecomes.group hfits hn, by rw [shape], ?_, rfl, rfl⟩
      rw [Neat]
      exact ⟨hbecomes.shapes_ne_nil hfirst, hneat'⟩
    refine (h.chain hinner hknown hfirst).map (fun fs t' hfs => ⟨?_, hpost fs t' hfs.2⟩)
      fun t' => Exists.imp' (.group fence) fun fs => hpost fs t'
    rw [commands]
    exact hfs.1
  | script id marker operand =>
    rw [shape, rewriteInside, Rewriting.Task.perform]
    have hpost : ∀ f t', OperandReshaped t up id marker operand f t' →
        Reshaped t up (.script id marker operand) (.script marker f) t' := by
      rintro f t' ⟨operand', hbecomes, rfl, hneat', hatomic⟩
      refine ⟨_, hbecomes, by rw [shape], ?_, rfl, rfl⟩
      rw [Neat]
      exact ⟨hatomic, hneat'⟩
    refine (h.operand hlive hknown).map (fun f t' hf => ⟨?_, hpost f t' hf.2⟩)
      fun t' => Exists.imp' (.script marker) fun f => hpost f t'
    rw [commands]
    exact hf.1
  | command id name ps =>
    obtain ⟨hps, hnot⟩ := hlive.parameters
    rw [shape, Neat] at hneat
    rw [shape, rewriteInside, Rewriting.Task.perform]
    have hpost : ∀ fs t', AllReshaped t (some id) ps fs t' →
        Reshaped t up (.command id name ps) (.command name fs) t' := by
      rintro fs t' ⟨ps', hbecome, rfl, hneat', hgroups⟩
      refine ⟨_, hbecome.command hfits hn, by rw [shape], ?_, rfl, rfl⟩
      rw [Neat]
      exact ⟨hneat.1, fun hmark => hbecome.shapes_eq_nil (hneat.2.1 hmark), hgroups, hneat'⟩
    refine (h.parameters hfits.look (List.nil_append (ps.map Plan.id)).symm hnot hps hknown).map
      (fun fs t' hfs => ⟨?_, hpost fs t' hfs.2⟩)
      fun t' => Exists.imp' (.command name) fun fs => hpost fs t'
    rw [commands]
    -- Only here does a name stay, and what is passed over has no known name.
    exact List.forall_mem_cons.mpr ⟨hknown.not_blocked hpass, hfs.1⟩
  | block id name ps body =>
    obtain ⟨hps, hnot, hbody, first, hfirst⟩ := hlive.block
    rw [shape, Neat] at hneat
    rw [shape, rewriteInside, Rewriting.Task.perform]
    have hblock := hfits
    rw [Fits] at hblock
    obtain ⟨⟨_, _, hlook⟩, -⟩ := hblock
    have hparameters := h.parameters hlook (List.nil_append (ps.map Plan.id)).symm hnot hps hknown
    refine hparameters.bind ?_ ?_
    · rintro t' ⟨fs, hfs⟩
      obtain ⟨ps', hblock, -, hlive'⟩ := hfs.block hlive
      exact ⟨_, _, hblock, rfl, hlive'.neat, by simp [shape, Shape.isGroup],
        by simp [shape, Shape.isAtomic]⟩
    -- Walking through the parameters may change the tree, so the body is looked up again after it.
    · rintro fs t₁ ds₁ ms₁ ⟨hclear, hfs⟩ hknown₁
      obtain ⟨ps', hblock, rfl, hlive'⟩ := hfs.block hlive
      obtain ⟨-, -, hbody', -⟩ := hlive'.block
      have hnode : t₁.node id = .block name (ps'.map Plan.id) first := by
        have hnode := hlive'.fits.node
        rwa [top, hfirst] at hnode
      have hneat' := hlive'.neat
      rw [shape, Neat] at hneat'
      have hpost : ∀ gs t', RowReshaped t₁ (some id) body gs t' →
          Reshaped t up (.block id name ps body) (.block name (shapes ps') gs) t' := by
        rintro gs t' ⟨body', hbecomes, rfl, hneatbody⟩
        refine ⟨_, hblock.trans (hbecomes.body hlive'.fits hlive'.nodup), by rw [shape], ?_,
          by simp [shape, Shape.isGroup], by simp [shape, Shape.isAtomic]⟩
        rw [Neat]
        exact ⟨hneat.1, hneat'.2.1, hneat'.2.2.1, hbecomes.shapes_ne_nil hfirst, hneatbody⟩
      refine ((h.chain hbody' hknown₁ hfirst).map (fun gs t' hgs => ⟨?_, hpost gs t' hgs.2⟩)
        fun t' => Exists.imp' (.block name (shapes ps')) fun gs => hpost gs t').congr ?_ ?_ rfl
      · rw [run_bind_of_ok run_tree, id_block, hnode]
      · rw [run_bind_of_ok run_tree, id_block, hnode]
      · rw [commands]
        exact clear_append.mpr ⟨hclear, hgs.1⟩

/-- A chain starts with a definition, with the use of a macro, or with something to pass over. -/
theorem head_cases (hknown : ds.StandFor ms) (p : Plan) :
    (∃ id ps, p = command id definingCommand ps) ∨
    (∃ id name ps d m, p = command id name ps ∧ name ≠ definingCommand ∧ ds.find? name = some d ∧
      (ms.find? fun m => m.name == name) = some m ∧ d.StandsFor m ∧ NeatRow m.body) ∨
    PassesOver ms p.shape := by
  by_cases hpass : PassesOver ms p.shape
  · exact Or.inr (Or.inr hpass)
  · cases p with
    | command id name ps =>
      by_cases hname : name = definingCommand
      · exact Or.inl ⟨id, ps, by rw [hname]⟩
      · rcases hknown.find? name with ⟨-, hnone⟩ | ⟨d, m, hfind, hfind', hdm, hm⟩
        · refine absurd ?_ hpass
          rintro name' parameters heq
          rw [shape] at heq
          obtain ⟨rfl, -⟩ := Shape.command.inj heq
          exact ⟨hname, hnone⟩
        · exact Or.inr (Or.inl ⟨id, name, ps, d, m, rfl, hname, hfind, hfind', hdm, hm⟩)
    | literal | empty | group | script | block =>
      refine absurd ?_ hpass
      rintro name parameters heq
      rw [shape] at heq
      cases heq

/-- How a walk goes on along a chain when it has shown the element at `id`. -/
def onward (v : Visitor Definitions Fault) (n : Nat) (cell id : NodeId) :
    Walk Definitions Fault Unit := do
  let t ← Walk.tree
  if t.head cell ≠ some id then Walk.alongChain v n cell
  else if let some next := t.tail cell then Walk.alongChain v n next

theorem run_alongChain (v : Visitor Definitions Fault) (ds : Definitions) (n : Nat)
    (h : RowFits t up ((cell, p) :: rest)) :
    (Walk.alongChain v (n + 1) cell).run.run (t, ds) =
      (do Walk.through v n p.id; onward v n cell p.id).run.run (t, ds) := by
  rw [Walk.alongChain, run_bind_of_ok run_tree, h.head]
  rfl

/-- The walk has shown an element and found it where it was. -/
theorem run_onward (v : Visitor Definitions Fault) (ds : Definitions) (n : Nat)
    (h : RowFits t up ((cell, p) :: rest)) :
    (onward v n cell p.id).run.run (t, ds) =
      (match nextCell rest with
        | some next => Walk.alongChain v n next
        | none => return : Walk Definitions Fault Unit).run.run (t, ds) := by
  rw [onward, run_bind_of_ok run_tree, h.head, h.tail, if_neg fun hne => hne rfl]
  cases rest <;> rfl

/-- The walk has shown an element and finds another where it was. -/
theorem run_onward_moved {v : Visitor Definitions Fault} (h : RowFits t up ((cell, p) :: rest))
    (hne : p.id ≠ id) :
    (onward v n cell id).run.run (t, ds) = (Walk.alongChain v n cell).run.run (t, ds) := by
  rw [onward, run_bind_of_ok run_tree, h.head, if_pos fun heq => hne (Option.some.inj heq)]

theorem RowReshaped.of_becomes {t'' : Tree} (h : RowReshaped t' up row' fs t'')
    (hrow : RowBecomes t t' up row row') : RowReshaped t up row fs t'' := by
  obtain ⟨row'', hbecomes, hshapes, hneat⟩ := h
  exact ⟨row'', hrow.trans hbecomes, hshapes, hneat⟩

/-- Another element has come into the cell, and the walk goes on with it. -/
theorem Tracked.moved (h : Tracked blocked other n) (hlive : RowLive t up row)
    (hknown : ds.Cover blocked ms) (hmoved : MovedUp t up row cell id fs t') :
    Tracks blocked (onward visitor n cell id) (onward other n cell id) t' ds (rewriteRow fs) ms
      (fun fs t' => Clear blocked (commandsOf fs) ∧ RowReshaped t up row fs t')
      (RowLeft t up row) := by
  obtain ⟨q, rest, hbecomes, hne, rfl, hneat⟩ := hmoved
  have hlive' := hlive.becomes hbecomes hneat
  refine ((h.along hlive' hknown rfl).mono ?_ ?_).congr (run_onward_moved hlive'.fits hne)
    (run_onward_moved hlive'.fits hne) rfl
  · intro fs t'' hfs
    exact ⟨hfs.1, hfs.2.of_becomes hbecomes⟩
  · rintro t'' ⟨fs, hfs⟩
    exact ⟨fs, hfs.of_becomes hbecomes⟩

/-- The element is still in its cell, and the walk goes on with the next cell. -/
theorem Tracked.stayed (h : Tracked blocked other n) (hlive : RowLive t up ((cell, p) :: rest))
    (hknown : ds.Cover blocked ms) :
    Tracks blocked (onward visitor n cell p.id) (onward other n cell p.id) t ds
      (rewriteRow (rowShapes rest)) ms
      (fun fs t' => Clear blocked (commandsOf fs) ∧
        RowReshaped t up ((cell, p) :: rest) (p.shape :: fs) t')
      (RowLeft t up ((cell, p) :: rest)) := by
  have hrun := fun v => run_onward v ds n hlive.fits
  have hpost : ∀ fs t', RowReshaped t (some cell) rest fs t' →
      RowReshaped t up ((cell, p) :: rest) (p.shape :: fs) t' := by
    rintro fs t' ⟨rest', hrest, rfl, hneat⟩
    refine ⟨_, hrest.tail hlive.fits hlive.nodup, rowShapes_cons _ _, ?_⟩
    exact neatRow_cons.mpr ⟨hlive.element.neat, hneat⟩
  cases rest with
  | nil =>
    rw [rowShapes_nil, rewriteRow, Rewriting.Task.perform]
    refine (Tracks.of_ok hknown ?_).congr (hrun visitor) (hrun other) rfl
    exact ⟨clear_nil, _, RowBecomes.refl hlive.fits hlive.nodup, by rw [rowShapes_cons, rowShapes_nil],
      hlive.neat⟩
  | cons x rest =>
    refine ((h.along hlive.rest hknown rfl).mono (fun fs t' => And.imp_right (hpost fs t'))
      ?_).congr (hrun visitor) (hrun other) rfl
    rintro t' ⟨fs, hfs⟩
    exact ⟨_, hpost fs t' hfs⟩

theorem Tracked.along_succ (h : Tracked blocked other n) (hother : AgreesOnMet other) :
    TracksAlong blocked other (n + 1) := by
  intro t up row cell ds ms hlive hknown hcell
  obtain ⟨p, rest, rfl⟩ := exists_of_nextCell hcell
  have hrun := fun v => run_alongChain v ds n hlive.fits
  rw [rowShapes_cons]
  rcases head_cases hknown.toStandFor p with ⟨id, ps, rfl⟩ |
    ⟨id, name, ps, d, m, rfl, hname, hfind, hfind', hdm, hm⟩ | hpass
  · rw [shape, Rewriting.rewriteRow_define]
    refine ((tracks_define hlive hother hknown).bind (fun _ hbad => hbad) ?_).congr (hrun visitor)
      (hrun other) rfl
    intro fs t' ds' ms' hmoved hknown'
    exact h.moved hlive hknown' hmoved
  · rw [shape]
    refine ((tracks_use hlive hother hknown hname hfind hdm hm).bind (fun _ hbad => hbad) ?_).congr
      (hrun visitor) (hrun other) (Rewriting.run_rewriteRow_use hname hfind' _ _)
    intro fs t' ds' ms' hmoved hknown'
    exact h.moved hlive hknown' hmoved
  · refine ((h.element hlive.element (.element hlive) hknown hpass).bind ?_ ?_).congr (hrun visitor)
      (hrun other) (Rewriting.run_rewriteRow_cons hpass _)
    · rintro t' ⟨f, hf⟩
      obtain ⟨p', hrow, -, -, hlive'⟩ := hf.first hlive
      exact ⟨_, _, hrow, rfl, hlive'.neat⟩
    · rintro f t' ds' ms' ⟨hclear, hf⟩ hknown'
      obtain ⟨p', hrow, rfl, hid, hlive'⟩ := hf.first hlive
      rw [← hid]
      refine (h.stayed hlive' hknown').map ?_ ?_
      · rintro fs t'' ⟨hclear', hfs⟩
        rw [commandsOf_cons]
        exact ⟨clear_append.mpr ⟨hclear, hclear'⟩, hfs.of_becomes hrow⟩
      · rintro t'' ⟨fs, hfs⟩
        exact ⟨fs, hfs.of_becomes hrow⟩

theorem run_toOperand (v : Visitor Definitions Fault) (ds : Definitions) (n : Nat)
    (h : (script s marker p).Fits t up) :
    (Walk.toOperand v (n + 1) s).run.run (t, ds) =
      (do
        Walk.through v n p.id
        if (← Walk.tree).operand s ≠ some p.id then Walk.toOperand v n s :
        Walk Definitions Fault Unit).run.run (t, ds) := by
  rw [Walk.toOperand, run_bind_of_ok run_tree, h.operand]

theorem Tracked.operand_succ (h : Tracked blocked other n) (hother : AgreesOnMet other) :
    TracksOperand blocked other (n + 1) := by
  intro t up s marker p ds ms hlive hknown
  obtain ⟨hoperand, hatomic⟩ := hlive.operand
  have hrun := fun v => run_toOperand v ds n hlive.fits
  have hleft : ∀ t', Becomes t t' up (script s marker p) (script s marker p) →
      ∃ f, OperandReshaped t up s marker p f t' :=
    fun t' hbecomes => ⟨_, _, hbecomes, rfl, hoperand.neat, hatomic⟩
  rcases head_cases hknown.toStandFor p with ⟨id, ps, rfl⟩ |
    ⟨id, name, ps, d, m, rfl, hname, hfind, hfind', hdm, hm⟩ | hpass
  · rw [shape, rewriteOperand, Rewriting.Task.perform, if_pos rfl]
    -- A definition cannot be an operand, so nothing is ever left to do after it.
    refine (((tracks_define_operand hlive hother hknown).followed ?_).mono ?_ hleft).congr
      (hrun visitor) (hrun other) rfl
    · exact fun _ _ _ hfalse => hfalse.elim
    · exact fun _ _ hfalse => hfalse.elim
  · rw [shape]
    refine ((tracks_use_operand hlive hother hknown hname hfind hdm hm).bind hleft ?_).congr
      (hrun visitor) (hrun other) (Rewriting.run_rewriteOperand_use hname hfind' _)
    rintro f t' ds' ms' ⟨q, hbecomes, hne, rfl, hneat, hatomic'⟩ hknown'
    have hlive' := hlive.becomes hbecomes (by rw [shape, Neat]; exact ⟨hatomic', hneat⟩)
    have hagain : ∀ f t'', OperandReshaped t' up s marker q f t'' →
        OperandReshaped t up s marker (command id name ps) f t'' := by
      rintro f t'' ⟨q', hbecomes', hshape⟩
      exact ⟨q', hbecomes.trans hbecomes', hshape⟩
    have hrun' : ∀ v : Visitor Definitions Fault, (do
        if (← Walk.tree).operand s ≠ some id then Walk.toOperand v n s :
        Walk Definitions Fault Unit).run.run (t', ds') =
          (Walk.toOperand v n s).run.run (t', ds') := by
      intro v
      rw [run_bind_of_ok run_tree, hlive'.fits.operand, if_pos fun heq => hne (Option.some.inj heq)]
    refine ((h.operand hlive' hknown').mono (fun f t'' => And.imp_right (hagain f t''))
      ?_).congr (hrun' visitor) (hrun' other) rfl
    rintro t'' ⟨f, hf⟩
    exact ⟨f, hagain f t'' hf⟩
  · have hpost : ∀ f t', Reshaped t (some s) p f t' → OperandReshaped t up s marker p f t' := by
      rintro f t' ⟨p', hbecomes, hshape, hneat, -, hsame⟩
      exact ⟨p', hbecomes.script hlive.fits hlive.nodup, hshape, hneat, hsame.trans hatomic⟩
    refine (((h.element hoperand (.operand hlive) hknown hpass).followed ?_).mono
      (fun f t' => And.imp_right (hpost f t')) ?_).congr (hrun visitor) (hrun other)
      (Rewriting.run_rewriteOperand_inside hpass)
    · rintro f t' ds' ⟨-, p', hbecomes, -⟩
      have hdone : ∀ v : Visitor Definitions Fault, (do
          if (← Walk.tree).operand s ≠ some p.id then Walk.toOperand v n s :
          Walk Definitions Fault Unit).run.run (t', ds') = some (.ok (), t', ds') := by
        intro v
        rw [run_bind_of_ok run_tree, (hbecomes.script hlive.fits hlive.nodup).fits.operand,
          hbecomes.id_eq, if_neg fun hne => hne rfl]
        rfl
      exact ⟨hdone visitor, hdone other⟩
    · rintro t' ⟨f, hf⟩
      exact ⟨f, hpost f t' hf⟩

theorem AllLive.cons (h : AllLive t up (p :: ps)) :
    Live t up p ∧ p.shape.isGroup = true ∧ AllLive t up ps := by
  obtain ⟨hfits, hn, hroot, hneat, hgroups⟩ := h
  rw [allFit_cons] at hfits
  rw [idsOf_cons, Multiset.nodup_add] at hn
  rw [shapes_cons, neatRow_cons] at hneat
  rw [shapes_cons, List.forall_mem_cons] at hgroups
  exact ⟨⟨hfits.1, hn.1, hroot, hneat.1⟩, hgroups.1, hfits.2, hn.2.1, hroot, hneat.2, hgroups.2⟩

theorem AllLive.becomes (h : AllLive t up ps) (hps : AllBecome t t' up ps ps')
    (hneat : NeatRow (shapes ps')) (hgroups : ∀ f ∈ shapes ps', f.isGroup = true) :
    AllLive t' up ps' :=
  ⟨hps.fits, hps.trades.nodup, root_lt_of_keeps h.root_lt hps.trades.keeps, hneat, hgroups⟩

theorem passesOver_of_isGroup (h : f.isGroup = true) : PassesOver ms f := by
  rintro name parameters rfl
  cases h

/-- With another first parameter the rest is as it was. -/
theorem Reshaped.firstParameter (h : Reshaped t (some id) p f t')
    (hlive : AllLive t (some id) (p :: ps)) (hlook : t.look id = some (node, up))
    (hnot : id ∉ idsOf (p :: ps)) :
    ∃ p', AllBecome t t' (some id) (p :: ps) (p' :: ps) ∧ p'.shape = f ∧ p'.id = p.id ∧
      AllLive t' (some id) (p' :: ps) ∧ t'.look id = some (node, up) := by
  obtain ⟨p', hbecomes, rfl, hneat, hsame, -⟩ := h
  obtain ⟨-, hgroup, hps⟩ := hlive.cons
  have hall := AllBecome.head hbecomes hlive.fits hlive.nodup
  refine ⟨p', hall, rfl, hbecomes.id_eq, hlive.becomes hall ?_ ?_,
    hall.trades.keeps.look_of_look hlook hnot⟩
  · rw [shapes_cons, neatRow_cons]
    exact ⟨hneat, hps.neat⟩
  · rw [shapes_cons, List.forall_mem_cons]
    exact ⟨hsame.trans hgroup, hps.groups⟩

theorem parameter_of_look {after : List NodeId} (hlook : t.look id = some (node, up))
    (hparameters : node.parameters = before ++ after) :
    t.parameter id before.length = after.head? := by
  rw [Tree.parameter, Tree.node_of_look hlook, hparameters,
    List.getElem?_append_right (Nat.le_refl _), Nat.sub_self]
  cases after <;> rfl

theorem Tracked.parameters_succ (h : Tracked blocked other n) :
    TracksParameters blocked other (n + 1) := by
  intro t up id node before ps ds ms hlook hparameters hnot hlive hknown
  have hparameter := parameter_of_look hlook hparameters
  cases ps with
  | nil =>
    have hrun : ∀ v : Visitor Definitions Fault,
        (Walk.toParameters v (n + 1) id before.length).run.run (t, ds) = some (.ok (), t, ds) := by
      intro v
      rw [Walk.toParameters, run_bind_of_ok run_tree, hparameter]
      rfl
    rw [shapes_nil, rewriteAll, Rewriting.Task.perform]
    refine (Tracks.of_ok hknown ?_).congr (hrun visitor) (hrun other) rfl
    exact ⟨clear_nil, [], AllBecome.refl hlive.fits hlive.nodup, rfl, hlive.neat, hlive.groups⟩
  | cons p ps =>
    have hrun : ∀ v : Visitor Definitions Fault,
        (Walk.toParameters v (n + 1) id before.length).run.run (t, ds) =
          (do Walk.through v n p.id; Walk.toParameters v n id (before ++ [p.id]).length :
            Walk Definitions Fault Unit).run.run (t, ds) := by
      intro v
      rw [Walk.toParameters, run_bind_of_ok run_tree, hparameter, List.length_append]
      rfl
    obtain ⟨hp, hgroup, hps⟩ := hlive.cons
    rw [shapes_cons, rewriteAll, Rewriting.Task.perform]
    refine ((h.element hp (.parameter hp hgroup) hknown (passesOver_of_isGroup hgroup)).bind
      ?_ ?_).congr (hrun visitor) (hrun other) rfl
    · rintro t' ⟨f, hf⟩
      obtain ⟨p', hall, -, -, hlive', -⟩ := hf.firstParameter hlive hlook hnot
      exact ⟨_, _, hall, rfl, hlive'.neat, hlive'.groups⟩
    · rintro f t' ds' ms' ⟨hclear, hf⟩ hknown'
      obtain ⟨p', hall, rfl, hid, hlive', hlook'⟩ := hf.firstParameter hlive hlook hnot
      obtain ⟨hp', hgroup', hps'⟩ := hlive'.cons
      have hpost : ∀ fs t'', AllReshaped t' (some id) ps fs t'' →
          AllReshaped t (some id) (p :: ps) (p'.shape :: fs) t'' := by
        rintro fs t'' ⟨ps', hbecome, rfl, hneat, hgroups⟩
        refine ⟨p' :: ps', hall.trans (hbecome.tail hlive'.fits hlive'.nodup), shapes_cons _ _, ?_, ?_⟩
        · exact neatRow_cons.mpr ⟨hp'.neat, hneat⟩
        · exact List.forall_mem_cons.mpr ⟨hgroup', hgroups⟩
      rw [idsOf_cons, Multiset.mem_add, not_or] at hnot
      refine (h.parameters hlook' ?_ hnot.2 hps' hknown').map ?_ ?_
      · rw [hparameters, List.map_cons, List.append_assoc]
        rfl
      · rintro fs t'' ⟨hclear', hfs⟩
        rw [commandsOf_cons]
        exact ⟨clear_append.mpr ⟨hclear, hclear'⟩, hpost fs t'' hfs⟩
      · rintro t'' ⟨fs, hfs⟩
        exact ⟨_, hpost fs t'' hfs⟩

/-- With every number of steps the walk tracks the rewriting. -/
theorem tracked (hother : AgreesOnMet other) (n : Nat) : Tracked blocked other n := by
  induction n with
  | zero => exact tracked_zero
  | succ n h =>
    exact ⟨h.element_succ hother, h.chain_succ hother, h.along_succ hother, h.operand_succ hother,
      h.parameters_succ⟩

end

/-! ## Whole formulas -/

/-- Definitions that are known after formulas were read and expanded one after the other, whether or
not their expansion failed. -/
inductive Definitions.Reached : Definitions → Prop
  | empty : Reached .empty
  | expand {source : String} {steps : Nat} {t t' : Tree} {ds ds' : Definitions}
    {r : Except Fault Unit} : Reached ds → Tree.parseMath source = .ok t →
      (expandAll steps).run.run (t, ds) = some (r, t', ds') → Reached ds'

theorem Tree.isNeat_parseMath {source : String} (h : parseMath source = .ok t) : t.IsNeat := by
  obtain ⟨fs, hfs, hresolved, hcanonical, -⟩ := parseMath_sound h
  exact ⟨fs, hfs, neatRow_of_canonical hresolved hcanonical⟩

/-- The whole walk tracks the rewriting of a neat formula, and leaves a neat one. -/
theorem tracks_expandAll {blocked : String → Prop} {other : Visitor Definitions Fault}
    (h : t.Depicts fs) (hfs : NeatRow fs) (hknown : ds.Cover blocked ms)
    (hother : AgreesOnMet other) (steps : Nat) :
    Tracks blocked (Definitions.expandAll steps) (do Walk.through other steps (← Walk.tree).root)
      t ds (Rewriting.rewriteRow fs) ms
      (fun gs t' => Clear blocked (commandsOf gs) ∧ t'.Depicts gs ∧ NeatRow gs) Tree.IsNeat := by
  obtain ⟨row, hfirst, hfits, hn, rfl⟩ := h
  have hroot : t.root < t.size := hfits.lt_size t.root (nextCell_mem_rowIds hfirst)
  have hdepicts : ∀ gs t', RowReshaped t none row gs t' → t'.Depicts gs ∧ NeatRow gs := by
    rintro gs t' ⟨row', hbecomes, rfl, hneat⟩
    refine ⟨⟨row', ?_, hbecomes.fits, hbecomes.trades.nodup, rfl⟩, hneat⟩
    rw [hbecomes.next_eq, hfirst, hbecomes.trades.keeps.root_eq]
  refine (((tracked hother steps).chain ⟨hfits, hn, hroot, hfs⟩ hknown hfirst).mono
    (fun gs t' => And.imp_right (hdepicts gs t')) ?_).congr (run_bind_of_ok run_tree)
    (run_bind_of_ok run_tree) rfl
  rintro t' ⟨gs, hgs⟩
  exact ⟨gs, hdepicts gs t' hgs⟩

/-- Without names that are to go. -/
theorem Definitions.StandFor.cover (h : ds.StandFor ms) : ds.Cover (fun _ => False) ms :=
  ⟨h, fun _ => False.elim⟩

/-- Expansion refines the rewriting of a neat formula, and leaves a neat one. -/
theorem refines_expandAll (h : t.Depicts fs) (hfs : NeatRow fs) (hknown : ds.StandFor ms)
    (steps : Nat) :
    Refines (Definitions.expandAll steps) t ds (Rewriting.rewriteRow fs) ms
      (fun gs t' => t'.Depicts gs ∧ NeatRow gs) Tree.IsNeat :=
  ((tracks_expandAll h hfs hknown.cover agreesOnMet_visitor steps).mono (fun _ _ => And.right)
    fun _ hleft => hleft).refines

theorem Definitions.standFor_empty : Definitions.empty.StandFor [] :=
  ⟨.nil, List.forall_mem_nil _⟩

theorem Definitions.Reached.standFor (h : ds.Reached) : ∃ ms, ds.StandFor ms := by
  induction h with
  | empty => exact ⟨[], standFor_empty⟩
  | expand _ hparse hrun ih =>
    obtain ⟨ms, hknown⟩ := ih
    obtain ⟨fs, hfs, hneat⟩ := Tree.isNeat_parseMath hparse
    obtain ⟨ms', hknown', -⟩ := refines_expandAll hfs hneat hknown _ _ _ _ hrun
    exact ⟨ms', hknown'⟩

theorem Definitions.StandFor.tidy (h : ds.StandFor ms) : ∀ d ∈ ds.toList, d.body.Tidy := by
  obtain ⟨heach, hneat⟩ := h
  generalize ds.toList = known at heach ⊢
  induction heach with
  | nil => exact List.forall_mem_nil _
  | cons hdm _ ih =>
    rw [List.forall_mem_cons] at hneat ⊢
    exact ⟨Tree.tidy_iff.mpr ⟨_, hdm.body, hneat.1⟩, ih hneat.2⟩

/-- Expansion refines rewriting: if the expansion of a formula that was read ends, with definitions
known from the formulas before it, then the rewriting of its shape ends in the same way. It fails
with the same code, or it gives the shape of the expanded formula; and the definitions known
afterwards stand for the macros that the rewriting knows then. -/
theorem expandAll_refines_rewriting {source : String} {steps : Nat} {t t' : Tree}
    {ds ds' : Definitions} {r : Except Fault Unit} (hparse : Tree.parseMath source = .ok t)
    (hds : ds.Reached) (hrun : (Definitions.expandAll steps).run.run (t, ds) = some (r, t', ds')) :
    ∃ fs ms ms', t.Depicts fs ∧ List.Forall₂ Definition.StandsFor ds.toList ms ∧
      List.Forall₂ Definition.StandsFor ds'.toList ms' ∧
      match r with
      | .ok () => ∃ gs, t'.Depicts gs ∧
          (Rewriting.rewriteRow fs).run.run ms = some (.ok gs, ms')
      | .error x => ∃ code, x.diagnostic.code = some code ∧
          (Rewriting.rewriteRow fs).run.run ms = some (.error code, ms') := by
  obtain ⟨ms, hknown⟩ := hds.standFor
  obtain ⟨fs, hfs, hneat⟩ := Tree.isNeat_parseMath hparse
  obtain ⟨ms', hknown', hout⟩ := refines_expandAll hfs hneat hknown steps r t' ds' hrun
  refine ⟨fs, ms, ms', hfs, hknown.each, hknown'.each, ?_⟩
  cases r with
  | ok =>
    obtain ⟨gs, hgs, hrewriting⟩ := hout
    exact ⟨gs, hgs.1, hrewriting⟩
  | error x => exact hout.2

/-- A macro from an earlier formula is brought by another, as an operand and in a chain. -/
theorem expandAll_refines_rewriting_nested :
    let first := r"\newcommand{\p}[1]{a#1b}"
    let second := r"\newcommand\q{\p{c}}x_\q\q"
    ∃ t₀ t₁ ds t t' ds' fs gs ms ms', Tree.parseMath first = .ok t₀ ∧
      (Definitions.expandAll 40).run.run (t₀, .empty) = some (.ok (), t₁, ds) ∧
      Tree.parseMath second = .ok t ∧
      (Definitions.expandAll 40).run.run (t, ds) = some (.ok (), t', ds') ∧
      t'.text = "x_{acb}acb" ∧ t.Depicts fs ∧ t'.Depicts gs ∧
      List.Forall₂ Definition.StandsFor ds.toList ms ∧
      List.Forall₂ Definition.StandsFor ds'.toList ms' ∧
      (Rewriting.rewriteRow fs).run.run ms = some (.ok gs, ms') := by
  intro first second
  have hran : ((Definitions.empty.expanded? 40 first).bind fun out₀ =>
      (out₀.2.2.expanded? 40 second).map fun out => out.2.1.text) = some "x_{acb}acb" := by
    decide +kernel
  obtain ⟨⟨t₀, t₁, ds⟩, hfirst, hran⟩ := Option.bind_eq_some_iff.mp hran
  obtain ⟨⟨t, t', ds'⟩, hsecond, htext⟩ := Option.map_eq_some_iff.mp hran
  obtain ⟨hparse₀, hrun₀⟩ := Definitions.expanded?_eq_some hfirst
  obtain ⟨hparse, hrun⟩ := Definitions.expanded?_eq_some hsecond
  obtain ⟨fs, ms, ms', hfs, hms, hms', gs, hgs, hrewriting⟩ :=
    expandAll_refines_rewriting hparse (.expand .empty hparse₀ hrun₀) hrun
  exact ⟨t₀, t₁, ds, t, t', ds', fs, gs, ms, ms', hparse₀, hrun₀, hparse, hrun, htext, hfs, hgs,
    hms, hms', hrewriting⟩

end Formulary
