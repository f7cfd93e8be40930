import Formulary.Proofs.Expansion
import Formulary.Proofs.Weights

/-!
# Expansion ends

A macro that brings itself back is expanded forever. If no macro does, directly or through others,
and definitions do not come out of bodies or arguments, then expansion ends.

Neither the size of a formula nor the number of uses in it gets smaller with each step, since a body
may hold copies of its arguments with the uses in them. But the weight does. That suffices as long
as all macros that come to be known were foreseen when weights were fixed: `Shape.ForeseenRow` says
so of a chain, and `ending` is the induction on the number of steps. It follows the walk in the tree
itself, so that nothing is asked of a body but that it is properly linked.
-/

namespace Formulary

open Plan Shape

variable {fs : List Shape} {m : Macro} {p : Plan} {t : Tree} {up : Option NodeId}

/-! ## Definitions that are foreseen -/

namespace Shape

section

variable (ms : List Macro)

mutual

/-- All definitions in an element make one of the given macros, and none stands in the parameters of
a command. -/
def Foreseen : Shape → Prop
  | .literal _ | .empty => True
  | .group _ inner => ForeseenRow inner
  | .script _ operand => operand.Foreseen
  | .command _ parameters => definingCommand ∉ commandsOf parameters
  | .block _ parameters body => ForeseenRow parameters ∧ ForeseenRow body

/-- All definitions in a chain make one of the given macros, and none stands in the parameters of a
command. -/
def ForeseenRow : List Shape → Prop
  | [] => True
  | f :: fs => f.Foreseen ∧ (∀ parameters m rest, f = .command definingCommand parameters →
      Macro.read parameters fs = .ok (m, rest) → m ∈ ms) ∧ ForeseenRow fs

end

end

variable {ms : List Macro}

@[simp] theorem foreseenRow_nil : ForeseenRow ms [] := by
  rw [ForeseenRow]
  trivial

theorem foreseenRow_cons {f : Shape} : ForeseenRow ms (f :: fs) ↔
    f.Foreseen ms ∧ (∀ parameters m rest, f = .command definingCommand parameters →
      Macro.read parameters fs = .ok (m, rest) → m ∈ ms) ∧ ForeseenRow ms fs := by
  rw [ForeseenRow]

mutual

theorem foreseen_of_not_mem : ∀ {f : Shape}, definingCommand ∉ f.commands → f.Foreseen ms
  | .literal _, _ => by
    rw [Foreseen]
    trivial
  | .empty, _ => by
    rw [Foreseen]
    trivial
  | .group fence inner, h => by
    rw [commands] at h
    rw [Foreseen]
    exact foreseenRow_of_not_mem h
  | .script marker operand, h => by
    rw [commands] at h
    rw [Foreseen]
    exact foreseen_of_not_mem h
  | .command name parameters, h => by
    rw [commands, List.mem_cons, not_or] at h
    rw [Foreseen]
    exact h.2
  | .block name parameters body, h => by
    rw [commands, List.mem_append, not_or] at h
    rw [Foreseen]
    exact ⟨foreseenRow_of_not_mem h.1, foreseenRow_of_not_mem h.2⟩

/-- Without definitions there is nothing to foresee. -/
theorem foreseenRow_of_not_mem : ∀ {fs : List Shape}, definingCommand ∉ commandsOf fs →
    ForeseenRow ms fs
  | [], _ => foreseenRow_nil
  | f :: fs, h => by
    rw [commandsOf_cons, List.mem_append, not_or] at h
    refine foreseenRow_cons.mpr ⟨foreseen_of_not_mem h.1, ?_, foreseenRow_of_not_mem h.2⟩
    rintro parameters m rest rfl -
    rw [commands] at h
    exact absurd List.mem_cons_self h.1

end

theorem ForeseenRow.chain (h : ForeseenRow ms fs) : ForeseenRow ms (chain fs) := by
  cases fs with
  | nil =>
    rw [chain_nil]
    exact foreseenRow_of_not_mem (by simp [commands])
  | cons => exact h

/-- A definition takes what it needs from the elements after it. So nothing new is defined when
elements without definitions come before others. -/
theorem ForeseenRow.append {gs : List Shape} (hgs : definingCommand ∉ commandsOf gs)
    (hfs : ForeseenRow ms fs) : ForeseenRow ms (gs ++ fs) := by
  induction gs with
  | nil => exact hfs
  | cons g gs ih =>
    rw [commandsOf_cons, List.mem_append, not_or] at hgs
    refine foreseenRow_cons.mpr ⟨foreseen_of_not_mem hgs.1, ?_, ih hgs.2⟩
    rintro parameters m rest rfl -
    rw [commands] at hgs
    exact absurd List.mem_cons_self hgs.1

theorem ForeseenRow.of_suffix {rest : List Shape} (h : ForeseenRow ms fs) (hrest : rest <:+ fs) :
    ForeseenRow ms rest := by
  obtain ⟨taken, rfl⟩ := hrest
  induction taken with
  | nil => exact h
  | cons f taken ih => exact ih (foreseenRow_cons.mp h).2.2

end Shape

namespace Macro

/-- A definition takes elements from the start of a chain. -/
theorem suffix_of_read {parameters rest : List Shape} (h : Macro.read parameters fs = .ok (m, rest)) :
    rest <:+ fs := by
  unfold Macro.read at h
  split at h
  · obtain ⟨name, -, h⟩ := exists_of_bind_eq_ok h
    obtain ⟨m', -, h⟩ := exists_of_bind_eq_ok h
    obtain ⟨-, rfl⟩ := Prod.mk.inj (Except.ok.inj h)
    exact List.suffix_rfl
  · obtain ⟨name, -, h⟩ := exists_of_bind_eq_ok h
    obtain ⟨m', -, h⟩ := exists_of_bind_eq_ok h
    obtain ⟨-, rfl⟩ := Prod.mk.inj (Except.ok.inj h)
    exact List.suffix_cons _ _
  · cases h

/-- No definition comes out of a macro if none is in its body or in the arguments. -/
theorem not_mem_instantiate {arguments gs : List Shape}
    (hbody : definingCommand ∉ commandsOf m.body)
    (harguments : definingCommand ∉ commandsOf arguments) (h : m.instantiate arguments = .ok gs) :
    definingCommand ∉ commandsOf gs := by
  intro hmem
  rcases List.mem_append.mp (commandsOf_instantiate h hmem) with hin | hin
  · exact hbody hin
  · exact harguments hin

end Macro

/-! ## The walk ends -/

namespace Plan

variable {p q r : Plan} {k : Nat} {qs rs : List Plan} {t : Tree} {up : Option NodeId}

/-- The parameters of an element. -/
def parameters : Plan → List Plan
  | .command _ _ ps | .block _ _ ps _ => ps
  | _ => []

/-- A command or a block with other parameters. -/
def withParameters (qs : List Plan) : Plan → Plan
  | .command n name _ => .command n name qs
  | .block n name _ body => .block n name qs body
  | p => p

theorem withParameters_withParameters :
    (p.withParameters qs).withParameters rs = p.withParameters rs := by
  cases p <;> rfl

theorem withParameters_parameters : p.withParameters p.parameters = p := by
  cases p <;> rfl

theorem exchange_parameter (h : p.parameters[k]? = some r) :
    (Part.element p).children[k]? = some (.element r) ∧
      (Part.element p).exchange q k = .element (p.withParameters (p.parameters.set k q)) ∧
      (p.withParameters (p.parameters.set k q)).parameters.drop (k + 1) =
        p.parameters.drop (k + 1) := by
  cases p with
  | command n name ps =>
    refine ⟨?_, rfl, List.drop_set_of_lt (Nat.lt_succ_self k)⟩
    rw [Part.children, List.getElem?_map]
    exact congrArg _ h
  | block n name ps body =>
    have hlt := (List.getElem?_eq_some_iff.mp h).1
    refine ⟨?_, rfl, List.drop_set_of_lt (Nat.lt_succ_self k)⟩
    rw [Part.children, List.getElem?_append_left (by rwa [List.length_map]), List.getElem?_map]
    exact congrArg _ h
  | literal | empty | group | script => cases h

theorem Fits.parameter (h : p.Fits t up) (k : Nat) :
    t.parameter p.id k = p.parameters[k]?.map Plan.id := by
  rw [Tree.parameter, h.node]
  cases p with
  | command | block => rw [top, Node.parameters, parameters, List.getElem?_map]
  | literal | empty | group | script => rfl

end Plan

/-- A part in the store. -/
structure Part.Hangs (t : Tree) (up : Option NodeId) (x : Part) : Prop where
  fits : x.Fits t up
  nodup : x.ids.Nodup
  root_lt : t.root < t.size

theorem Part.Hangs.becomes {t' : Tree} {x x' : Part} (h : x.Hangs t up)
    (hx : Part.Becomes t t' up x x') : x'.Hangs t' up :=
  ⟨hx.fits, hx.trades.nodup, root_lt_of_keeps h.root_lt hx.trades.keeps⟩

theorem Part.Hangs.child {x y : Part} (h : y.Hangs t up) (hx : x ∈ y.children) :
    x.Hangs t (some y.id) := by
  have hn := h.nodup
  rw [Part.ids_eq, nodup_cons_iff] at hn
  exact ⟨h.fits.children x hx, Multiset.nodup_of_le (Part.ids_le_sum hx) hn.2, h.root_lt⟩

/-- Definitions that stand for foreseen macros. -/
def Definitions.Among (ds : Definitions) (foreseen : List Macro) : Prop :=
  ∀ d ∈ ds.toList, ∃ m ∈ foreseen, d.StandsFor m

section

variable {walk walk' : Walk Definitions Fault Unit} {t t' : Tree} {ds ds' : Definitions}
  {post post' : Tree → Definitions → Prop}

/-- A walk that ends, and what holds of what it leaves if it does not fail. -/
def Ends (walk : Walk Definitions Fault Unit) (t : Tree) (ds : Definitions)
    (post : Tree → Definitions → Prop) : Prop :=
  ∃ r t' ds', walk.run.run (t, ds) = some (r, t', ds') ∧ (r = .ok () → post t' ds')

namespace Ends

theorem of_ok (hrun : walk.run.run (t, ds) = some (.ok (), t', ds')) (h : post t' ds') :
    Ends walk t ds post :=
  ⟨_, _, _, hrun, fun _ => h⟩

theorem of_error {x : Fault} (hrun : walk.run.run (t, ds) = some (.error x, t', ds')) :
    Ends walk t ds post :=
  ⟨_, _, _, hrun, nofun⟩

theorem congr (h : Ends walk t ds post) (hrun : walk'.run.run (t, ds) = walk.run.run (t, ds)) :
    Ends walk' t ds post := by
  rw [Ends, hrun]
  exact h

theorem mono (h : Ends walk t ds post) (hpost : ∀ t' ds', post t' ds' → post' t' ds') :
    Ends walk t ds post' := by
  obtain ⟨r, t', ds', hrun, hr⟩ := h
  exact ⟨r, t', ds', hrun, fun hok => hpost t' ds' (hr hok)⟩

theorem bind {next : Unit → Walk Definitions Fault Unit} (h : Ends walk t ds post)
    (hnext : ∀ t' ds', post t' ds' → Ends (next ()) t' ds' post') :
    Ends (walk >>= next) t ds post' := by
  obtain ⟨r, t', ds', hrun, hr⟩ := h
  cases r with
  | error x => exact of_error (run_bind_of_error hrun)
  | ok =>
    rw [Ends, run_bind_of_ok hrun]
    exact hnext t' ds' (hr rfl)

end Ends

end

namespace Definitions

variable {ds ds' : Definitions} {d : Definition} {foreseen : List Macro} {name : String}

theorem Among.find? (h : ds.Among foreseen) (hfind : ds.find? name = some d) :
    ∃ m ∈ foreseen, d.StandsFor m ∧ m.name = name := by
  obtain ⟨m, hm, hdm⟩ := h d (List.mem_of_find?_eq_some hfind)
  have hname : d.name = name := by simpa using List.find?_some hfind
  exact ⟨m, hm, hdm, hdm.name_eq.symm.trans hname⟩

theorem Among.insert {place : Span} (h : ds.Among foreseen) (hdm : d.StandsFor m)
    (hm : m ∈ foreseen) (hinsert : ds.insert d place = .ok ds') : ds'.Among foreseen := by
  rw [Definitions.insert] at hinsert
  split at hinsert
  · cases hinsert
  · cases hinsert
    exact List.forall_mem_append.mpr ⟨h, List.forall_mem_singleton.mpr ⟨m, hm, hdm⟩⟩

/-- The visitor stands at a definition or at the use of a macro, or it only looks. -/
theorem cases_of_fits (h : p.Fits t up) (ds : Definitions) :
    (∃ id ps, p = .command id definingCommand ps) ∨
    (∃ id name ps d, p = .command id name ps ∧ name ≠ definingCommand ∧ ds.find? name = some d) ∨
    ds.LooksAt t p.id := by
  cases p with
  | command id name ps =>
    by_cases hname : name = definingCommand
    · exact Or.inl ⟨id, ps, by rw [hname]⟩
    · rcases hfind : ds.find? name with _ | d
      · refine Or.inr (Or.inr fun name' parameters hnode => ?_)
        rw [h.node] at hnode
        obtain ⟨rfl, -⟩ := Node.command.inj hnode
        exact ⟨hname, hfind⟩
      · exact Or.inr (Or.inl ⟨id, name, ps, d, rfl, hname, hfind⟩)
  | literal | empty | group | script | block =>
    refine Or.inr (Or.inr fun name parameters hnode => ?_)
    rw [h.node] at hnode
    cases hnode

end Definitions

section

open Definitions (visitor)

section

variable (foreseen : List Macro) (prices : String → Nat → Nat) (n : Nat)

/-- The walk through an element ends with as many steps as it weighs. -/
def ElementEnds : Prop := ∀ {t up p} {ds : Definitions}, (Part.element p).Hangs t up →
  ds.Among foreseen → ds.LooksAt t p.id → p.shape.Foreseen foreseen →
  p.shape.weight prices 0 ≤ n →
  Ends (Walk.through visitor n p.id) t ds fun t' ds' =>
    ds'.Among foreseen ∧ ∃ p', Plan.Becomes t t' up p p'

/-- So does the walk along a chain. -/
def AlongEnds : Prop := ∀ {t up cell p row} {ds : Definitions}, (Part.chain cell p row).Hangs t up →
  ds.Among foreseen → ForeseenRow foreseen (rowShapes ((cell, p) :: row)) →
  weightOf prices 0 (rowShapes ((cell, p) :: row)) ≤ n →
  Ends (Walk.alongChain visitor n cell) t ds fun t' ds' =>
    ds'.Among foreseen ∧ ∃ row', RowBecomes t t' up ((cell, p) :: row) row'

/-- So does the walk through a chain from its first cell. -/
def ChainEnds : Prop := ∀ {t up cell p row} {ds : Definitions}, (Part.chain cell p row).Hangs t up →
  ds.Among foreseen → ForeseenRow foreseen (rowShapes ((cell, p) :: row)) →
  1 + weightOf prices 0 (rowShapes ((cell, p) :: row)) ≤ n →
  Ends (Walk.through visitor n cell) t ds fun t' ds' =>
    ds'.Among foreseen ∧ ∃ row', RowBecomes t t' up ((cell, p) :: row) row'

/-- So does the walk to an operand. -/
def OperandEnds : Prop := ∀ {t up s marker p} {ds : Definitions},
  (Part.element (.script s marker p)).Hangs t up → ds.Among foreseen → p.shape.Foreseen foreseen →
  1 + p.shape.weight prices 0 ≤ n →
  Ends (Walk.toOperand visitor n s) t ds fun t' ds' =>
    ds'.Among foreseen ∧ ∃ p', Plan.Becomes t t' up (.script s marker p) p'

/-- So does the walk to the parameters from one of them on. -/
def ParametersEnd : Prop := ∀ {t up p k} {ds : Definitions}, (Part.element p).Hangs t up →
  ds.Among foreseen → ForeseenRow foreseen (shapes (p.parameters.drop k)) →
  1 + weightOf prices 0 (shapes (p.parameters.drop k)) ≤ n →
  Ends (Walk.toParameters visitor n p.id k) t ds fun t' ds' =>
    ds'.Among foreseen ∧ ∃ qs, Plan.Becomes t t' up p (p.withParameters qs)

/-- With as many steps as a part weighs, the walk through it ends. -/
structure Ending : Prop where
  element : ElementEnds foreseen prices n
  chain : ChainEnds foreseen prices n
  along : AlongEnds foreseen prices n
  operand : OperandEnds foreseen prices n
  parameters : ParametersEnd foreseen prices n

end

variable {foreseen : List Macro} {prices : String → Nat → Nat} {n : Nat} {t : Tree}
  {up : Option NodeId} {p : Plan} {k : Nat} {ds : Definitions}

theorem Ending.element_succ (h : Ending foreseen prices n) :
    ElementEnds foreseen prices (n + 1) := by
  intro t up p ds hp hds hlooks hf hweight
  refine Ends.congr ?_ (run_through_into hlooks n)
  have hfits : p.Fits t up := hp.fits
  rw [hfits.node]
  cases p with
  | literal | empty => exact Ends.of_ok rfl ⟨hds, _, Plan.Becomes.refl hfits hp.nodup⟩
  | group id fence inner =>
    rw [shape, Foreseen] at hf
    rw [shape, weight] at hweight
    have hgroup := hfits
    rw [Plan.Fits] at hgroup
    obtain ⟨⟨first, hfirst, -⟩, -⟩ := hgroup
    obtain ⟨q, rest, rfl⟩ := exists_of_nextCell hfirst
    have hinner : (Part.chain first q rest).Hangs t (some id) := hp.child List.mem_cons_self
    refine (h.chain hinner hds hf (by omega)).mono ?_
    rintro t' ds' ⟨hds', row', hrow⟩
    exact ⟨hds', _, hrow.group hfits hp.nodup⟩
  | script id marker operand =>
    rw [shape, Foreseen] at hf
    rw [shape, weight] at hweight
    exact h.operand hp hds hf (by omega)
  | command id name ps =>
    rw [shape, Foreseen] at hf
    rw [shape, weight] at hweight
    have hparameters : 1 + weightOf prices 0 (shapes ps) ≤ n := by omega
    refine (h.parameters (k := 0) hp hds (foreseenRow_of_not_mem hf) hparameters).mono ?_
    rintro t' ds' ⟨hds', qs, hqs⟩
    exact ⟨hds', _, hqs⟩
  | block id name ps body =>
    rw [shape, Foreseen] at hf
    rw [shape, weight] at hweight
    have hblock := hfits
    rw [Plan.Fits] at hblock
    obtain ⟨⟨first, hfirst, -⟩, -⟩ := hblock
    obtain ⟨q, rest, rfl⟩ := exists_of_nextCell hfirst
    have hparameters : 1 + weightOf prices 0 (shapes ps) ≤ n := by omega
    refine (h.parameters (k := 0) hp hds hf.1 hparameters).bind ?_
    -- Walking through the parameters may change the tree, so the body is looked up again after it.
    rintro t' ds' ⟨hds', qs, hqs⟩
    have hp' : (Part.element (.block id name qs ((first, q) :: rest))).Hangs t' up :=
      hp.becomes ⟨hqs.fits, rfl, rfl, hqs.trades⟩
    have hbody : (Part.chain first q rest).Hangs t' (some id) :=
      hp'.child (List.mem_append_right _ List.mem_cons_self)
    have hnode : t'.node id = .block name (qs.map Plan.id) first := hqs.fits.node
    refine ((h.chain hbody hds' hf.2 (by omega)).mono ?_).congr
      (by rw [run_bind_of_ok run_tree, id_block, hnode])
    rintro t'' ds'' ⟨hds'', row', hrow⟩
    exact ⟨hds'', _, hqs.trans (hrow.body hqs.fits hqs.trades.nodup)⟩

section

variable (hprices : Macro.Affords prices foreseen)
  (hbodies : ∀ m ∈ foreseen, definingCommand ∉ commandsOf m.body)

include hprices hbodies

/-- One more step along a chain. -/
theorem Ending.along_succ (h : Ending foreseen prices n) : AlongEnds foreseen prices (n + 1) := by
  intro t up cell p row ds hx hds hf hweight
  have hfits : RowFits t up ((cell, p) :: row) := hx.fits
  have hn : (rowIds ((cell, p) :: row)).Nodup := hx.nodup
  have hnode := (rowFits_pair.mp hfits).2.1.node
  rw [rowShapes_cons] at hf hweight
  rw [weightOf_cons] at hweight
  dsimp only at hf hweight
  obtain ⟨hp, hread, hrest⟩ := foreseenRow_cons.mp hf
  -- The walk goes on with what has come into the cell.
  have hmoved : ∀ {t' : Tree} {ds' : Definitions} {q : Plan} {rest : Row}, ds'.Among foreseen →
      RowBecomes t t' up ((cell, p) :: row) ((cell, q) :: rest) → q.id ≠ p.id →
      ForeseenRow foreseen (rowShapes ((cell, q) :: rest)) →
      weightOf prices 0 (rowShapes ((cell, q) :: rest)) ≤ n →
      Ends (onward visitor n cell p.id) t' ds' fun t'' ds'' =>
        ds''.Among foreseen ∧ ∃ row', RowBecomes t t'' up ((cell, p) :: row) row' := by
    intro t' ds' q rest hds' hbecomes hne hf' hweight'
    have hx' : (Part.chain cell q rest).Hangs t' up :=
      hx.becomes ⟨hbecomes.fits, rfl, rfl, hbecomes.trades⟩
    refine ((h.along hx' hds' hf' hweight').mono ?_).congr (run_onward_moved hbecomes.fits hne)
    rintro t'' ds'' ⟨hds'', row', hrow⟩
    exact ⟨hds'', row', hbecomes.trans hrow⟩
  refine Ends.congr ?_ (run_alongChain visitor ds n hfits)
  rcases Definitions.cases_of_fits (rowFits_pair.mp hfits).2.1 ds with ⟨id, ps, rfl⟩ |
    ⟨id, name, ps, d, rfl, hname, hfind⟩ | hlooks
  · -- A definition goes together with what it was read from, so that the chain gets lighter.
    rw [shape, weight] at hweight
    obtain ⟨n, rfl⟩ : ∃ k, n = k + 1 := ⟨n - 1, by omega⟩
    have hstep : (Walk.through visitor (n + 1) (command id definingCommand ps).id).run.run (t, ds) =
        (Definitions.define id).run.run (t, ds) := run_through_past (run_visitor_define hnode) n
    rcases run_define hfits hn ds with ⟨e, -, hrun⟩ | ⟨d, m, fs, htaken, hdm, hout⟩
    · exact Ends.of_error (run_bind_of_error (hstep.trans hrun))
    · rcases hout with ⟨e, -, hrun⟩ | ⟨ds', t', q, rest, hinsert, hrun, hbecomes, hne, hshapes⟩
      · exact Ends.of_error (run_bind_of_error (hstep.trans hrun))
      · have hsuffix := Macro.suffix_of_read htaken
        have hle := weightOf_le_of_suffix prices 0 hsuffix
        have hchain := weightOf_chain_le prices 0 fs
        have hm := hread (shapes ps) m fs (by rw [shape]) htaken
        rw [Ends, run_bind_of_ok (hstep.trans hrun)]
        refine hmoved (hds.insert hdm hm hinsert) hbecomes hne ?_ (by rw [hshapes]; omega)
        rw [hshapes]
        exact (hrest.of_suffix hsuffix).chain
  · rw [shape, weight] at hweight
    rw [shape, Foreseen] at hp
    obtain ⟨n, rfl⟩ : ∃ k, n = k + 1 := ⟨n - 1, by omega⟩
    obtain ⟨m, hm, hdm, hmname⟩ := hds.find? hfind
    have hstep := (run_through_past (run_visitor_use hnode hname hfind) n).trans (run_edit _)
    rcases run_expand_cell hdm (fun hs : False => hs.elim) hfits hn hx.root_lt with
      ⟨fs, t', hexpand, hsome, q, rest, hbecomes, hne, hshapes⟩ | ⟨x, code, t', hexpand, -⟩
    · -- The body comes in, copies of the arguments included, and the price of the name covers it.
      have hprice := hprices.weightOf_instantiate hm hsome
      have hcontents := weightOf_contents_le prices 0 fs
      have hchain := weightOf_chain_le prices 0 (contents fs ++ rowShapes row)
      rw [hmname] at hprice
      rw [weightOf_append] at hchain
      rw [id_command, hexpand] at hstep
      rw [Ends, id_command, run_bind_of_ok hstep]
      refine hmoved hds hbecomes hne ?_ (by rw [hshapes]; omega)
      rw [hshapes]
      refine (ForeseenRow.append ?_ hrest).chain
      rw [commandsOf_contents]
      exact Macro.not_mem_instantiate (hbodies m hm) hp hsome
    · rw [id_command, hexpand] at hstep
      exact Ends.of_error (run_bind_of_error hstep)
  · have helement : (Part.element p).Hangs t (some cell) := hx.child List.mem_cons_self
    refine (h.element helement hds hlooks hp (by omega)).bind ?_
    rintro t' ds' ⟨hds', p', hp'⟩
    have hhead := RowBecomes.head hp' hfits hn
    rw [← hp'.id_eq]
    cases row with
    | nil => exact Ends.of_ok (run_onward visitor ds' n hhead.fits) ⟨hds', _, hhead⟩
    | cons z row =>
      obtain ⟨next, q⟩ := z
      have hx' : (Part.chain cell p' ((next, q) :: row)).Hangs t' up :=
        hx.becomes ⟨hhead.fits, rfl, rfl, hhead.trades⟩
      have htail : (Part.chain next q row).Hangs t' (some cell) :=
        hx'.child (List.mem_cons_of_mem _ List.mem_cons_self)
      refine ((h.along htail hds' hrest (by omega)).mono ?_).congr
        (run_onward visitor ds' n hhead.fits)
      rintro t'' ds'' ⟨hds'', row', hrow⟩
      exact ⟨hds'', _, hhead.trans (hrow.tail hhead.fits hhead.trades.nodup)⟩

/-- An element in no cell is walked through, or it is a use and gives way to something lighter. -/
theorem Ending.alone (h : Ending foreseen prices n) {y : Part}
    (hk : y.children[k]? = some (.element p)) (hchain : y.isChain = false) (hy : y.Hangs t up)
    (hds : ds.Among foreseen) (hf : p.shape.Foreseen foreseen)
    (hweight : p.shape.weight prices 0 ≤ n) :
    Ends (Walk.through visitor n p.id) t ds fun t' ds' => ds'.Among foreseen ∧
      ∃ q, Part.Becomes t t' up y (y.exchange q k) ∧
        (q.id ≠ p.id → q.shape.Foreseen foreseen ∧ 1 + q.shape.weight prices 0 ≤ n) := by
  have hmem := List.mem_of_getElem? hk
  have hfits : p.Fits t (some y.id) := hy.fits.children _ hmem
  have hnode := hfits.node
  rcases Definitions.cases_of_fits hfits ds with ⟨id, ps, rfl⟩ |
    ⟨id, name, ps, d, rfl, hname, hfind⟩ | hlooks
  · rw [shape, weight] at hweight
    obtain ⟨n, rfl⟩ : ∃ k, n = k + 1 := ⟨n - 1, by omega⟩
    have howner : t.owningCell id = none :=
      hfits.owningCell_alone (hy.fits.isSequence.trans hchain)
    have hrun : (Definitions.define id).run.run (t, ds) =
        some (.error (.expansion (.misplaced (t.span id))), t, ds) := by
      rw [Definitions.define, run_bind_of_ok run_tree]
      dsimp only
      rw [howner]
      rfl
    exact Ends.of_error ((run_through_past (run_visitor_define hnode) n).trans hrun)
  · rw [shape, weight] at hweight
    rw [shape, Foreseen] at hf
    obtain ⟨n, rfl⟩ : ∃ k, n = k + 1 := ⟨n - 1, by omega⟩
    obtain ⟨m, hm, hdm, hmname⟩ := hds.find? hfind
    have hstep := (run_through_past (run_visitor_use hnode hname hfind) n).trans (run_edit _)
    rcases run_expand_alone hdm (fun hs : False => hs.elim) hk hchain hy.fits hy.nodup hy.root_lt with
      ⟨fs, t', hexpand, hsome, q, hbecomes, hne, hshape⟩ | ⟨x, code, t', hexpand, -⟩
    · have hprice := hprices.weightOf_instantiate hm hsome
      have hasOperand := weight_asOperand_le prices 0 fs
      rw [hmname] at hprice
      rw [id_command, hexpand] at hstep
      refine Ends.of_ok hstep ⟨hds, q, hbecomes, fun _ => ?_⟩
      rw [hshape]
      refine ⟨foreseen_of_not_mem ?_, by omega⟩
      rw [commands_asOperand]
      exact Macro.not_mem_instantiate (hbodies m hm) hf hsome
    · rw [id_command, hexpand] at hstep
      exact Ends.of_error hstep
  · refine (h.element (hy.child hmem) hds hlooks hf hweight).mono ?_
    rintro t' ds' ⟨hds', p', hp'⟩
    exact ⟨hds', p', Part.Becomes.exchange hk hy.fits hy.nodup hp', fun hne =>
      absurd hp'.id_eq hne⟩

/-- One more step to an operand. -/
theorem Ending.operand_succ (h : Ending foreseen prices n) :
    OperandEnds foreseen prices (n + 1) := by
  intro t up s marker p ds hy hds hf hweight
  have hk : (Part.element (.script s marker p)).children[0]? = some (.element p) := rfl
  refine Ends.congr ?_ (run_toOperand visitor ds n hy.fits)
  refine (h.alone hprices hbodies hk rfl hy hds hf (by omega)).bind ?_
  rintro t' ds' ⟨hds', q, hq, hlighter⟩
  have hbecomes : Plan.Becomes t t' up (.script s marker p) (.script s marker q) :=
    ⟨hq.fits, rfl, hq.trades⟩
  have hoperand : t'.operand s = some q.id := hbecomes.fits.operand
  by_cases hid : q.id = p.id
  · refine Ends.of_ok ?_ ⟨hds', _, hbecomes⟩
    rw [run_bind_of_ok run_tree, hoperand, hid, if_neg fun hne => hne rfl]
    rfl
  · obtain ⟨hf', hweight'⟩ := hlighter hid
    refine ((h.operand (hy.becomes hq) hds' hf' hweight').mono ?_).congr ?_
    · rintro t'' ds'' ⟨hds'', p', hp'⟩
      exact ⟨hds'', p', hbecomes.trans hp'⟩
    · rw [run_bind_of_ok run_tree, hoperand, if_pos fun heq => hid (Option.some.inj heq)]

theorem Ending.parameters_succ (h : Ending foreseen prices n) :
    ParametersEnd foreseen prices (n + 1) := by
  intro t up p k ds hp hds hf hweight
  have hparameter := Plan.Fits.parameter hp.fits k
  rcases hget : p.parameters[k]? with _ | r
  · have hrun : (Walk.toParameters visitor (n + 1) p.id k).run.run (t, ds) =
        some (.ok (), t, ds) := by
      rw [Walk.toParameters, run_bind_of_ok run_tree, hparameter, hget]
      rfl
    refine Ends.of_ok hrun ⟨hds, p.parameters, ?_⟩
    rw [withParameters_parameters]
    exact Plan.Becomes.refl hp.fits hp.nodup
  · obtain ⟨hlt, rfl⟩ := List.getElem?_eq_some_iff.mp hget
    rw [List.drop_eq_getElem_cons hlt, shapes_cons] at hf hweight
    rw [weightOf_cons] at hweight
    obtain ⟨hr, -, hrest⟩ := foreseenRow_cons.mp hf
    have hrun : (Walk.toParameters visitor (n + 1) p.id k).run.run (t, ds) =
        (do Walk.through visitor n p.parameters[k].id; Walk.toParameters visitor n p.id (k + 1) :
          Walk Definitions Fault Unit).run.run (t, ds) := by
      rw [Walk.toParameters, run_bind_of_ok run_tree, hparameter, hget]
      rfl
    have hk := (exchange_parameter (q := p) hget).1
    refine ((h.alone hprices hbodies hk rfl hp hds hr (by omega)).bind ?_).congr hrun
    rintro t' ds' ⟨hds', q, hq, -⟩
    obtain ⟨-, hexchange, hdrop⟩ := exchange_parameter (q := q) hget
    rw [hexchange] at hq
    have hbecomes : Plan.Becomes t t' up p (p.withParameters (p.parameters.set k q)) :=
      ⟨hq.fits, hq.id_eq, hq.trades⟩
    rw [← hdrop] at hrest hweight
    rw [← hbecomes.id_eq]
    refine (h.parameters (hp.becomes hq) hds' hrest (by omega)).mono ?_
    rintro t'' ds'' ⟨hds'', qs, hqs⟩
    rw [withParameters_withParameters] at hqs
    exact ⟨hds'', qs, hbecomes.trans hqs⟩

/-- Every part of the walk ends with as many steps as what it goes through weighs. -/
theorem ending (n : Nat) : Ending foreseen prices n := by
  induction n with
  | zero =>
    refine ⟨fun {_ _ p _} _ _ _ _ hweight => ?_, fun _ _ _ hweight => ?_,
      fun _ _ _ hweight => ?_, fun _ _ _ hweight => ?_, fun _ _ _ hweight => ?_⟩
    · have := weight_pos prices 0 p.shape
      omega
    · omega
    · rw [rowShapes_cons, weightOf_cons] at hweight
      omega
    · omega
    · omega
  | succ n h =>
    refine ⟨h.element_succ, fun hx hds hf hweight => ?_, h.along_succ hprices hbodies,
      h.operand_succ hprices hbodies, h.parameters_succ hprices hbodies⟩
    have hlooks : ∀ {ds : Definitions}, ds.LooksAt _ _ := fun name parameters hnode => by
      cases (RowFits.node hx.fits).symm.trans hnode
    refine (h.along hx hds hf (by omega)).congr ((run_through_into hlooks n).trans ?_)
    rw [RowFits.node hx.fits]
    rfl

end

end

/-! ## Whole formulas -/

namespace Tree

/-- The definitions that are written in a formula. -/
def written (t : Tree) : List Definition :=
  (t.visited t.root).filterMap fun id =>
    if t.commandAt id = some definingCommand then
      (t.owningCell id).bind fun cell => (Definition.read t id cell).toOption.map Prod.fst
    else none

/-- A position has no definition in the parameters of a command, and any definition there makes one
of the given macros. -/
structure Accounts (t : Tree) (foreseen : List Macro) (id : NodeId) : Prop where
  parameters : ∀ p ∈ (t.node id).parameters, (t.node id).isCommand = true →
    definingCommand ∉ t.commandNames p
  definition : ∀ {cell : NodeId} {d : Definition} {count : Nat} {m : Macro},
    t.commandAt id = some definingCommand → t.owningCell id = some cell →
      Definition.read t id cell = .ok (d, count) → d.StandsFor m → m ∈ foreseen

end Tree

section

variable {t : Tree} {foreseen : List Macro}

theorem AllLive.of_mem {ps : List Plan} (h : AllLive t up ps) (hp : p ∈ ps) : Live t up p := by
  induction ps with
  | nil => cases hp
  | cons q ps ih =>
    obtain ⟨hq, -, hps⟩ := h.cons
    rcases List.mem_cons.mp hp with rfl | hp
    · exact hq
    · exact ih hps hp

mutual

/-- Definitions in an element are foreseen if its positions say so. -/
theorem Live.foreseen : ∀ {p : Plan} {up : Option NodeId} {d : Nat}, Live t up p →
    (∀ id ∈ p.id :: (visits d p).map Prod.snd, t.Accounts foreseen id) → p.shape.Foreseen foreseen
  | .literal .., _, _, _, _ => by
    rw [shape, Foreseen]
    trivial
  | .empty _, _, _, _, _ => by
    rw [shape, Foreseen]
    trivial
  | .group n fence inner, _, d, h, haccounts => by
    rw [shape, Foreseen]
    refine RowLive.foreseen (d := d + 1) h.inner.1 fun i hi => haccounts i ?_
    rw [visits, List.map_append]
    exact List.mem_cons_of_mem _ (List.mem_append_right _ hi)
  | .script n marker operand, _, d, h, haccounts => by
    rw [shape, Foreseen]
    refine Live.foreseen (d := d) h.operand.1 fun i hi => haccounts i ?_
    rw [visits]
    exact List.mem_cons_of_mem _ hi
  | .command n name ps, _, _, h, haccounts => by
    rw [shape, Foreseen]
    intro hmem
    obtain ⟨f, hf, hmem⟩ := mem_commandsOf.mp hmem
    rw [shapes_eq_map] at hf
    obtain ⟨p, hp, rfl⟩ := List.mem_map.mp hf
    have hlive := h.parameters.1.of_mem hp
    have hnode := h.fits.node
    have hparameters := (haccounts n List.mem_cons_self).parameters p.id
    rw [id_command] at hnode
    rw [hnode, hlive.fits.commandNames hlive.nodup] at hparameters
    exact hparameters (List.mem_map_of_mem hp) rfl hmem
  | .block n name ps body, _, d, h, haccounts => by
    obtain ⟨hps, -, hbody, -⟩ := h.block
    rw [shape, Foreseen]
    refine ⟨AllLive.foreseen (d := d) hps fun i hi => haccounts i ?_,
      RowLive.foreseen (d := d) hbody fun i hi => haccounts i ?_⟩
    · rw [visits, List.map_append]
      exact List.mem_cons_of_mem _ (List.mem_append_left _ hi)
    · rw [visits, List.map_append, List.map_append]
      exact List.mem_cons_of_mem _ (List.mem_append_right _ (List.mem_append_right _ hi))

theorem AllLive.foreseen : ∀ {ps : List Plan} {up : Option NodeId} {d : Nat}, AllLive t up ps →
    (∀ id ∈ (visitsOf d ps).map Prod.snd, t.Accounts foreseen id) → ForeseenRow foreseen (shapes ps)
  | [], _, _, _, _ => by simp
  | p :: ps, _, d, h, haccounts => by
    obtain ⟨hp, hgroup, hps⟩ := h.cons
    rw [visitsOf, List.map_cons, List.map_append, ← List.cons_append,
      List.forall_mem_append] at haccounts
    rw [shapes_cons, foreseenRow_cons]
    refine ⟨Live.foreseen hp haccounts.1, ?_, AllLive.foreseen hps haccounts.2⟩
    intro parameters m rest heq
    rw [heq] at hgroup
    cases hgroup

theorem RowLive.foreseen : ∀ {row : Row} {up : Option NodeId} {d : Nat}, RowLive t up row →
    (∀ id ∈ (rowVisits d row).map Prod.snd, t.Accounts foreseen id) →
      ForeseenRow foreseen (rowShapes row)
  | [], _, _, _, _ => by simp
  | (cell, p) :: row, _, d, h, haccounts => by
    rw [rowVisits, List.map_cons, List.map_append, ← List.cons_append,
      List.forall_mem_append] at haccounts
    rw [rowShapes_cons, foreseenRow_cons]
    refine ⟨Live.foreseen h.element haccounts.1, ?_, RowLive.foreseen h.rest haccounts.2⟩
    intro parameters m rest heq hread
    cases p with
    | command n name ps =>
      rw [shape] at heq
      obtain ⟨rfl, rfl⟩ := Shape.command.inj heq
      have hanswers := answers_read h.fits h.nodup
      rw [hread] at hanswers
      rcases hdef : Definition.read t n cell with e | ⟨d, count⟩
      · rw [hdef] at hanswers
        cases hanswers
      · rw [hdef] at hanswers
        have hnode : t.node n = .command definingCommand (ps.map Plan.id) := h.element.fits.node
        exact (haccounts.1 n List.mem_cons_self).definition (by rw [Tree.commandAt, hnode]; rfl)
          h.fits.owningCell hdef hanswers.1
    | literal | empty | group | script | block =>
      rw [shape] at heq
      cases heq

end

end

theorem Definition.StandsFor.unique {d : Definition} {m' : Macro} (h : d.StandsFor m)
    (h' : d.StandsFor m') : m = m' := by
  obtain ⟨name, arity, body⟩ := m
  obtain ⟨name', arity', body'⟩ := m'
  obtain rfl : name = name' := h.name_eq.symm.trans h'.name_eq
  obtain rfl : arity = arity' := h.arity_eq.symm.trans h'.arity_eq
  obtain rfl : body = body' := h.body.unique h'.body
  rfl

/-- The macros that some definitions stand for. -/
theorem exists_macros (list : List Definition) :
    ∃ ms : List Macro, ∀ m, m ∈ ms ↔ ∃ d ∈ list, d.StandsFor m := by
  induction list with
  | nil => exact ⟨[], by simp⟩
  | cons d list ih =>
    obtain ⟨ms, hms⟩ := ih
    by_cases hd : ∃ m, d.StandsFor m
    · obtain ⟨m, hm⟩ := hd
      refine ⟨m :: ms, fun m' => ?_⟩
      have hfirst : m' = m ↔ d.StandsFor m' :=
        ⟨fun heq => heq ▸ hm, fun hm' => hm'.unique hm⟩
      rw [List.mem_cons, hfirst, hms]
      simp
    · refine ⟨ms, fun m => ?_⟩
      have hnot : ¬d.StandsFor m := fun hm => hd ⟨m, hm⟩
      rw [hms]
      simp [hnot]

namespace Definitions

/-- The body of a definition with the first name, known already or written in a formula, holds a
command with the second name. -/
def Uses (ds : Definitions) (t : Tree) (m n : String) : Prop :=
  ∃ d ∈ ds.toList ++ t.written, d.name = m ∧ n ∈ d.body.commandNames d.body.root

theorem acyclic_of_rank {ds : Definitions} {rank : String → Nat}
    (h : ∀ m n, ds.Uses t m n → rank n < rank m) (name : String) :
    ¬Relation.TransGen (ds.Uses t) name name := by
  have hlt : ∀ n, Relation.TransGen (ds.Uses t) name n → rank n < rank name := by
    intro n hn
    induction hn with
    | single huses => exact h _ _ huses
    | tail _ huses ih => exact (h _ _ huses).trans ih
  exact fun hcycle => Nat.lt_irrefl _ (hlt name hcycle)

end Definitions

/-- All that is defined in a formula is foreseen if the macros that its definitions stand for are.
-/
theorem Tree.Depicts.foreseenRow {foreseen : List Macro} (h : t.Depicts fs) (hfs : NeatRow fs)
    (hwritten : ∀ d ∈ t.written, ∀ m, d.StandsFor m → m ∈ foreseen)
    (hparameters : ∀ id ∈ t.visited t.root, (t.node id).isCommand = true →
      ∀ p ∈ (t.node id).parameters, definingCommand ∉ t.commandNames p) :
    ForeseenRow foreseen fs := by
  obtain ⟨row, hfirst, hfits, hn, rfl⟩ := h
  have hroot : t.root < t.size := hfits.lt_size t.root (nextCell_mem_rowIds hfirst)
  refine RowLive.foreseen (d := 0) ⟨hfits, hn, hroot, hfs⟩ fun id hid => ?_
  have hvisited : id ∈ t.visited t.root := by
    rw [hfits.visited hn hfirst]
    exact List.mem_cons_of_mem _ hid
  refine ⟨fun p hp hcommand => hparameters id hvisited hcommand p hp, ?_⟩
  intro cell d count m hname hcell hread hm
  refine hwritten d (List.mem_filterMap.mpr ⟨id, hvisited, ?_⟩) m hm
  rw [if_pos hname, hcell, Option.bind_some, hread]
  rfl

/-- Expansion ends if macros do not use themselves, directly or through others, and there are no
definitions in bodies of definitions or in parameters of commands: with enough steps, the walk ends
in one way, whether it succeeds or fails. This holds of every formula that was read and of all
definitions known before, whatever their bodies are, as long as those are properly linked. -/
theorem expandAll_terminates {source : String} {t : Tree} {ds : Definitions}
    (hparse : Tree.parseMath source = .ok t)
    (hds : ∀ d ∈ ds.toList, d.body.Linked d.body.root ∧ d.body.isSequence d.body.root = true)
    (hbodies : ∀ d ∈ ds.toList ++ t.written, definingCommand ∉ d.body.commandNames d.body.root)
    (hparameters : ∀ id ∈ t.visited t.root, (t.node id).isCommand = true →
      ∀ p ∈ (t.node id).parameters, definingCommand ∉ t.commandNames p)
    (hacyclic : ∀ name, ¬Relation.TransGen (ds.Uses t) name name) :
    ∃ enough out, ∀ steps, enough ≤ steps →
      (Definitions.expandAll steps).run.run (t, ds) = some out := by
  obtain ⟨fs, hfs, hneat⟩ := Tree.isNeat_parseMath hparse
  obtain ⟨foreseen, hforeseen⟩ := exists_macros (ds.toList ++ t.written)
  have hnames : ∀ m n, ds.Uses t m n →
      n ∈ (ds.toList ++ t.written).flatMap fun d => d.body.commandNames d.body.root := by
    rintro m n ⟨d, hd, -, hn⟩
    exact List.mem_flatMap.mpr ⟨d, hd, hn⟩
  obtain ⟨rank, hrank⟩ := exists_rank hnames hacyclic
  have hlower : ∀ m ∈ foreseen, ∀ name ∈ commandsOf m.body, rank name < rank m.name := by
    intro m hm name hname
    obtain ⟨d, hd, hdm⟩ := (hforeseen m).mp hm
    rw [← hdm.body.commandNames] at hname
    exact hrank _ _ ⟨d, hd, hdm.name_eq, hname⟩
  obtain ⟨prices, hprices⟩ := Macro.exists_affords hlower
  have hmacros : ∀ m ∈ foreseen, definingCommand ∉ commandsOf m.body := by
    intro m hm
    obtain ⟨d, hd, hdm⟩ := (hforeseen m).mp hm
    rw [← hdm.body.commandNames]
    exact hbodies d hd
  have hknown : ds.Among foreseen := by
    intro d hd
    obtain ⟨hlinked, hsequence⟩ := hds d hd
    obtain ⟨p, rest, hfits, hn⟩ := hlinked.exists_chain hsequence
    have hdm : d.StandsFor ⟨d.name, d.arity, rowShapes ((d.body.root, p) :: rest)⟩ :=
      ⟨rfl, rfl, _, rfl, hfits, hn, rfl⟩
    exact ⟨_, (hforeseen _).mpr ⟨d, List.mem_append_left _ hd, hdm⟩, hdm⟩
  have hrow : ForeseenRow foreseen fs :=
    hfs.foreseenRow hneat
      (fun d hd m hm => (hforeseen m).mpr ⟨d, List.mem_append_right _ hd, hm⟩) hparameters
  obtain ⟨row, hfirst, hfits, hn, rfl⟩ := hfs
  obtain ⟨p, rest, rfl⟩ := exists_of_nextCell hfirst
  have hroot : (Part.chain t.root p rest).Hangs t none :=
    ⟨hfits, hn, hfits.lt_size t.root (nextCell_mem_rowIds hfirst)⟩
  -- As many steps as the formula weighs are enough.
  obtain ⟨r, t', ds', hout, -⟩ := (ending hprices hmacros _).chain hroot hknown hrow (Nat.le_refl _)
  have hrun : ∀ steps, (Definitions.expandAll steps).run.run (t, ds) =
      (Walk.through Definitions.visitor steps t.root).run.run (t, ds) :=
    fun steps => run_bind_of_ok run_tree
  exact ⟨_, _, fun steps hle => Definitions.expandAll_mono hle _ _ ((hrun _).trans hout)⟩

theorem expandAll_terminates_copying :
    ∃ body t t' ds', Tree.parse r"\begin{a}#1#1\end{a}" = .ok body ∧
      body.commandNames body.root = ["begin", "end"] ∧
      Tree.parseMath r"\newcommand\e{\d{\d{x}}}y^\e" = .ok t ∧
      Definitions.Uses ⟨[⟨"d", 1, body⟩]⟩ t "e" "d" ∧
      t'.text = r"y^{\begin{a}\begin{a}xx\end{a}\begin{a}xx\end{a}\end{a}}" ∧
      ∃ enough, ∀ steps, enough ≤ steps →
        (Definitions.expandAll steps).run.run (t, ⟨[⟨"d", 1, body⟩]⟩) = some (.ok (), t', ds') := by
  let rank : String → Nat := fun name => if name = "e" then 2 else if name = "d" then 1 else 0
  have hran : ((Tree.parse r"\begin{a}#1#1\end{a}").toOption.bind fun body =>
      (Definitions.expanded? ⟨[⟨"d", 1, body⟩]⟩ 90 r"\newcommand\e{\d{\d{x}}}y^\e").map fun out =>
        (out.2.1.text, body.isSequence body.root,
          (⟨"d", 1, body⟩ :: out.1.written).map fun d =>
            (d.name, d.body.commandNames d.body.root),
          (out.1.visited out.1.root).all fun id => (out.1.node id).parameters.all fun p =>
            !(out.1.commandNames p).contains definingCommand)) =
      some (r"y^{\begin{a}\begin{a}xx\end{a}\begin{a}xx\end{a}\end{a}}", true,
        [("d", ["begin", "end"]), ("e", ["d", "d"])], true) := by
    decide +kernel
  obtain ⟨body, hbody, hran⟩ := Option.bind_eq_some_iff.mp hran
  obtain ⟨⟨t, t', ds'⟩, hexpanded, hout⟩ := Option.map_eq_some_iff.mp hran
  simp only [Prod.mk.injEq] at hout
  obtain ⟨htext, hsequence, hnames, hparameters⟩ := hout
  replace hbody := Tree.eq_ok_of_toOption hbody
  obtain ⟨fs, hfs, -⟩ := Tree.parse_sound hbody
  obtain ⟨hparse, hrun⟩ := Definitions.expanded?_eq_some hexpanded
  have hcases : ∀ d ∈ ⟨"d", 1, body⟩ :: t.written,
      d.name = "d" ∧ d.body.commandNames d.body.root = ["begin", "end"] ∨
        d.name = "e" ∧ d.body.commandNames d.body.root = ["d", "d"] := by
    intro d hd
    have hmem := List.mem_map_of_mem
      (f := fun d : Definition => (d.name, d.body.commandNames d.body.root)) hd
    rw [hnames] at hmem
    simpa using hmem
  have huses : Definitions.Uses ⟨[⟨"d", 1, body⟩]⟩ t "e" "d" := by
    have hmem : ("e", ["d", "d"]) ∈ (⟨"d", 1, body⟩ :: t.written).map fun d =>
        (d.name, d.body.commandNames d.body.root) := by
      rw [hnames]
      exact List.mem_cons_of_mem _ List.mem_cons_self
    obtain ⟨d, hd, heq⟩ := List.mem_map.mp hmem
    obtain ⟨hname, hused⟩ := Prod.mk.inj heq
    exact ⟨d, hd, hname, hused ▸ List.mem_cons_self⟩
  have hrank : ∀ m n, Definitions.Uses ⟨[⟨"d", 1, body⟩]⟩ t m n → rank n < rank m := by
    rintro m n ⟨d, hd, rfl, hn⟩
    rcases hcases d hd with ⟨hname, hused⟩ | ⟨hname, hused⟩
    · rw [hused] at hn
      rw [hname]
      rcases List.mem_pair.mp hn with rfl | rfl <;> decide
    · rw [hused] at hn
      obtain rfl : n = "d" := by simpa using hn
      rw [hname]
      decide
  obtain ⟨enough, out, hout⟩ := expandAll_terminates hparse
    (List.forall_mem_singleton.mpr ⟨hfs.linked, hsequence⟩)
    (fun d hd => by
      rcases hcases d hd with ⟨-, hused⟩ | ⟨-, hused⟩ <;> rw [hused] <;> decide)
    (fun id hid _ p hp => by
      simpa using List.all_eq_true.mp (List.all_eq_true.mp hparameters id hid) p hp)
    (Definitions.acyclic_of_rank hrank)
  have hsame := (hout _ (Nat.le_max_left enough 90)).symm.trans
    (Definitions.expandAll_mono (Nat.le_max_right enough 90) _ _ hrun)
  cases hsame
  exact ⟨body, t, t', ds', hbody, (Prod.mk.inj (List.cons.inj hnames).1).2, hparse, huses, htext,
    enough, hout⟩

end Formulary
