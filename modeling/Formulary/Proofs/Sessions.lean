import Formulary.Proofs.Forest
import Mathlib.Logic.Relation

/-!
# Sessions

Whoever works on a formula builds nodes, puts them in, takes others out and may put these in again
elsewhere. `Session` is a formula together with the loose nodes, those that hang under nothing and
may still be handed over. `Session.Step` is one operation, whether it is done or refused.

* `Session.InOrder` is the invariant: the formula and the loose nodes form a forest. Cells that were
  left behind may still refer to what is in the formula; they are in the store, but in no tree of
  the forest.
* Every step keeps it (`Session.Step.inOrder`), and so does every run.
-/

namespace Formulary

open Plan

namespace Tree

variable {id cell node : NodeId} {x : Part} {loose : Multiset NodeId} {t t' : Tree}
  {new old : NodeId} {path : List Nat} {r : Except SurgeryError NodeId}

/-! ## Surgery on a forest -/

/-- The element that is meant by a node: that of a cell, and otherwise the node itself. -/
def elementAt (t : Tree) (id : NodeId) : NodeId := (t.head id).getD id

/-- What is loose after surgery, if it was done and if it was refused. -/
def outcome {α : Type} (r : Except SurgeryError α) (done refused : Multiset NodeId) :
    Multiset NodeId :=
  match r with
  | .ok _ => done
  | .error _ => refused

theorem head_eq_none (h : t.isSequence id = false) : t.head id = none := by
  cases hhead : t.head id with
  | none => rfl
  | some head =>
    rw [isSequence_of_head hhead] at h
    cases h

theorem elementAt_of_element (h : t.isSequence id = false) : t.elementAt id = id := by
  rw [elementAt, head_eq_none h]
  rfl

theorem head_owningCell (h : t.owningCell id = some cell) :
    t.head cell = some (t.elementAt id) := by
  rw [owningCell] at h
  split at h
  · rename_i hid
    obtain ⟨head, tail, hnode⟩ := exists_of_isSequence hid
    rw [← Option.some.inj h, elementAt, head_of_node hnode]
    rfl
  · rename_i hid
    obtain ⟨-, hhead⟩ := Option.filter_eq_some_iff.mp h
    rw [elementAt_of_element (Bool.eq_false_of_not_eq_true hid), beq_iff_eq.mp hhead]

/-- The cell of an element of a formula is in the formula. -/
theorem Linked.reaches_owningCell {top : NodeId} (h : t.Linked top) (hid : t.Reaches top id)
    (hcell : t.owningCell id = some cell) : t.Reaches top cell := by
  rw [owningCell] at hcell
  split at hcell
  · rwa [← Option.some.inj hcell]
  · obtain ⟨hparent, -⟩ := Option.filter_eq_some_iff.mp hcell
    rcases hid.cases with rfl | ⟨up, hup, hmem⟩
    · rw [h.parent_top] at hparent
      cases hparent
    · rw [h.parent up hup id hmem] at hparent
      rwa [← Option.some.inj hparent]

/-- A cell of a formula, with what comes after it. -/
theorem exists_down_cell (hx : x.Fits t none) (hcell : t.Reaches x.id cell)
    (hsequence : t.isSequence cell = true) :
    ∃ path p post, x.down path = some (Part.through [] cell p post) := by
  obtain ⟨path, y, up, hy, rfl, hfits⟩ := hx.exists_of_reaches hcell
  rw [hfits.isSequence] at hsequence
  cases y with
  | element p => cases hsequence
  | chain cell p post => exact ⟨path, p, post, hy⟩

theorem head_of_down {p : Plan} {post : Row} (hx : x.Fits t none)
    (hpath : x.down path = some (Part.through [] cell p post)) : t.head cell = some p.id := by
  obtain ⟨up, hfits⟩ := hx.down hpath
  exact head_of_node hfits.node

/-- The formula of a forest, and what else stands there. -/
theorem Forest.exists_root (h : t.Forest (t.root ::ₘ loose)) :
    ∃ (x : Part) (rest : Multiset Part), x.id = t.root ∧ rest.map Part.id = loose ∧
      t.Stand (↑[x] + rest) ∧ x.Fits t none ∧ x.ids.Nodup := by
  rw [← Multiset.singleton_add, ← Multiset.coe_singleton] at h
  obtain ⟨zs, rest, hzs, hrest, hstand⟩ := h.split
  obtain ⟨x, ws, rfl, hid, hws⟩ := List.map_eq_cons_iff.mp hzs
  obtain rfl := List.map_eq_nil_iff.mp hws
  have hn := hstand.nodup_sum
  rw [List.map_singleton, List.sum_singleton] at hn
  exact ⟨x, rest, hid, hrest, hstand, hstand.fits_of_mem List.mem_cons_self, hn⟩

/-- The formula of a forest, a loose node, and what else stands there. -/
theorem Forest.exists_pair (h : t.Forest (t.root ::ₘ node ::ₘ loose)) :
    ∃ (x y : Part) (rest : Multiset Part), x.id = t.root ∧ y.id = node ∧
      rest.map Part.id = loose ∧ t.Stand (↑[x, y] + rest) ∧ x.Fits t none ∧ y.Fits t none ∧
      (x.ids + y.ids).Nodup := by
  rw [← coe_pair_add] at h
  obtain ⟨zs, rest, hzs, hrest, hstand⟩ := h.split
  obtain ⟨x, ws, rfl, hid, hws⟩ := List.map_eq_cons_iff.mp hzs
  obtain ⟨y, vs, rfl, hid', hvs⟩ := List.map_eq_cons_iff.mp hws
  obtain rfl := List.map_eq_nil_iff.mp hvs
  have hn := hstand.nodup_sum
  rw [List.map_cons, List.map_singleton, List.sum_cons, List.sum_singleton] at hn
  exact ⟨x, y, rest, hid, hid', hrest, hstand, hstand.fits_of_mem List.mem_cons_self,
    hstand.fits_of_mem (List.mem_cons_of_mem _ List.mem_cons_self), hn⟩

theorem Forest.detached (h : t.Forest (t.root ::ₘ loose)) (hnode : node ∈ loose) :
    t.Detached node where
  linked := h.linked node (Multiset.mem_cons_of_mem hnode)
  ne_root := by
    rintro rfl
    exact (Multiset.nodup_cons.mp h.nodup).1 hnode

/-- Nothing in the formula is under a loose node. -/
theorem Forest.not_reaches {i : NodeId} (h : t.Forest (t.root ::ₘ loose)) (hnode : node ∈ loose)
    (hi : t.Reaches t.root i) :
    ¬t.Reaches node i :=
  (h.linked t.root (Multiset.mem_cons_self _ _)).apart (h.detached hnode).linked
    (h.detached hnode).ne_root.symm hi

/-- A change in the formula took up the parts `ys` and gave back the parts `out`. -/
theorem Stand.forest_of_splice {x' z z' : Part} {ys out : List Part} {rest : Multiset Part}
    {i i' : Multiset NodeId} (h : t.Stand (↑(x :: ys) + rest)) (hgrounded : t'.Grounded)
    (hsplice : Part.Splice t t' x x' path z z' i i') (hout : ∀ y ∈ out, y.Fits t' none)
    (hi : (ys.map Part.ids).sum = i) (hi' : (out.map Part.ids).sum = i') :
    t'.Forest (x.id ::ₘ (↑(out.map Part.id) + rest.map Part.id)) := by
  have hcome : ∀ y ∈ x' :: out, y.Fits t' none :=
    List.forall_mem_cons.mpr ⟨hsplice.turns.fits, hout⟩
  have hforest := h.forest_of_trade hgrounded hcome
    (hsplice.trades.congr (by rw [List.map_cons, List.sum_cons, hi])
      (by rw [List.map_cons, List.sum_cons, hi']))
  rwa [List.map_cons, ← Multiset.cons_coe, Multiset.cons_add, hsplice.turns.id_eq] at hforest

theorem Forest.delete (h : t.Forest (t.root ::ₘ loose)) (hid : t.Reaches t.root id)
    (hrun : (delete id).run.run t = (r, t')) :
    t'.Forest (t.root ::ₘ outcome r (t.elementAt id ::ₘ loose) loose) := by
  cases hcell : t.owningCell id with
  | none =>
    rw [Tree.delete, Edit.run_get_bind, hcell] at hrun
    obtain ⟨rfl, rfl⟩ := Prod.mk.inj hrun
    exact h
  | some cell =>
    have hreach := (h.linked t.root (Multiset.mem_cons_self _ _)).reaches_owningCell hid hcell
    obtain ⟨x, rest, hroot, rfl, hstand, hx, hn⟩ := h.exists_root
    rw [← hroot] at hreach
    obtain ⟨path, p, post, hpath⟩ :=
      exists_down_cell hx hreach (isSequence_of_owningCell hcell)
    obtain ⟨p', post', hpulled⟩ := exists_of_nextCell (nextCell_pulled cell t.size post)
    obtain ⟨t₁, x', hrun', hout, hsplice⟩ := hx.run_delete hn hpath hcell hpulled
    obtain ⟨rfl, rfl⟩ := Prod.mk.inj (hrun.symm.trans hrun')
    have hp : p.id = t.elementAt id :=
      Option.some.inj ((head_of_down hx hpath).symm.trans (head_owningCell hcell))
    have hout' : ∀ y ∈ [Part.element p], y.Fits t' none := List.forall_mem_singleton.mpr hout
    rw [← hp, ← hroot]
    exact hstand.forest_of_splice (h.grounded.delete hrun) hsplice hout' rfl List.sum_singleton

/-- A loose element goes into the formula, by a program that puts it beside that of a cell. -/
theorem Forest.insert {program : Edit SurgeryError NodeId}
    (h : t.Forest (t.root ::ₘ node ::ₘ loose)) (hcell : t.Reaches t.root cell)
    (hsequence : t.isSequence cell = true) (helement : t.isSequence node = false)
    (hgrounded : t'.Grounded)
    (hprogram : ∀ p q : Plan, q.id = node → ∃ p' q', Inserts cell p q program p' q')
    (hrun : program.run.run t = (r, t')) :
    t'.Forest (t.root ::ₘ outcome r loose (node ::ₘ loose)) := by
  obtain ⟨x, y, rest, hroot, hnode, rfl, hstand, hx, hy, hn⟩ := h.exists_pair
  rw [← hnode, hy.isSequence] at helement
  cases y with
  | chain first q post => cases helement
  | element q =>
    rw [← hroot] at hcell
    obtain ⟨path, p, post, hpath⟩ := exists_down_cell hx hcell hsequence
    obtain ⟨p', q', hinserts⟩ := hprogram p q hnode
    obtain ⟨t₁, x', hrun', hspliced⟩ := hx.run_insert hpath hinserts hy hn
    obtain ⟨rfl, rfl⟩ := Prod.mk.inj (hrun.symm.trans hrun')
    have hforest := hstand.forest_of_splice hgrounded hspliced (List.forall_mem_nil _)
      List.sum_singleton List.sum_nil
    rwa [List.map_nil, Multiset.coe_nil, zero_add, hroot] at hforest

theorem Forest.insertAfter (h : t.Forest (t.root ::ₘ node ::ₘ loose))
    (hcell : t.Reaches t.root cell) (hrun : (insertAfter cell node).run.run t = (r, t')) :
    t'.Forest (t.root ::ₘ outcome r loose (node ::ₘ loose)) := by
  have hmem : node ∈ node ::ₘ loose := Multiset.mem_cons_self _ _
  have hgrounded := h.grounded.insertAfter (h.detached hmem).linked.lt_size
    (h.not_reaches hmem hcell) hrun
  rcases insertAfter_cases hrun with ⟨⟨e, rfl⟩, rfl⟩ | ⟨-, hsequence, helement, -⟩
  · exact h
  · refine h.insert hcell hsequence helement hgrounded ?_ hrun
    rintro p q rfl
    exact ⟨p, q, .after⟩

theorem Forest.insertBefore (h : t.Forest (t.root ::ₘ node ::ₘ loose))
    (hcell : t.Reaches t.root cell) (hrun : (insertBefore cell node).run.run t = (r, t')) :
    t'.Forest (t.root ::ₘ outcome r loose (node ::ₘ loose)) := by
  have hmem : node ∈ node ::ₘ loose := Multiset.mem_cons_self _ _
  have hgrounded := h.grounded.insertBefore (h.detached hmem).linked.lt_size
    (h.not_reaches hmem hcell) hrun
  rcases insertBefore_cases hrun with ⟨⟨e, rfl⟩, rfl⟩ | ⟨head, tail, -, hnode, helement, -⟩
  · exact h
  · refine h.insert hcell (isSequence_of_head (head_of_node hnode)) helement hgrounded ?_ hrun
    rintro p q rfl
    exact ⟨q, p, .before⟩

theorem Forest.replaceCell {chain : NodeId} {r : Except SurgeryError Unit}
    (h : t.Forest (t.root ::ₘ chain ::ₘ loose)) (hcell : t.Reaches t.root cell)
    (hsequence : t.isSequence cell = true) (hchain : t.isSequence chain = true)
    (hrun : (replaceCell cell chain).run.run t = (r, t')) :
    r = .ok () ∧ t'.Forest (t.root ::ₘ t.elementAt cell ::ₘ loose) := by
  have hmem : chain ∈ chain ::ₘ loose := Multiset.mem_cons_self _ _
  have hgrounded := h.grounded.replaceCell hsequence hchain
    (fun i hi hi' => h.not_reaches hmem (hcell.trans hi') hi) hrun
  obtain ⟨x, y, rest, hroot, rfl, rfl, hstand, hx, hy, hn⟩ := h.exists_pair
  rw [hy.isSequence] at hchain
  cases y with
  | element q => cases hchain
  | chain first q rest =>
    rw [← hroot] at hcell ⊢
    obtain ⟨path, p, post, hpath⟩ := exists_down_cell hx hcell hsequence
    obtain ⟨t₁, x', hrun', hout, hsplice⟩ := hx.run_replaceCell hpath hy hn
    obtain ⟨rfl, rfl⟩ := Prod.mk.inj (hrun.symm.trans hrun')
    have hp : t.elementAt cell = p.id := by
      rw [elementAt, head_of_down hx hpath]
      rfl
    rw [hp]
    have hout' : ∀ y ∈ [Part.element p], y.Fits t' none := List.forall_mem_singleton.mpr hout
    exact ⟨rfl, hstand.forest_of_splice hgrounded hsplice hout' List.sum_singleton
      List.sum_singleton⟩

theorem Forest.replaceElement {r : Except SurgeryError Unit}
    (h : t.Forest (t.root ::ₘ new ::ₘ loose)) (hroot : t.isSequence t.root = true)
    (hold : t.Reaches t.root old) (helement : t.isSequence old = false)
    (hnew : t.isSequence new = false) (hrun : (replaceElement old new).run.run t = (r, t')) :
    r = .ok () ∧ t'.Forest (t.root ::ₘ t.elementAt old ::ₘ loose) := by
  have hmem : new ∈ new ::ₘ loose := Multiset.mem_cons_self _ _
  have hlinked := h.linked t.root (Multiset.mem_cons_self _ _)
  rw [elementAt_of_element helement]
  rcases hold.cases with rfl | ⟨up, hup, hchild⟩
  · rw [hroot] at helement
    cases helement
  have hgrounded : t'.Grounded := by
    refine h.grounded.replaceElement helement hnew (h.detached hmem).linked.lt_size ?_ hrun
    intro parent hparent
    obtain rfl := Option.some.inj ((hlinked.parent up hup old hchild).symm.trans hparent)
    exact ⟨hlinked.lt_size_of_reaches hup, h.not_reaches hmem hup⟩
  obtain ⟨x, y, rest, hid, rfl, rfl, hstand, hx, hy, hn⟩ := h.exists_pair
  rw [hy.isSequence] at hnew
  cases y with
  | chain first q rest => cases hnew
  | element q =>
    rw [← hid] at hup ⊢
    obtain ⟨path, y, up', hpath, rfl, hfits⟩ := hx.exists_of_reaches hup
    obtain ⟨k, p, hk, rfl⟩ := hfits.exists_element hchild helement
    obtain ⟨t₁, x', hrun', hout, hsplice⟩ := hx.run_replaceElement hpath hk hy hn
    obtain ⟨rfl, rfl⟩ := Prod.mk.inj (hrun.symm.trans hrun')
    have hout' : ∀ y ∈ [Part.element p], y.Fits t' none := List.forall_mem_singleton.mpr hout
    exact ⟨rfl, hstand.forest_of_splice hgrounded hsplice hout' List.sum_singleton
      List.sum_singleton⟩

theorem Forest.replace {r : Except SurgeryError Unit} (h : t.Forest (t.root ::ₘ new ::ₘ loose))
    (hroot : t.isSequence t.root = true) (hold : t.Reaches t.root old)
    (hrun : (replace old new).run.run t = (r, t')) :
    t'.Forest (t.root ::ₘ outcome r (t.elementAt old ::ₘ loose) (new ::ₘ loose)) := by
  rw [(h.detached (Multiset.mem_cons_self _ _)).run_replace] at hrun
  cases hsequence : t.isSequence old <;> cases hnew : t.isSequence new <;>
    rw [hsequence, hnew] at hrun
  · obtain ⟨rfl, hforest⟩ := h.replaceElement hroot hold hsequence hnew hrun
    exact hforest
  · obtain ⟨rfl, rfl⟩ := Prod.mk.inj hrun
    exact h
  · obtain ⟨rfl, rfl⟩ := Prod.mk.inj hrun
    exact h
  · obtain ⟨rfl, hforest⟩ := h.replaceCell hold hsequence hnew hrun
    exact hforest

theorem Forest.of_sameLinks {tops : Multiset NodeId} (h : t.Forest tops) (hsame : t.SameLinks t') :
    t'.Forest tops :=
  ⟨h.grounded.of_sameLinks hsame, h.nodup, fun top htop => (h.linked top htop).congr hsame⟩

theorem alters_replace {r : Except SurgeryError Unit} (h : t.Detached new)
    (hrun : (replace old new).run.run t = (r, t')) : ∃ changed, t.Alters t' changed := by
  rw [h.run_replace] at hrun
  cases hsequence : t.isSequence old <;> cases hnew : t.isSequence new <;>
    rw [hsequence, hnew] at hrun
  · exact ⟨_, alters_replaceElement hrun⟩
  · obtain rfl : t = t' := (Prod.mk.inj hrun).2
    exact ⟨[], Alters.refl t []⟩
  · obtain rfl : t = t' := (Prod.mk.inj hrun).2
    exact ⟨[], Alters.refl t []⟩
  · exact ⟨_, alters_replaceCell hsequence hnew hrun⟩

/-- A formula that was just made or read. -/
inductive Initial : Tree → Prop
  | blank : Initial blank
  | parse {text : String} {t : Tree} (h : parse text = .ok t) : Initial t
  | parseMath {text : String} {t : Tree} (h : parseMath text = .ok t) : Initial t

theorem Initial.forest (h : Initial t) : t.Forest {t.root} ∧ t.isSequence t.root = true := by
  cases h with
  | blank => exact forest_blank
  | parse h => exact forest_parse h
  | parseMath h => exact forest_parseMath h

end Tree

/-! ## Steps and runs -/

/-- A formula that is worked on, and the loose nodes: those that were built and not handed over yet,
and those that were taken out. -/
structure Session where
  tree : Tree
  loose : Multiset NodeId

namespace Session

open Formulary.Tree

/-- One operation. What is handed over is loose before and is not loose afterwards, unless surgery
refuses it; surgery is done in the formula, and what it takes out is loose afterwards. -/
inductive Step : Session → Session → Prop
  | alloc {t t' : Tree} {node : Node} {span : Span} {id : NodeId} {loose : Multiset NodeId}
      (hproper : t.ProperChildren node) (hrun : (alloc node span).run t = (id, t')) :
    Step ⟨t, ↑node.children + loose⟩ ⟨t', id ::ₘ loose⟩
  | chain {t t' : Tree} {elements : List NodeId} {fallback : Span} {id : NodeId}
      {loose : Multiset NodeId} (hheads : ∀ e ∈ elements, t.isSequence e = false)
      (hrun : (chain fallback elements).run t = (id, t')) :
    Step ⟨t, ↑elements + loose⟩ ⟨t', id ::ₘ loose⟩
  | graft {t t' source : Tree} {place : Option Span} {id : NodeId} {loose : Multiset NodeId}
      (hsource : source.Ends source.size source.root)
      (hrun : (source.graft place).run t = (id, t')) :
    Step ⟨t, loose⟩ ⟨t', id ::ₘ loose⟩
  | deepCopy {t t' : Tree} {id copy : NodeId} {loose : Multiset NodeId} (hid : id < t.size)
      (hrun : (deepCopy id).run t = (copy, t')) :
    Step ⟨t, loose⟩ ⟨t', copy ::ₘ loose⟩
  | delete {t t' : Tree} {id : NodeId} {r : Except SurgeryError NodeId} {loose : Multiset NodeId}
      (hid : t.Reaches t.root id) (hrun : (delete id).run.run t = (r, t')) :
    Step ⟨t, loose⟩ ⟨t', outcome r (t.elementAt id ::ₘ loose) loose⟩
  | replace {t t' : Tree} {old new : NodeId} {r : Except SurgeryError Unit}
      {loose : Multiset NodeId} (hold : t.Reaches t.root old)
      (hrun : (replace old new).run.run t = (r, t')) :
    Step ⟨t, new ::ₘ loose⟩ ⟨t', outcome r (t.elementAt old ::ₘ loose) (new ::ₘ loose)⟩
  | insertAfter {t t' : Tree} {cell node : NodeId} {r : Except SurgeryError NodeId}
      {loose : Multiset NodeId} (hcell : t.Reaches t.root cell)
      (hrun : (insertAfter cell node).run.run t = (r, t')) :
    Step ⟨t, node ::ₘ loose⟩ ⟨t', outcome r loose (node ::ₘ loose)⟩
  | insertBefore {t t' : Tree} {cell node : NodeId} {r : Except SurgeryError NodeId}
      {loose : Multiset NodeId} (hcell : t.Reaches t.root cell)
      (hrun : (insertBefore cell node).run.run t = (r, t')) :
    Step ⟨t, node ::ₘ loose⟩ ⟨t', outcome r loose (node ::ₘ loose)⟩
  | rename {t : Tree} {loose : Multiset NodeId} (id : NodeId) (name : String) :
    Step ⟨t, loose⟩ ⟨t.rename id name, loose⟩
  | setText {t : Tree} {loose : Multiset NodeId} (id : NodeId) (text : String) :
    Step ⟨t, loose⟩ ⟨t.setText id text, loose⟩

/-- The formula and the loose nodes form a forest, and the formula is a chain. -/
structure InOrder (s : Session) : Prop where
  forest : s.tree.Forest (s.tree.root ::ₘ s.loose)
  isSequence_root : s.tree.isSequence s.tree.root = true

variable {s s' s'' : Session}

theorem InOrder.root_lt (h : s.InOrder) : s.tree.root < s.tree.size :=
  h.forest.lt_size (Multiset.mem_cons_self _ _)

/-- No operation changes what is at a position into something of another kind, or moves the root. -/
theorem Step.alters (hstep : s.Step s') (h : s.InOrder) :
    ∃ changed, s.tree.Alters s'.tree changed := by
  cases hstep with
  | alloc hproper hrun => exact ⟨[], (grows_alloc _ _).alters hrun⟩
  | chain hheads hrun => exact ⟨[], (grows_chain _ _).alters hrun⟩
  | graft hsource hrun => exact ⟨[], (grows_graft _ _).alters hrun⟩
  | deepCopy hid hrun => exact ⟨[], (grows_deepCopy _).alters hrun⟩
  | delete hid hrun => exact ⟨_, alters_delete hrun⟩
  | replace hold hrun =>
    exact alters_replace (h.forest.detached (Multiset.mem_cons_self _ _)) hrun
  | insertAfter hcell hrun => exact ⟨_, alters_insertAfter hrun⟩
  | insertBefore hcell hrun => exact ⟨_, alters_insertBefore hrun⟩
  | rename id name => exact ⟨_, alters_rename id name⟩
  | setText id text => exact ⟨_, alters_setText id text⟩

/-- A program that builds or copies leaves one more loose node beside the formula. -/
theorem forest_of_lays {t t' : Tree} {x : StateM Tree NodeId} {id : NodeId}
    {loose : Multiset NodeId} {chains : List Bool}
    (h : ∃ id t', x.run t = (id, t') ∧ t.Lays t' (t.root ::ₘ loose) [id] chains)
    (hrun : x.run t = (id, t')) : t'.Forest (t.root ::ₘ id ::ₘ loose) := by
  obtain ⟨id', t₁, hrun', hlays⟩ := h
  obtain ⟨rfl, rfl⟩ := Prod.mk.inj (hrun.symm.trans hrun')
  rw [Multiset.cons_swap]
  exact hlays.forest_cons

theorem Step.forest (hstep : s.Step s') (h : s.InOrder) :
    s'.tree.Forest (s.tree.root ::ₘ s'.loose) := by
  obtain ⟨hforest, hroot⟩ := h
  cases hstep with
  | alloc hproper hrun =>
    rw [← Multiset.add_cons] at hforest
    rw [run_alloc_eq] at hrun
    obtain ⟨rfl, rfl⟩ := Prod.mk.inj hrun
    rw [Multiset.cons_swap]
    exact hforest.alloc hproper _
  | chain hheads hrun =>
    rw [← Multiset.add_cons] at hforest
    exact forest_of_lays (hforest.run_chain _ hheads) hrun
  | graft hsource hrun => exact forest_of_lays (gives_graft _ hsource _ _ hforest) hrun
  | deepCopy hid hrun => exact forest_of_lays (hforest.run_deepCopy hid) hrun
  | delete hid hrun => exact hforest.delete hid hrun
  | replace hold hrun => exact hforest.replace hroot hold hrun
  | insertAfter hcell hrun => exact hforest.insertAfter hcell hrun
  | insertBefore hcell hrun => exact hforest.insertBefore hcell hrun
  | rename id name => exact hforest.of_sameLinks (sameLinks_rename id name)
  | setText id text => exact hforest.of_sameLinks (sameLinks_setText id text)

/-- Every operation keeps the formula and the loose nodes in order. -/
theorem Step.inOrder (hstep : s.Step s') (h : s.InOrder) : s'.InOrder := by
  obtain ⟨changed, halters⟩ := hstep.alters h
  refine ⟨?_, ?_⟩
  · rw [halters.root_eq]
    exact hstep.forest h
  · rw [halters.root_eq, halters.isSequence_eq h.root_lt]
    exact h.isSequence_root

/-- A run keeps the order, the root, and the kind and the span of everything that is there. -/
theorem run_inOrder (hrun : Relation.ReflTransGen Step s s') (h : s.InOrder) :
    s'.InOrder ∧ ∃ changed, s.tree.Alters s'.tree changed := by
  induction hrun with
  | refl => exact ⟨h, [], Alters.refl _ []⟩
  | tail hrun hstep ih =>
    obtain ⟨horder, changed, halters⟩ := ih
    obtain ⟨changed', halters'⟩ := hstep.alters horder
    refine ⟨hstep.inOrder horder, changed ++ changed', ?_⟩
    exact (halters.mono (List.subset_append_left _ _)).trans
      (halters'.mono (List.subset_append_right _ _))

theorem inOrder_of_initial {start : Tree} (h : start.Initial) : InOrder ⟨start, 0⟩ :=
  ⟨h.forest.1, h.forest.2⟩

/-- Whatever is done in a session, in whatever order: the root stays, the formula is a chain in
which every node is reached on one path only and knows what it hangs under, loose nodes stand apart
from it, and no position that was given out gets a node of another kind or another span. -/
theorem session_keeps_order {start : Tree} (hstart : start.Initial)
    (hbefore : Relation.ReflTransGen Step ⟨start, 0⟩ s)
    (hafter : Relation.ReflTransGen Step s s') :
    s'.tree.root = start.root ∧ s'.tree.Sound ∧ (∀ i ∈ s'.loose, s'.tree.Detached i) ∧
      s.tree.size ≤ s'.tree.size ∧
      ∀ i < s.tree.size, s'.tree.kind i = s.tree.kind i ∧ s'.tree.span i = s.tree.span i := by
  obtain ⟨horder, changed, halters⟩ := run_inOrder hbefore (inOrder_of_initial hstart)
  obtain ⟨⟨hforest, hroot⟩, changed', halters'⟩ := run_inOrder hafter horder
  refine ⟨halters'.root_eq.trans halters.root_eq,
    ⟨hforest.linked _ (Multiset.mem_cons_self _ _), hroot⟩, fun i hi => hforest.detached hi,
    halters'.size_le, fun i hi => ⟨halters'.kind_eq i hi, halters'.span_eq i hi⟩⟩

/-- The blank formula with a literal after its empty element. -/
def withLiteral : Tree where
  slots := #[⟨.empty, some 1, .point 0⟩, ⟨.sequence 0 (some 3), none, .point 0⟩,
    ⟨.literal "a", some 3, .point 0⟩, ⟨.sequence 2 none, some 1, .point 0⟩]
  root := 1

/-- The empty element was taken out: the literal was pulled into the first cell, and the cell it was
in still refers to it. -/
def pulledLiteral : Tree where
  slots := #[⟨.empty, none, .point 0⟩, ⟨.sequence 2 none, none, .point 0⟩,
    ⟨.literal "a", some 1, .point 0⟩, ⟨.sequence 2 none, none, .point 0⟩]
  root := 1

/-- The empty element was put in again, before the literal. -/
def movedBack : Tree where
  slots := #[⟨.empty, some 1, .point 0⟩, ⟨.sequence 0 (some 4), none, .point 0⟩,
    ⟨.literal "a", some 4, .point 0⟩, ⟨.sequence 2 none, none, .point 0⟩,
    ⟨.sequence 2 none, some 1, .point 0⟩]
  root := 1

theorem session_keeps_order_moved :
    Relation.ReflTransGen Step ⟨blank, 0⟩ ⟨withLiteral, 0⟩ ∧
    Relation.ReflTransGen Step ⟨withLiteral, 0⟩ ⟨movedBack, 0⟩ ∧
    movedBack.elements 1 = [0, 2] ∧ movedBack.head 3 = some 2 ∧ movedBack.parent 2 = some 4 ∧
    movedBack.root = blank.root ∧ movedBack.Sound ∧
    ∀ i < 4, movedBack.kind i = withLiteral.kind i ∧ movedBack.span i = withLiteral.span i := by
  have hliteral : blank.ProperChildren (.literal "a") := trivial
  have hbuild : Step ⟨blank, ↑(Node.literal "a").children + 0⟩
      ⟨blank.grown (.literal "a") (Span.point 0), 2 ::ₘ 0⟩ := Step.alloc hliteral rfl
  have hput : Step ⟨blank.grown (.literal "a") (Span.point 0), 2 ::ₘ 0⟩
      ⟨withLiteral, outcome (.ok 3 : Except SurgeryError NodeId) 0 (2 ::ₘ 0)⟩ :=
    Step.insertAfter (Reaches.refl 1) rfl
  have hcut : Step ⟨withLiteral, 0⟩ ⟨pulledLiteral,
      outcome (.ok 1 : Except SurgeryError NodeId) (withLiteral.elementAt 1 ::ₘ 0) 0⟩ :=
    Step.delete (Reaches.refl 1) rfl
  have hback : Step ⟨pulledLiteral, 0 ::ₘ 0⟩
      ⟨movedBack, outcome (.ok 4 : Except SurgeryError NodeId) 0 (0 ::ₘ 0)⟩ :=
    Step.insertBefore (Reaches.refl 1) rfl
  have hbefore : Relation.ReflTransGen Step ⟨blank, 0⟩ ⟨withLiteral, 0⟩ :=
    (Relation.ReflTransGen.single hbuild).tail hput
  have hafter : Relation.ReflTransGen Step ⟨withLiteral, 0⟩ ⟨movedBack, 0⟩ :=
    (Relation.ReflTransGen.single hcut).tail hback
  obtain ⟨hroot, hsound, -, -, hsame⟩ := session_keeps_order Initial.blank hbefore hafter
  exact ⟨hbefore, hafter, by decide, by decide, by decide, hroot, hsound, hsame⟩

end Session

end Formulary
