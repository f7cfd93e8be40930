import Formulary.Proofs.Leftovers
import Formulary.Proofs.ListEditing
import Formulary.Proofs.Tidy
import Mathlib.Data.Multiset.Bind

/-!
# Trees side by side in one store

Whoever changes a formula also holds nodes that are not in it: what was just built, and what was
just taken out. `Tree.Forest` says that the formula and these loose nodes stand side by side and
share nothing, and that the store is grounded. What adds to the store trades some of them for others:

* building takes up loose nodes and gives a new one (`Forest.alloc`, `Forest.run_chain`);
* copying gives a new one and takes nothing, whatever is copied (`gives_copyUpTo`,
  `Forest.run_deepCopy`).

A formula that was just made or read is a forest of one tree (`forest_blank`, `forest_parse`,
`forest_parseMath`).
-/

namespace Formulary

open Plan

theorem Node.chained_bare (node : Node) : node.bare.chained = node.chained := by
  cases node with
  | sequence head tail => cases tail <;> rfl
  | literal | empty | group | script => rfl
  | command | block => simp [bare, chained]

theorem Node.chained_atop {node : Node} {ids : List NodeId} (h : ids.length = node.children.length) :
    (node.atop ids).chained = node.chained := by
  rw [← chained_bare, bare_atop h, chained_bare]

namespace Tree

variable {rest : Multiset Part} {tops : Multiset NodeId} {ids : List NodeId} {zs : List Part}
  {node : Node} {id : NodeId} {t t' : Tree}

/-- Parts that stand side by side: each hangs under nothing, and no position is in two of them. -/
structure Stand (t : Tree) (xs : Multiset Part) : Prop where
  fits : ∀ x ∈ xs, x.Fits t none
  nodup : (xs.bind Part.ids).Nodup

theorem bind_coe (zs : List Part) : (zs : Multiset Part).bind Part.ids = (zs.map Part.ids).sum := by
  induction zs with
  | nil => rfl
  | cons z zs ih => rw [← Multiset.cons_coe, Multiset.cons_bind, ih, List.map_cons, List.sum_cons]

/-- Some parts are traded for others while the rest stands by. -/
theorem Stand.trade {gone come : Multiset Part} (h : t.Stand (gone + rest))
    (hcome : ∀ x ∈ come, x.Fits t' none)
    (htrades : t.Trades t' (gone.bind Part.ids) (come.bind Part.ids)) : t'.Stand (come + rest) := by
  have hn := h.nodup
  rw [Multiset.add_bind] at hn
  have hlt : ∀ i ∈ rest.bind Part.ids, i < t.size := by
    intro i hi
    obtain ⟨x, hx, hi⟩ := Multiset.mem_bind.mp hi
    exact (h.fits x (Multiset.mem_add.mpr (Or.inr hx))).lt_size i hi
  refine ⟨fun x hx => ?_, ?_⟩
  · rcases Multiset.mem_add.mp hx with hx | hx
    · exact hcome x hx
    · refine (h.fits x (Multiset.mem_add.mpr (Or.inr hx))).congr fun i hi => ?_
      have hi' : i ∈ rest.bind Part.ids := Multiset.mem_bind.mpr ⟨x, hx, hi⟩
      exact htrades.keeps.look_eq i (hlt i hi') fun hmem =>
        Multiset.disjoint_left.mp (Multiset.nodup_add.mp hn).2.2 hmem hi'
  · rw [Multiset.add_bind]
    exact (htrades.frame hn hlt).nodup

/-- The store is grounded, and at the given positions hang nodes under nothing, each properly linked
and none under another. -/
structure Forest (t : Tree) (tops : Multiset NodeId) : Prop where
  grounded : t.Grounded
  nodup : tops.Nodup
  linked : ∀ top ∈ tops, t.Linked top

theorem Forest.lt_size {top : NodeId} (h : t.Forest tops) (htop : top ∈ tops) :
    top < t.size := (h.linked top htop).lt_size

theorem Stand.ids_nodup {xs : Multiset Part} (h : t.Stand xs) : (xs.map Part.id).Nodup := by
  refine Multiset.nodup_of_le ?_ h.nodup
  clear h
  induction xs using Multiset.induction_on with
  | empty => simp
  | cons x xs ih =>
    rw [Multiset.map_cons, Multiset.cons_bind, ← Multiset.singleton_add]
    exact add_le_add (Multiset.singleton_le.mpr x.id_mem_ids) ih

theorem Stand.forest {xs : Multiset Part} (h : t.Stand xs) (hgrounded : t.Grounded) :
    t.Forest (xs.map Part.id) := by
  refine ⟨hgrounded, h.ids_nodup, fun top htop => ?_⟩
  obtain ⟨x, hx, rfl⟩ := Multiset.mem_map.mp htop
  refine (h.fits x hx).linked (Multiset.nodup_of_le ?_ h.nodup)
  obtain ⟨ys, rfl⟩ := Multiset.exists_cons_of_mem hx
  rw [Multiset.cons_bind]
  exact Multiset.le_add_right _ _

/-- What hangs under different nodes of a forest is different. -/
theorem Forest.exists_parts (h : t.Forest tops) :
    ∃ xs : Multiset Part, xs.map Part.id = tops ∧ t.Stand xs := by
  induction tops using Multiset.induction_on with
  | empty => exact ⟨0, rfl, by simp, by simp⟩
  | cons top tops ih =>
    obtain ⟨hnot, hn⟩ := Multiset.nodup_cons.mp h.nodup
    obtain ⟨xs, hids, hstand⟩ :=
      ih ⟨h.grounded, hn, fun i hi => h.linked i (Multiset.mem_cons_of_mem hi)⟩
    have htop := h.linked top (Multiset.mem_cons_self _ _)
    obtain ⟨x, rfl, hx, hnx⟩ := htop.exists_part
    refine ⟨x ::ₘ xs, by rw [Multiset.map_cons, hids], ?_, ?_⟩
    · intro y hy
      rcases Multiset.mem_cons.mp hy with rfl | hy
      · exact hx
      · exact hstand.fits y hy
    · rw [Multiset.cons_bind, Multiset.nodup_add]
      refine ⟨hnx, hstand.nodup, Multiset.disjoint_left.mpr fun {i} hi hmem => ?_⟩
      obtain ⟨y, hy, hi'⟩ := Multiset.mem_bind.mp hmem
      have hy' : y.id ∈ tops := hids ▸ Multiset.mem_map_of_mem Part.id hy
      have hne : x.id ≠ y.id := fun heq => hnot (heq ▸ hy')
      exact htop.apart (h.linked y.id (Multiset.mem_cons_of_mem hy')) hne (hx.reaches_iff.mpr hi)
        ((hstand.fits y hy).reaches_iff.mpr hi')

/-- The parts at some of the positions, in their order, and those at the others. -/
theorem Forest.split (h : t.Forest (↑ids + tops)) :
    ∃ (zs : List Part) (rest : Multiset Part), zs.map Part.id = ids ∧ rest.map Part.id = tops ∧
      t.Stand (↑zs + rest) := by
  classical
  obtain ⟨xs, hids, hstand⟩ := h.exists_parts
  have hsplit : ∃ (zs : List Part) (rest : Multiset Part), zs.map Part.id = ids ∧
      rest.map Part.id = tops ∧ xs = ↑zs + rest := by
    clear hstand h
    induction ids generalizing xs with
    | nil => exact ⟨[], xs, rfl, by simpa using hids, by simp⟩
    | cons i ids ih =>
      rw [← Multiset.cons_coe, Multiset.cons_add, ← Multiset.map_eq_cons] at hids
      obtain ⟨x, hx, rfl, hrest⟩ := hids
      obtain ⟨zs, rest, rfl, hrest', heq⟩ := ih _ hrest
      refine ⟨x :: zs, rest, rfl, hrest', ?_⟩
      rw [← Multiset.cons_erase hx, heq, ← Multiset.cons_coe, Multiset.cons_add]
  obtain ⟨zs, rest, hzs, hrest, rfl⟩ := hsplit
  exact ⟨zs, rest, hzs, hrest, hstand⟩

theorem Stand.fits_of_mem {z : Part} (h : t.Stand (↑zs + rest)) (hz : z ∈ zs) : z.Fits t none :=
  h.fits z (Multiset.mem_add.mpr (Or.inl (Multiset.mem_coe.mpr hz)))

theorem Stand.nodup_sum (h : t.Stand (↑zs + rest)) : (zs.map Part.ids).sum.Nodup := by
  have hn := h.nodup
  rw [Multiset.add_bind, bind_coe] at hn
  exact (Multiset.nodup_add.mp hn).1

/-- A store that became another, in which some parts were traded. -/
theorem Stand.forest_of_trade {ys : List Part} (h : t.Stand (↑zs + rest)) (hgrounded : t'.Grounded)
    (hcome : ∀ y ∈ ys, y.Fits t' none)
    (htrades : t.Trades t' (zs.map Part.ids).sum (ys.map Part.ids).sum) :
    t'.Forest (↑(ys.map Part.id) + rest.map Part.id) := by
  have hstand : t'.Stand (↑ys + rest) :=
    h.trade (fun y hy => hcome y (Multiset.mem_coe.mp hy)) (by rwa [bind_coe, bind_coe])
  have hforest := hstand.forest hgrounded
  rwa [Multiset.map_add, Multiset.map_coe] at hforest

/-! ## Building -/

/-- A new node takes up loose ones. -/
theorem Forest.alloc (h : t.Forest (↑node.children + tops)) (hproper : t.ProperChildren node)
    (span : Span) :
    (t.grown node span).Forest (t.size ::ₘ tops) := by
  obtain ⟨zs, rest, hzs, rfl, hstand⟩ := h.split
  have hloose : ∀ z ∈ zs, ∃ up, z.Fits t up := fun z hz => ⟨none, hstand.fits_of_mem hz⟩
  have hchained : zs.map Part.isChain = node.chained := by
    rw [← Part.Fits.map_isSequence hloose, hzs, properChildren_iff.mp hproper]
  obtain ⟨y, hid, rfl, rfl⟩ := Part.exists_over hzs hchained t.size
  obtain ⟨hy, htrades⟩ := Part.fits_grown hid hzs.symm hloose hstand.nodup_sum span
  have hgrounded := h.grounded.grown hproper (fun child hchild =>
    h.lt_size (Multiset.mem_add.mpr (Or.inl (Multiset.mem_coe.mpr hchild)))) span
  have hcome : ∀ z ∈ [y], z.Fits (t.grown y.node span) none := by
    rw [List.forall_mem_singleton]
    exact hy
  have hforest := hstand.forest_of_trade hgrounded hcome
    (by rwa [List.map_singleton, List.sum_singleton])
  rwa [List.map_singleton, hid, Multiset.coe_singleton, Multiset.singleton_add] at hforest

/-- A program only added to the store, and left loose nodes beside those that were there. For each
of them it is said whether it is a chain. -/
structure Lays (t t' : Tree) (tops : Multiset NodeId) (ids : List NodeId) (chains : List Bool) :
    Prop where
  alters : t.Alters t' []
  forest : t'.Forest (↑ids + tops)
  isSequence : ids.map t'.isSequence = chains

theorem coe_pair_add (i j : NodeId) (tops : Multiset NodeId) :
    (↑[i, j] + tops : Multiset NodeId) = i ::ₘ j ::ₘ tops := by
  rw [← Multiset.cons_coe, Multiset.cons_add, Multiset.coe_singleton, Multiset.singleton_add]

theorem Lays.isSequence_single {chain : Bool} (h : t.Lays t' tops [id] [chain]) :
    t'.isSequence id = chain :=
  List.singleton_inj.mp h.isSequence

theorem Lays.forest_cons {chains : List Bool} (h : t.Lays t' tops [id] chains) :
    t'.Forest (id ::ₘ tops) := h.forest

theorem Lays.trans {t'' : Tree} {ids' : List NodeId} {chains chains' : List Bool}
    (h : t.Lays t' tops ids chains) (h' : t'.Lays t'' (↑ids + tops) ids' chains') :
    t.Lays t'' tops (ids ++ ids') (chains ++ chains') where
  alters := h.alters.trans h'.alters
  forest := by
    rw [← Multiset.coe_add, add_comm (ids : Multiset NodeId), add_assoc]
    exact h'.forest
  isSequence := by
    rw [List.map_append, h'.isSequence, ← h.isSequence]
    congr 1
    refine List.map_congr_left fun i hi => h'.alters.isSequence_eq ?_
    exact h.forest.lt_size (Multiset.mem_add.mpr (Or.inl (Multiset.mem_coe.mpr hi)))

theorem Forest.lays_alloc (h : t'.Forest (↑node.children + tops)) (halters : t.Alters t' [])
    (hproper : t'.ProperChildren node) (span : Span) :
    t.Lays (t'.grown node span) tops [t'.size] [node.isSequence] where
  alters := halters.trans (alters_grown node span)
  forest := h.alloc hproper span
  isSequence := by rw [List.map_singleton, Tree.isSequence, node_grown_size]

/-- A chain takes up its elements. -/
theorem Forest.run_chain {elements : List NodeId} (place : Span) (h : t.Forest (↑elements + tops))
    (hheads : ∀ e ∈ elements, t.isSequence e = false) :
    ∃ first t', (chain place elements).run t = (first, t') ∧ t.Lays t' tops [first] [true] := by
  induction elements generalizing tops with
  | nil =>
    have htrivial : t.ProperChildren .empty := trivial
    have hempty := Forest.lays_alloc h (Alters.refl t []) htrivial place
    have hproper : (t.grown .empty place).ProperChildren (.sequence t.size none) :=
      ⟨hempty.isSequence_single, by simp⟩
    exact ⟨_, _, rfl, Forest.lays_alloc hempty.forest hempty.alters hproper place⟩
  | cons head rest ih =>
    rw [List.forall_mem_cons] at hheads
    cases rest with
    | nil =>
      have hproper : t.ProperChildren (.sequence head none) := ⟨hheads.1, by simp⟩
      exact ⟨_, _, rfl, Forest.lays_alloc h (Alters.refl t []) hproper (t.span head)⟩
    | cons second rest =>
      have hlt : head < t.size := h.lt_size (by simp)
      -- The first element stands by while the chain of the others is built.
      have hrest : t.Forest (↑(second :: rest) + head ::ₘ tops) := by
        rwa [← Multiset.cons_coe, Multiset.cons_add, ← Multiset.add_cons] at h
      obtain ⟨next, t₁, hrun, hlays⟩ := ih hrest hheads.2
      have hproper : t₁.ProperChildren (.sequence head (some next)) := by
        refine ⟨(hlays.alters.isSequence_eq hlt).trans hheads.1, ?_⟩
        rintro _ ⟨⟩
        exact hlays.isSequence_single
      have hforest : t₁.Forest (↑[head, next] + tops) := by
        rw [coe_pair_add, Multiset.cons_swap]
        exact hlays.forest_cons
      refine ⟨_, _, ?_, Forest.lays_alloc hforest hlays.alters hproper
        ((t₁.span head).union (t₁.span next))⟩
      rw [chain, run_bind_of_run hrun]
      · rfl
      · simp

/-! ## Copying and laying out -/

/-- A program that leaves one more loose node, whatever stands there. -/
def Gives (x : StateM Tree NodeId) (chain : Bool) : Prop :=
  ∀ (t : Tree) (tops : Multiset NodeId), t.Forest tops →
    ∃ id t', x.run t = (id, t') ∧ t.Lays t' tops [id] [chain]

/-- A program that leaves more loose nodes. -/
def GivesAll (x : StateM Tree (List NodeId)) (chains : List Bool) : Prop :=
  ∀ (t : Tree) (tops : Multiset NodeId), t.Forest tops →
    ∃ ids t', x.run t = (ids, t') ∧ t.Lays t' tops ids chains

theorem givesAll_mapM {f : NodeId → StateM Tree NodeId} {chain : NodeId → Bool} {is : List NodeId}
    (hf : ∀ i ∈ is, Gives (f i) (chain i)) : GivesAll (is.mapM f) (is.map chain) := by
  induction is with
  | nil =>
    intro t tops h
    exact ⟨[], t, rfl, Alters.refl t [], by simpa using h, rfl⟩
  | cons i is ih =>
    intro t tops h
    rw [List.forall_mem_cons] at hf
    obtain ⟨id, t₁, hrun, hlays⟩ := hf.1 t tops h
    obtain ⟨ids, t₂, hrun', hlays'⟩ := ih hf.2 t₁ _ hlays.forest
    refine ⟨id :: ids, t₂, ?_, hlays.trans hlays'⟩
    rw [List.mapM_cons, run_bind_of_run hrun, run_bind_of_run hrun']
    rfl

/-- A copy of what has an end is loose, whatever else refers to what it is a copy of. -/
theorem gives_copyUpTo {source : Tree} {height : Nat} (place : Option Span)
    (h : source.Ends height id) :
    Gives (source.copyUpTo place height id) (source.isSequence id) := by
  induction height generalizing id with
  | zero => exact absurd (h.length_lt [] id rfl) (Nat.not_lt_zero _)
  | succ height ih =>
    intro t tops ht
    have hperm := (source.node id).copyOrder_perm (source.node id).children
    obtain ⟨ids, t₁, hrun, hlays⟩ := givesAll_mapM
      (fun child hmem => ih (h.child (hperm.mem_iff.mp hmem))) t tops ht
    have hlength : ((source.node id).copyOrder ids).length = (source.node id).children.length := by
      have heq := congrArg List.length hlays.isSequence
      rw [List.length_map, List.length_map, hperm.length_eq] at heq
      rw [(Node.copyOrder_perm _ _).length_eq, heq]
    have hproper : t₁.ProperChildren ((source.node id).atop ((source.node id).copyOrder ids)) := by
      rw [properChildren_iff, Node.children_atop hlength, Node.chained_atop hlength,
        ← properChildren_iff.mp (h.proper id (Reaches.refl id)), Node.map_copyOrder,
        hlays.isSequence, ← Node.map_copyOrder, Node.copyOrder_copyOrder]
    have hforest : t₁.Forest
        (↑((source.node id).atop ((source.node id).copyOrder ids)).children + tops) := by
      rw [Node.children_atop hlength, Multiset.coe_eq_coe.mpr (Node.copyOrder_perm _ ids)]
      exact hlays.forest
    have hall := Forest.lays_alloc hforest hlays.alters hproper (place.getD (source.span id))
    rw [Node.isSequence_atop] at hall
    refine ⟨_, _, ?_, hall⟩
    rw [copyUpTo_succ, run_bind_of_run hrun]
    rfl

theorem gives_graft {source : Tree} (place : Option Span)
    (h : source.Ends source.size source.root) :
    Gives (source.graft place) (source.isSequence source.root) := gives_copyUpTo place h

mutual

theorem gives_layElement : ∀ e : Element, Gives (layElement e) false
  | .literal text span => by
    intro t tops h
    have hliteral : t.ProperChildren (.literal text) := trivial
    rw [layElement]
    exact ⟨_, _, rfl, Forest.lays_alloc (by simpa [Node.children] using h) (Alters.refl t [])
      hliteral span⟩
  | .group fence inner span => by
    intro t tops h
    obtain ⟨ids, t₁, hrun, hlays, hids⟩ := gives_layElements inner t tops h
    obtain ⟨first, t₂, hrun', hlays'⟩ :=
      hlays.forest.run_chain ((span.drop 1).take 0) hids
    have hgroup : t₂.ProperChildren (.group fence first) := hlays'.isSequence_single
    have halters := hlays.alters.trans hlays'.alters
    refine ⟨_, _, ?_, Forest.lays_alloc hlays'.forest halters hgroup span⟩
    rw [layElement, run_bind_of_run hrun, run_bind_of_run hrun']
    rfl
  | .script marker operand span => by
    intro t tops h
    obtain ⟨id, t₁, hrun, hlays⟩ := gives_layElement operand t tops h
    have hscript : t₁.ProperChildren (.script marker id) := hlays.isSequence_single
    refine ⟨_, _, ?_, Forest.lays_alloc hlays.forest hlays.alters hscript span⟩
    rw [layElement, run_bind_of_run hrun]
    rfl
  | .command name parameters span => by
    intro t tops h
    obtain ⟨ids, t₁, hrun, hlays, hids⟩ := gives_layElements parameters t tops h
    have hcommand : t₁.ProperChildren (.command name ids) := hids
    refine ⟨_, _, ?_, Forest.lays_alloc hlays.forest hlays.alters hcommand span⟩
    rw [layElement, run_bind_of_run hrun]
    rfl

theorem gives_layElements : ∀ (es : List Element) (t : Tree) (tops : Multiset NodeId),
    t.Forest tops → ∃ ids t', (layElements es).run t = (ids, t') ∧
      t.Lays t' tops ids (ids.map t'.isSequence) ∧ ∀ i ∈ ids, t'.isSequence i = false
  | [], t, tops, h => by
    refine ⟨[], t, ?_, ⟨Alters.refl t [], by simpa using h, rfl⟩, by simp⟩
    rw [layElements]
    rfl
  | e :: es, t, tops, h => by
    obtain ⟨id, t₁, hrun, hlays⟩ := gives_layElement e t tops h
    obtain ⟨ids, t₂, hrun', hlays', hids⟩ := gives_layElements es t₁ _ hlays.forest
    have hlt : id < t₁.size := hlays.forest.lt_size (by simp)
    have hid : t₂.isSequence id = false :=
      (hlays'.alters.isSequence_eq hlt).trans hlays.isSequence_single
    refine ⟨id :: ids, t₂, ?_, ⟨hlays.alters.trans hlays'.alters, (hlays.trans hlays').forest, rfl⟩,
      List.forall_mem_cons.mpr ⟨hid, hids⟩⟩
    rw [layElements, run_bind_of_run hrun, run_bind_of_run hrun']
    rfl

end

/-! ## Where one may start -/

theorem forest_nil : (⟨#[], 0⟩ : Tree).Forest 0 := by
  have hchildren : ∀ i, ((⟨#[], 0⟩ : Tree).node i).children = [] := fun _ => rfl
  refine ⟨⟨fun i child hchild => ?_, fun _ => trivial, fun i path hpath => ?_⟩,
    Multiset.nodup_zero, by simp⟩
  · rw [hchildren] at hchild
    cases hchild
  · cases path with
    | nil => rfl
    | cons k path =>
      rw [follow, hchildren] at hpath
      cases hpath

/-- What a program builds in an empty store is a formula on its own. -/
theorem Gives.forest_build {program : StateM Tree NodeId} {chain : Bool}
    (h : Gives program chain) : (build program).Forest {(build program).root} ∧
      (build program).isSequence (build program).root = chain := by
  obtain ⟨root, t, hrun, hlays⟩ := h _ 0 forest_nil
  have hlinked : t.Linked root := hlays.forest.linked root (by simp)
  have hlook : t.look root = some (t.node root, none) := by
    rw [← hlinked.parent_top]
    exact look_of_lt hlinked.lt_size
  have hsame := look_build hrun hlook
  have hnode : ∀ i, (build program).node i = t.node i := by
    intro i
    rw [node_eq_look, hsame, ← node_eq_look]
  obtain ⟨x, rfl, hx, hn⟩ := hlinked.exists_part
  have hfits : x.Fits (build program) none := hx.congr fun i _ => hsame i
  rw [root_build hrun]
  refine ⟨⟨?_, Multiset.nodup_singleton _, ?_⟩, ?_⟩
  · refine hlays.forest.grounded.of_node_eq ?_ hnode
    rw [build, hrun, size_setParent]
    rfl
  · intro top htop
    rw [Multiset.mem_singleton.mp htop]
    exact hfits.linked hn
  · rw [isSequence, hnode]
    exact hlays.isSequence_single

/-- A copy within the store is loose, also one of what was left behind there. -/
theorem Forest.run_deepCopy (h : t.Forest tops) (hid : id < t.size) :
    ∃ copy t', (deepCopy id).run t = (copy, t') ∧ t.Lays t' tops [copy] [t.isSequence id] := by
  have hcopy : Gives (t.copy none id) (t.isSequence id) := gives_copyUpTo none (h.grounded.ends hid)
  obtain ⟨hextract, hsequence⟩ := hcopy.forest_build
  rw [← extract] at hextract hsequence
  have hends := (hextract.linked _ (Multiset.mem_singleton_self _)).ends
  rw [deepCopy, run_get_bind, ← hsequence]
  exact gives_graft none hends t tops h

theorem forest_ofElements (es : List Element) : (ofElements es).Forest {(ofElements es).root} ∧
    (ofElements es).isSequence (ofElements es).root = true := by
  refine Gives.forest_build fun t tops h => ?_
  obtain ⟨ids, t₁, hrun, hlays, hids⟩ := gives_layElements es t tops h
  obtain ⟨first, t₂, hrun', hlays'⟩ := hlays.forest.run_chain (Span.point 0) hids
  refine ⟨first, t₂, ?_, hlays.alters.trans hlays'.alters, hlays'.forest, hlays'.isSequence⟩
  rw [run_bind_of_run hrun, hrun']

theorem forest_blank : blank.Forest {blank.root} ∧ blank.isSequence blank.root = true := by
  refine Gives.forest_build fun t tops h => ?_
  exact Forest.run_chain (Span.point 0) (by simpa using h) (by simp)

/-- A formula that is read is one tree. -/
theorem forest_parse {text : String} (h : parse text = .ok t) :
    t.Forest {t.root} ∧ t.isSequence t.root = true := by
  rw [parse] at h
  cases hread : Element.readAll text with
  | error e =>
    rw [hread] at h
    cases h
  | ok es =>
    rw [hread] at h
    obtain rfl := Except.ok.inj h
    exact forest_ofElements es

theorem forest_parseMath {text : String} (h : parseMath text = .ok t) :
    t.Forest {t.root} ∧ t.isSequence t.root = true := by
  obtain ⟨fs, hdepicts, -⟩ := parseMath_sound h
  obtain ⟨cell, p, rest, hroot, hfits, hn, -⟩ := hdepicts.exists_part
  obtain ⟨t₀, hparse, hrun⟩ := exists_parse_of_parseMath h
  have hgrounded := (forest_parse hparse).1.grounded.resolveBlocks hrun
  refine ⟨⟨hgrounded, Multiset.nodup_singleton _, fun top htop => ?_⟩, ?_⟩
  · rw [Multiset.mem_singleton.mp htop, hroot]
    exact hfits.linked hn
  · rw [hroot]
    exact hfits.isSequence

end Tree

end Formulary
