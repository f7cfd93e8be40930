import Formulary.Proofs.Agreement
import Formulary.Proofs.Footprint
import Mathlib.Data.List.Pairwise

/-!
# Copies are faithful and stand alone

What a copy is, said of the store alone and without plans. The same paths lead down from the copy as
from the original (`Tree.Mirrors`), and at their ends stand nodes that are the same but for the
positions of their children. The copy takes exactly the positions that were given out for it,
each of them once, and all that was in the store before is as it was (`Tree.IsCopy`).

A chain is copied from its end and everything else from its first child on. The copies of children
take adjoining stretches of the store either way, which is all that `Tree.Replicas` asks for
(`Replicas.copyOrder`).
-/

namespace Formulary

namespace Tree

variable {top id copy : NodeId} {t t' source : Tree} {place : Option Span}

/-- A store that only grew: all slots that were there are as they were. -/
structure Extends (t t' : Tree) : Prop where
  size_le : t.size ≤ t'.size
  root_eq : t'.root = t.root
  slot_eq : ∀ i < t.size, t'.slot i = t.slot i

theorem Extends.refl (t : Tree) : t.Extends t := ⟨Nat.le_refl _, rfl, fun _ _ => rfl⟩

theorem Extends.trans {t'' : Tree} (h : t.Extends t') (h' : t'.Extends t'') : t.Extends t'' :=
  ⟨h.size_le.trans h'.size_le, h'.root_eq.trans h.root_eq, fun i hi =>
    (h'.slot_eq i (hi.trans_le h.size_le)).trans (h.slot_eq i hi)⟩

/-- A node that adopts only what is new leaves the rest alone. -/
theorem Extends.grown {node : Node} (h : t.Extends t')
    (hnew : ∀ child ∈ node.children, t.size ≤ child ∧ child < t'.size) (span : Span) :
    t.Extends (t'.grown node span) := by
  refine ⟨h.size_le.trans (by simp), by rw [root_grown, h.root_eq], fun i hi => ?_⟩
  have hold : i ≠ t'.size := (hi.trans_le h.size_le).ne
  have hnot : i ∉ node.children := fun hmem => Nat.not_le_of_lt hi (hnew i hmem).1
  rw [slot_grown (fun child hchild => (hnew child hchild).2), if_neg hold, if_neg hnot, h.slot_eq i hi]

/-! ## Mirrors -/

/-- A path depends on nothing but the nodes it may pass. -/
theorem follow_congr (h : ∀ j, t.Reaches top j → t'.node j = t.node j) (path : List Nat) :
    t'.follow top path = t.follow top path := by
  induction path generalizing top with
  | nil => rfl
  | cons k path ih =>
    rw [follow, follow, h top (Reaches.refl top)]
    rcases hchild : (t.node top).children[k]? with _ | child
    · rfl
    · exact ih fun j hj => h j ((reaches_child (List.mem_of_getElem? hchild)).trans hj)

/-- What stands at the end of a path: a node without positions, and the text it stands for or another
that is given. -/
def shown (t : Tree) (place : Option Span) (top : NodeId) (path : List Nat) : Option (Node × Span) :=
  (t.follow top path).map fun i => ((t.node i).bare, place.getD (t.span i))

/-- What hangs under a node is the same, path by path, as what hangs under a node of another store;
and it is linked as it should be: everything hangs under the one node it is a child of. -/
structure Mirrors (source : Tree) (place : Option Span) (t : Tree) (id copy : NodeId) : Prop where
  same : ∀ path, t.shown none copy path = source.shown place id path
  parent : ∀ j, t.Reaches copy j → ∀ child ∈ (t.node j).children, t.parent child = some j
  one_path : ∀ path path' j, t.follow copy path = some j → t.follow copy path' = some j →
    path = path'

/-- A mirror stays one, whatever it hangs under. -/
theorem Mirrors.congr (h : Mirrors source place t id copy)
    (hslot : ∀ j, t.Reaches copy j → ∃ up, t'.slot j = { t.slot j with parent := up } ∧
      (j ≠ copy → up = t.parent j)) : Mirrors source place t' id copy := by
  have hnode : ∀ j, t.Reaches copy j → t'.node j = t.node j := by
    intro j hj
    obtain ⟨up, heq, -⟩ := hslot j hj
    rw [node, heq, node]
  have hfollow : ∀ path, t'.follow copy path = t.follow copy path := follow_congr hnode
  refine ⟨fun path => ?_, fun j hj child hchild => ?_, fun path path' j => ?_⟩
  · rw [← h.same, shown, shown, hfollow]
    rcases hpath : t.follow copy path with _ | j
    · rfl
    · obtain ⟨up, heq, -⟩ := hslot j ⟨path, hpath⟩
      simp only [Option.map_some, hnode j ⟨path, hpath⟩, span, heq]
  · obtain ⟨path, hpath⟩ := hj
    rw [hfollow] at hpath
    have hj : t.Reaches copy j := ⟨path, hpath⟩
    rw [hnode j hj] at hchild
    obtain ⟨k, hk⟩ := List.getElem?_of_mem hchild
    have hdown : t.follow copy (path ++ [k]) = some child := by
      rw [follow_append, hpath, Option.bind_some, follow, hk]
      rfl
    -- No path comes back to where it starts, so this is not the node that may hang elsewhere.
    have hne : child ≠ copy := by
      rintro rfl
      have hnil := h.one_path (path ++ [k]) [] _ hdown rfl
      simp at hnil
    obtain ⟨up, heq, hup⟩ := hslot child ⟨_, hdown⟩
    rw [Tree.parent, heq]
    exact (hup hne).trans (h.parent j hj child hchild)
  · rw [hfollow, hfollow]
    exact h.one_path path path' j

theorem shown_cons (top : NodeId) (k : Nat) (path : List Nat) :
    t.shown place top (k :: path) =
      (t.node top).children[k]?.bind fun child => t.shown place child path := by
  rw [shown, follow, Option.map_bind]
  rfl

theorem reaches_iff_child {j : NodeId} :
    t.Reaches top j ↔ j = top ∨ ∃ child ∈ (t.node top).children, t.Reaches child j := by
  constructor
  · rintro ⟨_ | ⟨k, path⟩, hpath⟩
    · exact Or.inl (Option.some.inj hpath).symm
    · rw [follow] at hpath
      obtain ⟨child, hk, hdown⟩ := Option.bind_eq_some_iff.mp hpath
      exact Or.inr ⟨child, List.mem_of_getElem? hk, path, hdown⟩
  · rintro (rfl | ⟨child, hchild, hdown⟩)
    · exact Reaches.refl j
    · exact (reaches_child hchild).trans hdown

/-- Paths from a node are apart where those from its children are: none comes back to the node, and
two of them that meet go through the same child. -/
theorem one_path_of_children
    (heach : ∀ c ∈ (t.node top).children, ∀ path path' j, t.follow c path = some j →
      t.follow c path' = some j → path = path')
    (hapart : (t.node top).children.Pairwise fun c c' => ∀ j, t.Reaches c j → ¬t.Reaches c' j)
    (hout : ∀ c ∈ (t.node top).children, ¬t.Reaches c top) {path path' : List Nat} {j : NodeId}
    (hpath : t.follow top path = some j) (hpath' : t.follow top path' = some j) : path = path' := by
  have hback : ∀ {k path}, t.follow top (k :: path) ≠ some top := by
    intro k path hdown
    obtain ⟨c, hk, hdown⟩ := Option.bind_eq_some_iff.mp hdown
    exact hout c (List.mem_of_getElem? hk) ⟨path, hdown⟩
  cases path with
  | nil =>
    obtain rfl := Option.some.inj hpath
    cases path' with
    | nil => rfl
    | cons k path' => exact absurd hpath' hback
  | cons k path =>
    cases path' with
    | nil =>
      obtain rfl := Option.some.inj hpath'
      exact absurd hpath hback
    | cons k' path' =>
      obtain ⟨c, hk, hdown⟩ := Option.bind_eq_some_iff.mp hpath
      obtain ⟨c', hk', hdown'⟩ := Option.bind_eq_some_iff.mp hpath'
      obtain ⟨hlt, hc⟩ := List.getElem?_eq_some_iff.mp hk
      obtain ⟨hlt', hc'⟩ := List.getElem?_eq_some_iff.mp hk'
      have hpairs := List.pairwise_iff_getElem.mp hapart
      rcases Nat.lt_trichotomy k k' with hkk | rfl | hkk
      · exact absurd ⟨path', hc' ▸ hdown'⟩ (hpairs k k' hlt hlt' hkk j ⟨path, hc ▸ hdown⟩)
      · obtain rfl := Option.some.inj (hk.symm.trans hk')
        rw [heach c (List.mem_of_getElem? hk) path path' j hdown hdown']
      · exact absurd ⟨path, hc ▸ hdown⟩ (hpairs k' k hlt' hlt hkk j ⟨path', hc' ▸ hdown'⟩)

/-- A node mirrors another one if its children do, one by one and apart from each other. -/
theorem Mirrors.of_children (hbare : (t.node top).bare = (source.node id).bare)
    (hspan : t.span top = place.getD (source.span id))
    (heach : List.Forall₂ (Mirrors source place t) (source.node id).children (t.node top).children)
    (hapart : (t.node top).children.Pairwise fun c c' => ∀ j, t.Reaches c j → ¬t.Reaches c' j)
    (hparent : ∀ c ∈ (t.node top).children, t.parent c = some top)
    (hout : ∀ c ∈ (t.node top).children, ¬t.Reaches c top) : Mirrors source place t id top := by
  obtain ⟨hlength, heach⟩ := List.forall₂_iff_get.mp heach
  have hmirrors : ∀ {k : Nat} {c}, (t.node top).children[k]? = some c →
      ∃ i, (source.node id).children[k]? = some i ∧ Mirrors source place t i c := by
    intro k c hk
    obtain ⟨hlt, rfl⟩ := List.getElem?_eq_some_iff.mp hk
    exact ⟨_, List.getElem?_eq_getElem (hlength ▸ hlt), heach k (hlength ▸ hlt) hlt⟩
  refine ⟨fun path => ?_, fun j hj child hchild => ?_, fun path path' j hpath hpath' => ?_⟩
  · cases path with
    | nil => simp [shown, follow, hbare, hspan]
    | cons k path =>
      rw [shown_cons, shown_cons]
      rcases hk : (t.node top).children[k]? with _ | c
      · have hnone : (source.node id).children[k]? = none := by
          rw [List.getElem?_eq_none_iff] at hk ⊢
          exact hlength ▸ hk
        rw [hnone]
        rfl
      · obtain ⟨i, hi, hc⟩ := hmirrors hk
        rw [hi]
        exact hc.same path
  · rcases reaches_iff_child.mp hj with rfl | ⟨c, hc, hdown⟩
    · exact hparent child hchild
    · obtain ⟨k, hk⟩ := List.getElem?_of_mem hc
      obtain ⟨i, -, hmirror⟩ := hmirrors hk
      exact hmirror.parent j hdown child hchild
  · refine one_path_of_children (fun c hc => ?_) hapart hout hpath hpath'
    obtain ⟨k, hk⟩ := List.getElem?_of_mem hc
    obtain ⟨i, -, hmirror⟩ := hmirrors hk
    exact hmirror.one_path

/-- Copies of some nodes side by side, which take a stretch of the store between them. -/
structure Replicas (source : Tree) (place : Option Span) (t : Tree) (ids : List NodeId) (lo hi : Nat)
    (copies : List NodeId) : Prop where
  each : List.Forall₂ (Mirrors source place t) ids copies
  apart : copies.Pairwise fun c c' => ∀ j, t.Reaches c j → ¬t.Reaches c' j
  reaches_iff : ∀ j : Nat, (∃ c ∈ copies, t.Reaches c j) ↔ lo ≤ j ∧ j < hi

namespace Replicas

variable {ids ids' copies copies' : List NodeId} {lo mid hi : Nat}

theorem nil (source : Tree) (place : Option Span) (t : Tree) (lo : Nat) :
    Replicas source place t [] lo lo [] :=
  ⟨.nil, .nil, fun j => by simp⟩

theorem lt (h : Replicas source place t ids lo hi copies) {c : NodeId} (hc : c ∈ copies) :
    lo ≤ c ∧ c < hi :=
  (h.reaches_iff c).mp ⟨c, hc, Reaches.refl c⟩

/-- Two copies are apart, whichever comes first. -/
theorem not_reaches (h : Replicas source place t ids lo hi copies) {c c' : NodeId} (hc : c ∈ copies)
    (hc' : c' ∈ copies) (hne : c ≠ c') : ¬t.Reaches c c' := by
  intro hdown
  have hsymm : Std.Symm fun c c' => ∀ j, t.Reaches c j → ¬t.Reaches c' j :=
    ⟨fun _ _ hapart j hj hj' => hapart j hj' hj⟩
  exact h.apart.forall hc hc' hne c' hdown (Reaches.refl c')

/-- Copies stay copies, whatever they hang under. -/
theorem congr (h : Replicas source place t ids lo hi copies)
    (hslot : ∀ j : Nat, lo ≤ j → j < hi → ∃ up, t'.slot j = { t.slot j with parent := up } ∧
      (j ∉ copies → up = t.parent j)) : Replicas source place t' ids lo hi copies := by
  have hdown : ∀ c ∈ copies, ∀ j, t.Reaches c j → ∃ up, t'.slot j = { t.slot j with parent := up } ∧
      (j ≠ c → up = t.parent j) := by
    intro c hc j hj
    obtain ⟨hlo, hhi⟩ := (h.reaches_iff j).mp ⟨c, hc, hj⟩
    obtain ⟨up, heq, hup⟩ := hslot j hlo hhi
    exact ⟨up, heq, fun hne => hup fun hmem => h.not_reaches hc hmem hne.symm hj⟩
  have hreaches : ∀ c ∈ copies, ∀ j, t'.Reaches c j ↔ t.Reaches c j := by
    intro c hc j
    have hfollow : ∀ path, t'.follow c path = t.follow c path := follow_congr fun j hj => by
      obtain ⟨up, heq, -⟩ := hdown c hc j hj
      rw [node, heq, node]
    simp only [Reaches, hfollow]
  refine ⟨?_, ?_, fun j => ?_⟩
  · have heach := h.each
    rw [List.forall₂_iff_get] at heach ⊢
    exact ⟨heach.1, fun i hi hi' => (heach.2 i hi hi').congr (hdown _ (List.get_mem _ _))⟩
  · refine h.apart.imp_of_mem fun hc hc' hapart j => ?_
    rw [hreaches _ hc, hreaches _ hc']
    exact hapart j
  · rw [← h.reaches_iff]
    exact exists_congr fun c => and_congr_right fun hc => hreaches c hc j

theorem of_extends (h : Replicas source place t ids lo t.size copies) (hextends : t.Extends t') :
    Replicas source place t' ids lo t.size copies :=
  h.congr fun j _ hj => ⟨t.parent j, hextends.slot_eq j hj, fun _ => rfl⟩

/-- The copies of two lists, the first ones before the others. -/
theorem append (h : Replicas source place t ids lo mid copies) (hlo : lo ≤ mid)
    (h' : Replicas source place t ids' mid hi copies') (hhi : mid ≤ hi) :
    Replicas source place t (ids ++ ids') lo hi (copies ++ copies') := by
  refine ⟨List.rel_append h.each h'.each, ?_, fun j => ?_⟩
  · refine List.pairwise_append.mpr ⟨h.apart, h'.apart, fun c hc c' hc' j hj hj' => ?_⟩
    have hj := (h.reaches_iff j).mp ⟨c, hc, hj⟩
    have hj' := (h'.reaches_iff j).mp ⟨c', hc', hj'⟩
    omega
  · have hrange : lo ≤ j ∧ j < hi ↔ lo ≤ j ∧ j < mid ∨ mid ≤ j ∧ j < hi := by omega
    rw [hrange, ← h.reaches_iff, ← h'.reaches_iff]
    simp only [List.mem_append, or_and_right, exists_or]

/-- In which order copies were made does not matter. -/
theorem copyOrder (h : Replicas source place t ids lo hi copies) (node : Node) :
    Replicas source place t (node.copyOrder ids) lo hi (node.copyOrder copies) := by
  rw [Node.copyOrder, Node.copyOrder]
  split
  · refine ⟨List.forall₂_reverse_iff.mpr h.each, List.pairwise_reverse.mpr (h.apart.imp ?_), ?_⟩
    · exact fun hapart j hj hj' => hapart j hj' hj
    · simpa only [List.mem_reverse] using h.reaches_iff
  · exact h

end Replicas

/-! ## Copying -/

/-- A node is a copy, made of all that is new in a store: it is as the original, it stands alone, and
nothing else changed. -/
structure IsCopy (source : Tree) (place : Option Span) (id : NodeId) (t t' : Tree) (copy : NodeId) :
    Prop extends Mirrors source place t' id copy, t.Extends t' where
  parent_top : t'.parent copy = none
  reaches_iff : ∀ j : Nat, t'.Reaches copy j ↔ t.size ≤ j ∧ j < t'.size

theorem IsCopy.replicas (h : IsCopy source place id t t' copy) :
    Replicas source place t' [id] t.size t'.size [copy] :=
  ⟨.cons h.toMirrors .nil, List.pairwise_singleton _ _, fun j => by
    simpa using h.reaches_iff j⟩

/-- A node on top of the copies of its children is a copy. -/
theorem isCopy_grown {node : Node} (hextends : t.Extends t')
    (h : Replicas source place t' (source.node id).children t.size t'.size node.children)
    (hbare : node.bare = (source.node id).bare) :
    IsCopy source place id t (t'.grown node (place.getD (source.span id))) t'.size := by
  have hlt : ∀ child ∈ node.children, child < t'.size := fun child hchild => (h.lt hchild).2
  have hslot := slot_grown hlt (place.getD (source.span id))
  generalize hafter : t'.grown node (place.getD (source.span id)) = after at hslot
  have htop := hslot t'.size
  rw [if_pos rfl] at htop
  have hnode : after.node t'.size = node := congrArg Slot.node htop
  have hbelow : Replicas source place after (source.node id).children t.size t'.size
      node.children := by
    refine h.congr fun j _ hj => ?_
    rw [hslot, if_neg (Nat.ne_of_lt hj)]
    by_cases hmem : j ∈ node.children
    · exact ⟨some t'.size, by rw [if_pos hmem], fun hnot => absurd hmem hnot⟩
    · exact ⟨t'.parent j, by rw [if_neg hmem]; rfl, fun _ => rfl⟩
  have hmirrors : Mirrors source place after id t'.size := by
    apply Mirrors.of_children
    · rw [hnode, hbare]
    · exact congrArg Slot.span htop
    · rw [hnode]
      exact hbelow.each
    · rw [hnode]
      exact hbelow.apart
    · rw [hnode]
      intro c hc
      rw [parent, hslot, if_neg (Nat.ne_of_lt (hlt c hc)), if_pos hc]
    · rw [hnode]
      intro c hc hback
      exact Nat.lt_irrefl _ ((hbelow.reaches_iff t'.size).mp ⟨c, hc, hback⟩).2
  have hgrown : t.Extends after := by
    rw [← hafter]
    exact hextends.grown (fun child hchild => h.lt hchild) _
  refine ⟨hmirrors, hgrown, congrArg Slot.parent htop, fun j => ?_⟩
  have hdown := hbelow.reaches_iff j
  have hsize : after.size = t'.size + 1 := by rw [← hafter, size_grown]
  have hle := hextends.size_le
  have hrange : (j = t'.size ∨ t.size ≤ j ∧ j < t'.size) ↔ t.size ≤ j ∧ j < t'.size + 1 := by omega
  rw [reaches_iff_child, hnode, hdown, hsize]
  exact hrange

/-- Copies of some nodes, one after the other. -/
theorem exists_replicas {n : Nat}
    (hcopy : ∀ id, source.Shallow n id → ∀ t : Tree, ∃ (c : NodeId) (t' : Tree),
      (source.copyUpTo place n id).run t = (c, t') ∧ IsCopy source place id t t' c)
    {ids : List NodeId} (h : ∀ id ∈ ids, source.Shallow n id) (t : Tree) :
    ∃ (copies : List NodeId) (t' : Tree), (ids.mapM (source.copyUpTo place n)).run t = (copies, t') ∧
      t.Extends t' ∧ Replicas source place t' ids t.size t'.size copies := by
  induction ids generalizing t with
  | nil => exact ⟨[], t, rfl, Extends.refl t, Replicas.nil source place t t.size⟩
  | cons id ids ih =>
    obtain ⟨c, t₁, hrun, hc⟩ := hcopy id (h id List.mem_cons_self) t
    obtain ⟨cs, t₂, hrun', hextends, hcs⟩ := ih (fun i hi => h i (List.mem_cons_of_mem _ hi)) t₁
    refine ⟨c :: cs, t₂, ?_, hc.toExtends.trans hextends, ?_⟩
    · rw [List.mapM_cons, run_bind_of_run hrun, run_bind_of_run hrun']
      rfl
    · have hle := hc.size_le
      have hle' := hextends.size_le
      exact (hc.replicas.of_extends hextends).append hle hcs hle'

/-- A copy that is deep enough. -/
theorem exists_isCopy (source : Tree) (place : Option Span) : ∀ (n : Nat) (id : NodeId),
    source.Shallow n id → ∀ t : Tree, ∃ (c : NodeId) (t' : Tree),
      (source.copyUpTo place n id).run t = (c, t') ∧ IsCopy source place id t t' c
  | 0, id, h, t => absurd h not_shallow_zero
  | n + 1, id, h, t => by
    have ih := exists_isCopy source place n
    obtain ⟨copies, t₁, hrun, hextends, hcopies⟩ := exists_replicas ih (fun i hi =>
      h.child (((source.node id).copyOrder_perm _).mem_iff.mp hi)) t
    have hlength : ((source.node id).copyOrder copies).length = (source.node id).children.length := by
      rw [(Node.copyOrder_perm _ _).length_eq, ← hcopies.each.length_eq,
        (Node.copyOrder_perm _ _).length_eq]
    refine ⟨_, _, ?_, isCopy_grown hextends ?_ (Node.bare_atop hlength)⟩
    · rw [copyUpTo_succ, run_bind_of_run hrun]
      rfl
    · rw [Node.children_atop hlength, ← (source.node id).copyOrder_copyOrder (source.node id).children]
      exact hcopies.copyOrder _

/-! ## The three ways to copy -/

/-- Everything below a node is in the store, and no path comes back to where it was. -/
structure Acyclic (t : Tree) (top : NodeId) : Prop where
  lt_size : ∀ i, t.Reaches top i → i < t.size
  no_return : ∀ i path, t.Reaches top i → t.follow i path = some i → path = []

theorem Acyclic.below (h : t.Acyclic top) (hid : t.Reaches top id) : t.Acyclic id :=
  ⟨fun i hi => h.lt_size i (hid.trans hi), fun i path hi => h.no_return i path (hid.trans hi)⟩

theorem Acyclic.shallow (h : t.Acyclic id) : t.Shallow t.size id :=
  fun _ _ => length_lt_of_acyclic h.lt_size h.no_return

/-- Nothing comes back to where it was if one path leads to everything. -/
theorem acyclic_of_one_path (hlt : ∀ i, t.Reaches top i → i < t.size)
    (hone : ∀ path path' i, t.follow top path = some i → t.follow top path' = some i →
      path = path') : t.Acyclic top := by
  refine ⟨hlt, ?_⟩
  rintro i path ⟨before, hbefore⟩ hback
  have hboth : t.follow top (before ++ path) = some i := by
    rw [follow_append, hbefore, Option.bind_some, hback]
  exact List.self_eq_append_right.mp (hone _ _ i hbefore hboth)

theorem Linked.acyclic (h : t.Linked top) : t.Acyclic top :=
  acyclic_of_one_path (fun _ => h.lt_size_of_reaches) h.one_path

theorem exists_isCopy_copy (h : source.Acyclic id) (place : Option Span) (t : Tree) :
    ∃ (copy : NodeId) (t' : Tree), (source.copy place id).run t = (copy, t') ∧
      IsCopy source place id t t' copy :=
  exists_isCopy source place source.size id h.shallow t

/-- A tree that is all one copy. -/
structure IsExtract (source : Tree) (id : NodeId) (t : Tree) : Prop
    extends Mirrors source none t id t.root where
  parent_root : t.parent t.root = none
  reaches_iff : ∀ j : Nat, t.Reaches t.root j ↔ j < t.size

theorem isExtract_extract (h : t.Acyclic id) : IsExtract t id (t.extract id) := by
  obtain ⟨copy, t', hrun, hcopy⟩ := exists_isCopy_copy h none ⟨#[], 0⟩
  have hroot : (t.extract id).root = copy := by rw [extract, root_build hrun]
  have hsize : (t.extract id).size = t'.size := by
    rw [extract, build, hrun]
    exact size_setParent copy
  -- The copy hangs under nothing already, so that making it a root leaves all slots as they are.
  have hslot : ∀ j, (t.extract id).slot j = t'.slot j := by
    intro j
    rw [extract, build, hrun]
    dsimp only
    rw [setParent, slot_modifySlot]
    split
    · rename_i heq
      have hnone : (t'.slot j).parent = none := heq.1 ▸ hcopy.parent_top
      exact congrArg (fun up => (⟨(t'.slot j).node, up, (t'.slot j).span⟩ : Slot)) hnone.symm
    · rfl
  have hmirrors : Mirrors t none (t.extract id) id copy :=
    hcopy.toMirrors.congr fun j _ => ⟨t'.parent j, hslot j, fun _ => rfl⟩
  have hreaches : ∀ j, (t.extract id).Reaches copy j ↔ t'.Reaches copy j := by
    intro j
    have hfollow : ∀ path, (t.extract id).follow copy path = t'.follow copy path :=
      follow_congr fun j _ => congrArg Slot.node (hslot j)
    simp only [Reaches, hfollow]
  rw [← hroot] at hmirrors hreaches
  refine ⟨hmirrors, ?_, fun j => ?_⟩
  · rw [parent, hslot, hroot]
    exact hcopy.parent_top
  · rw [hreaches, hroot, hcopy.reaches_iff, hsize]
    exact and_iff_right (Nat.zero_le j)

theorem IsExtract.acyclic (h : IsExtract source id t) : t.Acyclic t.root :=
  acyclic_of_one_path (fun i hi => (h.reaches_iff i).mp hi) h.one_path

/-- A copy of what was copied before is a copy of the original. -/
theorem IsCopy.of_extract {extracted : Tree} (h : IsExtract source id extracted)
    (h' : IsCopy extracted none extracted.root t t' copy) : IsCopy source none id t t' copy :=
  { h' with same := fun path => (h'.same path).trans (h.same path) }

/-- Copies are faithful and stand alone. Of a store in which no path comes back, a tree may be copied
into any other store and any node into a tree of its own or beside the original; all of them are
copies in the full sense. -/
theorem copies_stand_alone {t : Tree} {top id : NodeId} (h : t.Acyclic top)
    (hid : t.Reaches top id) :
    (top = t.root → ∀ place target, ∃ copy target', (graft t place).run target = (copy, target') ∧
      IsCopy t place t.root target target' copy) ∧
    IsExtract t id (t.extract id) ∧
    ∃ copy t', (deepCopy id).run t = (copy, t') ∧ IsCopy t none id t t' copy := by
  have hextract := isExtract_extract (h.below hid)
  refine ⟨?_, hextract, ?_⟩
  · rintro rfl place target
    exact exists_isCopy_copy h place target
  · obtain ⟨copy, t', hrun, hcopy⟩ := exists_isCopy_copy hextract.acyclic none t
    refine ⟨copy, t', ?_, hcopy.of_extract hextract⟩
    rw [deepCopy, run_get_bind, graft, hrun]

/-- A root with its degree, beside a script: all of it is copied to stand for another text, and what
is under the root alone. -/
theorem copies_stand_alone_root :
    let t := ofElements [.command "sqrt" [.group .brackets [.literal "3" ⟨6, 7⟩] ⟨5, 8⟩,
      .group .braces [.literal "x" ⟨9, 10⟩] ⟨8, 11⟩] ⟨0, 11⟩,
      .script .superscript (.command "alpha" [] ⟨12, 18⟩) ⟨11, 18⟩, .literal " b]" ⟨18, 21⟩]
    t.Acyclic t.root ∧ t.Reaches t.root 5 ∧
      (∃ copy t', (graft t (some ⟨3, 4⟩)).run t = (copy, t') ∧
        IsCopy t (some ⟨3, 4⟩) t.root t t' copy) ∧
      IsExtract t 5 (t.extract 5) ∧
      ∃ copy t', (deepCopy 5).run t = (copy, t') ∧ IsCopy t none 5 t t' copy := by
  intro t
  have hacyclic : t.Acyclic t.root := (depicts_ofElements _).linked.acyclic
  have hreaches : t.Reaches t.root 5 := ⟨[0, 1], by decide +kernel⟩
  obtain ⟨hgraft, hextract, hcopy⟩ := copies_stand_alone hacyclic hreaches
  exact ⟨hacyclic, hreaches, hgraft rfl _ t, hextract, hcopy⟩

end Tree

end Formulary
