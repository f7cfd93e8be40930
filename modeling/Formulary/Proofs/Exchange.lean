import Formulary.Proofs.Links
import Formulary.Proofs.Surgery

/-!
# Elements in the place of others

An element may stand in a cell, as an operand or as a parameter. Wherever it is, another can be put
in its place: `Part.exchange` does it to the part right above, and `run_replaceElement_out` says that
the program does the same to the store. `Part.Turns` says of any change below that the formula goes
along with it (`Turns.parent`, `Turns.whole`).
-/

namespace Formulary

open Plan

/-! ## Nodes -/

/-- A node with one child in the place of another. The next cell of a cell stays. -/
def Node.swap (old new : NodeId) : Node → Node
  | .sequence head tail => .sequence (if head = old then new else head) tail
  | .group fence inner => .group fence (if inner = old then new else inner)
  | .script marker operand => .script marker (if operand = old then new else operand)
  | .command name parameters => .command name (parameters.map fun i => if i = old then new else i)
  | .block name parameters body =>
    .block name (parameters.map fun i => if i = old then new else i) (if body = old then new else body)
  | node => node

theorem Node.swap_self (i : NodeId) (node : Node) : node.swap i i = node := by
  have hswap : ∀ j : NodeId, (if j = i then i else j) = j := by
    intro j
    split
    · rename_i heq
      exact heq.symm
    · rfl
  cases node <;> simp [Node.swap, hswap]

theorem Node.kind_swap (old new : NodeId) (node : Node) : (node.swap old new).kind = node.kind := by
  rcases node with _ | _ | _ | _ | ⟨_ | _, _⟩ | _ | _ <;> rfl

theorem Tree.redirect_eq (t : Tree) (parent old new : NodeId) :
    t.redirect parent old new = t ∧ (t.node parent).swap old new = t.node parent ∨
      t.redirect parent old new = t.setNode parent ((t.node parent).swap old new) := by
  rw [Tree.redirect]
  cases t.node parent with
  | literal | empty => exact Or.inl ⟨rfl, rfl⟩
  | sequence | group | script | command | block => exact Or.inr rfl

theorem Tree.look_redirect {t : Tree} {parent : NodeId} {node : Node} {up : Option NodeId}
    (h : t.look parent = some (node, up)) (old new j : NodeId) :
    (t.redirect parent old new).look j =
      if parent = j then some (node.swap old new, up) else t.look j := by
  rcases t.redirect_eq parent old new with ⟨heq, hsame⟩ | heq
  · rw [Tree.node_of_look h] at hsame
    rw [heq, hsame, ← h]
    split
    · rename_i heq
      rw [heq]
    · rfl
  · rw [heq, Tree.look_setNode, Tree.node_of_look h]
    split
    · rename_i heq
      rw [← heq, h]
      rfl
    · rfl

theorem Tree.keeps_redirect (t : Tree) (parent old new : NodeId) :
    t.Keeps (t.redirect parent old new) {parent} := by
  rcases t.redirect_eq parent old new with ⟨heq, -⟩ | heq
  · rw [heq]
    exact Keeps.refl t _
  · rw [heq]
    refine ⟨by simp, by simp, fun i _ hi => ?_⟩
    rw [look_setNode, if_neg fun heq => hi (Multiset.mem_singleton.mpr heq.symm)]

/-! ## Parts -/

namespace Part

variable {t t' : Tree} {up : Option NodeId} {x y : Part} {p q : Plan} {k : Nat} {ps : List Plan}

/-- A part with another element in the place of one right under it. -/
def exchange (q : Plan) : Part → Nat → Part
  | .chain cell _ rest, _ => .chain cell q rest
  | .element (.script n marker _), _ => .element (.script n marker q)
  | .element (.command n name ps), k => .element (.command n name (ps.set k q))
  | .element (.block n name ps body), k => .element (.block n name (ps.set k q) body)
  | y, _ => y

@[simp] theorem exchange_id (q : Plan) (y : Part) (k : Nat) : (y.exchange q k).id = y.id := by
  rcases y with (_ | _ | _ | _ | _ | _) | _ <;> rfl

@[simp] theorem exchange_isChain (q : Plan) (y : Part) (k : Nat) :
    (y.exchange q k).isChain = y.isChain := by
  rcases y with (_ | _ | _ | _ | _ | _) | _ <;> rfl

theorem ofRow_ne_element {row : Row} : (ofRow row)[k]? ≠ some (.element p) := by
  intro h
  match row, k, h with
  | (cell, q) :: rest, 0, h => cases h

theorem parameter_of_block {body : Row}
    (hk : (ps.map element ++ ofRow body)[k]? = some (.element p)) :
    (ps.map element)[k]? = some (.element p) := by
  rcases Nat.lt_or_ge k (ps.map element).length with hlt | hge
  · rwa [List.getElem?_append_left hlt] at hk
  · rw [List.getElem?_append_right hge] at hk
    exact absurd hk ofRow_ne_element

theorem parameter_of_elements (hk : (ps.map element)[k]? = some (.element p)) :
    ps[k]? = some p := by
  rw [List.getElem?_map] at hk
  obtain ⟨q, hq, heq⟩ := Option.map_eq_some_iff.mp hk
  rwa [← Part.element.inj heq]

theorem id_of_parameter (hk : ps[k]? = some p) : (ps.map Plan.id)[k]? = some p.id := by
  rw [List.getElem?_map, hk]
  rfl

/-- An element right under a part and its number there. It is the element of a cell, an operand, or a
parameter of a command or a block. -/
inductive HasElement (p : Plan) : Part → Nat → Prop
  | head (cell : NodeId) (rest : Row) : HasElement p (.chain cell p rest) 0
  | operand (n : NodeId) (marker : Marker) : HasElement p (.element (.script n marker p)) 0
  | parameter (n : NodeId) (name : String) {ps : List Plan} {k : Nat} (hk : ps[k]? = some p) :
    HasElement p (.element (.command n name ps)) k
  | blockParameter (n : NodeId) (name : String) {ps : List Plan} {k : Nat} (body : Row)
      (hk : ps[k]? = some p) : HasElement p (.element (.block n name ps body)) k

theorem hasElement (hk : y.children[k]? = some (.element p)) : HasElement p y k := by
  cases y with
  | chain cell q rest =>
    cases k with
    | zero =>
      obtain rfl := Part.element.inj (Option.some.inj hk)
      exact .head cell rest
    | succ k => exact absurd hk ofRow_ne_element
  | element r =>
    cases r with
    | literal | empty => cases hk
    | group n fence inner => exact absurd hk ofRow_ne_element
    | script n marker operand =>
      cases k with
      | zero =>
        obtain rfl := Part.element.inj (Option.some.inj hk)
        exact .operand n marker
      | succ k => cases hk
    | command n name ps => exact .parameter n name (parameter_of_elements hk)
    | block n name ps body =>
      exact .blockParameter n name body (parameter_of_elements (parameter_of_block hk))

theorem exchange_children (hk : y.children[k]? = some (.element p)) (q : Plan) :
    (y.exchange q k).children = y.children.set k (.element q) := by
  cases hasElement hk with
  | head | operand => rfl
  | parameter n name hk => rw [exchange, children, children, List.map_set]
  | blockParameter n name body hk =>
    have hlt := (List.getElem?_eq_some_iff.mp hk).1
    rw [exchange, children, children, List.map_set,
      List.set_append_left _ _ (by rwa [List.length_map])]

theorem sum_set {xs : List Part} (hk : xs[k]? = some x) (y : Part) :
    ((xs.set k y).map ids).sum + x.ids = (xs.map ids).sum + y.ids := by
  induction xs generalizing k with
  | nil => cases hk
  | cons z xs ih =>
    cases k with
    | zero =>
      obtain rfl := Option.some.inj hk
      rw [List.set_cons_zero, List.map_cons, List.map_cons, List.sum_cons, List.sum_cons]
      ac_rfl
    | succ k =>
      rw [List.set_cons_succ, List.map_cons, List.map_cons, List.sum_cons, List.sum_cons, add_assoc,
        ih hk, add_assoc]

/-- What comes in and what goes out. -/
theorem ids_exchange (hk : y.children[k]? = some (.element p)) (q : Plan) :
    (y.exchange q k).ids + p.ids = y.ids + q.ids := by
  rw [ids_eq (y.exchange q k), ids_eq y, exchange_id, exchange_children hk, add_assoc, add_assoc]
  congr 1
  exact sum_set hk (.element q)

theorem nodup_map_id {xs : List Part} (h : (xs.map ids).sum.Nodup) : (xs.map id).Nodup := by
  induction xs with
  | nil => exact List.nodup_nil
  | cons x xs ih =>
    rw [List.map_cons, List.sum_cons, Multiset.nodup_add] at h
    rw [List.map_cons, List.nodup_cons]
    refine ⟨fun hmem => ?_, ih h.2.1⟩
    obtain ⟨y, hy, hid⟩ := List.mem_map.mp hmem
    refine Multiset.disjoint_left.mp h.2.2 x.id_mem_ids ?_
    rw [← hid]
    exact Multiset.mem_of_le (ids_le_sum hy) y.id_mem_ids

theorem map_swap {is : List NodeId} {old : NodeId} (hk : is[k]? = some old) (hn : is.Nodup)
    (new : NodeId) : is.map (fun i => if i = old then new else i) = is.set k new := by
  induction is generalizing k with
  | nil => cases hk
  | cons i is ih =>
    rw [List.nodup_cons] at hn
    cases k with
    | zero =>
      obtain rfl := Option.some.inj hk
      rw [List.map_cons, if_pos rfl, List.set_cons_zero]
      have hrest : is.map (fun j => if j = i then new else j) = is.map (fun j => j) := by
        refine List.map_congr_left fun j hj => if_neg ?_
        rintro rfl
        exact hn.1 hj
      rw [hrest, List.map_id']
    | succ k =>
      have hne : i ≠ old := fun heq => hn.1 (heq ▸ List.mem_of_getElem? hk)
      rw [List.map_cons, if_neg hne, ih hk hn.2, List.set_cons_succ]

theorem exchange_node (hk : y.children[k]? = some (.element p)) (hy : y.Fits t up)
    (hn : (y.children.map id).Nodup) (q : Plan) :
    (y.exchange q k).node = y.node.swap p.id q.id := by
  cases hasElement hk with
  | head cell rest => simp [exchange, node, Node.swap]
  | operand n marker => simp [exchange, node, Node.swap, top]
  | parameter n name hk =>
    rw [children, ids_map_elements] at hn
    rw [exchange, node, node, top, top, Node.swap, map_swap (id_of_parameter hk) hn, List.map_set]
  | blockParameter n name body hk =>
    rw [Fits, Plan.Fits] at hy
    obtain ⟨⟨first, hfirst, -⟩, -⟩ := hy
    have hk' := id_of_parameter hk
    rw [children, List.map_append, ids_map_elements, ids_map_ofRow, hfirst, List.nodup_append] at hn
    have hbody : first ≠ p.id :=
      (hn.2.2 p.id (List.mem_of_getElem? hk') first (by simp)).symm
    rw [exchange, node, node, top, top, Node.swap, map_swap hk' hn.1, List.map_set, hfirst,
      Option.getD_some, if_neg hbody]

theorem exchange_node_children (hk : y.children[k]? = some (.element p))
    (hy : y.node.children = y.children.map id) (q : Plan) :
    (y.exchange q k).node.children = (y.exchange q k).children.map id := by
  cases hasElement hk with
  | head cell rest => exact congrArg (q.id :: ·) (ids_map_ofRow rest).symm
  | operand => rfl
  | parameter n name hk => exact (ids_map_elements _).symm
  | blockParameter n name body hk =>
    rw [children, List.map_append, ids_map_elements] at hy
    rw [exchange, children, List.map_append, ids_map_elements, ← List.append_cancel_left hy]
    rfl

theorem forall_mem_set {P : Part → Prop} {xs : List Part} (hx : P x)
    (h : ∀ j z, j ≠ k → xs[j]? = some z → P z) : ∀ z ∈ xs.set k x, P z := by
  intro z hz
  obtain ⟨j, hj⟩ := List.getElem?_of_mem hz
  rw [List.getElem?_set] at hj
  split at hj
  · split at hj
    · rwa [← Option.some.inj hj]
    · cases hj
  · rename_i hne
    exact h j z (Ne.symm hne) hj

/-- An exchange fits if its node is there and everything fits that stays under it. -/
theorem Fits.exchange (hy : y.Fits t up) (hk : y.children[k]? = some (.element p))
    (hlook : t'.look y.id = some ((y.exchange q k).node, up)) (hq : q.Fits t' (some y.id))
    (hrest : ∀ j z, j ≠ k → y.children[j]? = some z → z.Fits t' (some y.id)) :
    (y.exchange q k).Fits t' up := by
  refine fits_iff.mpr ⟨exchange_node_children hk hy.node_children q, ?_, ?_⟩
  · rw [exchange_id, hlook]
  · rw [exchange_children hk, exchange_id]
    exact forall_mem_set hq hrest

/-! ## Parts at the position of others -/

/-- A part in the place of another of the same kind, at the same position. -/
structure Turns (t' : Tree) (up : Option NodeId) (x x' : Part) : Prop where
  fits : x'.Fits t' up
  id_eq : x'.id = x.id
  isChain_eq : x'.isChain = x.isChain

/-- When a part right under another turned into something else, so did the other. -/
theorem Turns.parent {x' : Part} (hk : y.children[k]? = some x) (hy : y.Fits t up)
    (hlook : t'.look y.id = t.look y.id)
    (hrest : ∀ j z, j ≠ k → y.children[j]? = some z → z.Fits t' (some y.id))
    (h : Turns t' (some y.id) x x') :
    ∃ y', Turns t' up y y' ∧ y'.children = y.children.set k x' := by
  have hsame : ∀ {α : Type} {f : Part → α}, f x' = f x →
      (y.children.set k x').map f = y.children.map f := by
    intro α f heq
    obtain ⟨hlt, rfl⟩ := List.getElem?_eq_some_iff.mp hk
    rw [List.map_set, heq, ← List.map_set, List.set_getElem_self]
  have hids : (y.children.set k x').map id = y.node.children :=
    (hsame h.id_eq).trans hy.node_children.symm
  obtain ⟨y', hid, hnode, hchildren⟩ :=
    exists_over hids ((hsame h.isChain_eq).trans (chained_node hy.node_children)) y.id
  refine ⟨y', ⟨fits_iff.mpr ⟨?_, ?_, ?_⟩, hid, ?_⟩, hchildren⟩
  · rw [hnode, hchildren, hsame h.id_eq, hy.node_children]
  · rw [hid, hnode, hlook, hy.look]
  · rw [hid, hchildren]
    exact forall_mem_set h.fits hrest
  · rw [← isSequence_node, hnode, isSequence_node]

/-- When a part somewhere in another turned into something else, so did the other. -/
theorem Turns.whole {x' : Part} {path : List Nat} (hpath : y.down path = some x)
    (hy : y.Fits t up) (hn : y.ids.Nodup)
    (hlook : ∀ i ∈ y.ids, i ∉ x.ids → t'.look i = t.look i)
    (h : ∀ up, x.Fits t up → Turns t' up x x') :
    ∃ y', Turns t' up y y' ∧ y'.down path = some x' ∧ y'.ids + x.ids = y.ids + x'.ids := by
  induction path generalizing y up with
  | nil =>
    obtain rfl := Option.some.inj hpath
    exact ⟨x', h up hy, rfl, add_comm _ _⟩
  | cons k path ih =>
    rw [down] at hpath
    obtain ⟨z, hz, hpath⟩ := Option.bind_eq_some_iff.mp hpath
    have hmem := List.mem_of_getElem? hz
    have hle : x.ids ≤ z.ids := ids_le_of_down hpath
    have hn' := hn
    rw [ids_eq, nodup_cons_iff] at hn'
    have hunder : ∀ {w : Part} {i}, w ∈ y.children → i ∈ w.ids → i ∈ y.ids := by
      intro w i hw hi
      rw [ids_eq]
      exact Multiset.mem_add.mpr (Or.inr (Multiset.mem_of_le (ids_le_sum hw) hi))
    obtain ⟨z', hz', hdown, hids⟩ := ih hpath (hy.children z hmem)
      (Multiset.nodup_of_le (ids_le_sum hmem) hn'.2) fun i hi => hlook i (hunder hmem hi)
    obtain ⟨y', hy', hchildren⟩ := hz'.parent hz hy
      (hlook y.id y.id_mem_ids fun hi =>
        hn'.1 (Multiset.mem_of_le (ids_le_sum hmem) (Multiset.mem_of_le hle hi)))
      fun j w hne hw => (hy.children w (List.mem_of_getElem? hw)).congr fun i hi =>
        hlook i (hunder (List.mem_of_getElem? hw) hi) fun hi' =>
          Multiset.disjoint_left.mp (disjoint_of_nodup_sum hn'.2 hw hz hne) hi
            (Multiset.mem_of_le hle hi')
    refine ⟨y', hy', ?_, ?_⟩
    · have hlt := (List.getElem?_eq_some_iff.mp hz).1
      rw [down, hchildren, List.getElem?_set_self hlt, Option.bind_some, hdown]
    · have hsum : (y'.children.map ids).sum + x.ids = (y.children.map ids).sum + x'.ids := by
        refine Multiset.add_right_inj.mp (?_ : z.ids + _ = z.ids + _)
        calc z.ids + ((y'.children.map ids).sum + x.ids)
            = (((y.children.set k z').map ids).sum + z.ids) + x.ids := by rw [hchildren]; ac_rfl
          _ = (y.children.map ids).sum + (z'.ids + x.ids) := by rw [sum_set hz z', add_assoc]
          _ = z.ids + ((y.children.map ids).sum + x'.ids) := by rw [hids]; ac_rfl
      rw [ids_eq y', ids_eq y, hy'.id_eq, add_assoc, add_assoc, hsum]

/-- An element in the place of another. The old one hangs under nothing afterwards. -/
theorem run_replaceElement_out (hk : y.children[k]? = some (.element p)) (hy : y.Fits t up)
    (hq : q.Fits t none) (hn : (y.ids + q.ids).Nodup) :
    ∃ t', (Tree.replaceElement p.id q.id).run.run t = (.ok (), t') ∧ (y.exchange q k).Fits t' up ∧
      p.Fits t' none ∧ t.Trades t' (y.ids + q.ids) ((y.exchange q k).ids + p.ids) := by
  have hmem := List.mem_of_getElem? hk
  have hp : p.Fits t (some y.id) := hy.children _ hmem
  obtain ⟨hny, hnq, hdisj⟩ := Multiset.nodup_add.mp hn
  have hny' := hny
  rw [ids_eq, nodup_cons_iff] at hny'
  have hle : p.ids ≤ (y.children.map ids).sum := ids_le_sum hmem
  have hsub : ∀ {i}, i ∈ (y.children.map ids).sum → i ∈ y.ids := fun hi => by
    rw [ids_eq]
    exact Multiset.mem_add.mpr (Or.inr hi)
  have hyp : y.id ≠ p.id := fun heq =>
    hny'.1 (heq ▸ Multiset.mem_of_le hle p.id_mem_ids)
  have hyq : y.id ≠ q.id := fun heq =>
    Multiset.disjoint_left.mp hdisj y.id_mem_ids (heq ▸ q.id_mem_ids)
  have hpq : ∀ {i}, i ∈ p.ids → i ∉ q.ids := fun hi =>
    Multiset.disjoint_left.mp hdisj (hsub (Multiset.mem_of_le hle hi))
  have hpq' : p.id ≠ q.id := fun heq => hpq p.id_mem_ids (heq ▸ q.id_mem_ids)
  -- Three positions change, and the rest is as before.
  have hstays : ∀ j, p.id ≠ j → q.id ≠ j → y.id ≠ j →
      (((t.redirect y.id p.id q.id).setParent q.id (some y.id)).setParent p.id none).look j =
        t.look j := by
    intro j hpj hqj hyj
    rw [Tree.look_setParent, if_neg hpj, Tree.look_setParent, if_neg hqj, Tree.look_redirect hy.look,
      if_neg hyj]
  have hfits : (y.exchange q k).Fits
      (((t.redirect y.id p.id q.id).setParent q.id (some y.id)).setParent p.id none) up := by
    refine Fits.exchange hy hk ?_ (hq.rehang hnq (fun n hlook => ?_) fun i hi hne => ?_)
      fun j z hne hz => ?_
    · rw [Tree.look_setParent, if_neg hyp.symm, Tree.look_setParent, if_neg hyq.symm,
        Tree.look_redirect hy.look, if_pos rfl, exchange_node hk hy (nodup_map_id hny'.2)]
    · rw [Tree.look_setParent, if_neg hpq', Tree.look_setParent, if_pos rfl,
        Tree.look_redirect hy.look, if_neg hyq, hlook]
      rfl
    · refine hstays i ?_ hne.symm ?_
      · rintro rfl
        exact hpq p.id_mem_ids hi
      · rintro rfl
        exact Multiset.disjoint_left.mp hdisj y.id_mem_ids hi
    · have hz' := ids_le_sum (List.mem_of_getElem? hz)
      refine (hy.children z (List.mem_of_getElem? hz)).congr fun i hi => hstays i ?_ ?_ ?_
      · rintro rfl
        exact Multiset.disjoint_left.mp (disjoint_of_nodup_sum hny'.2 hz hk hne) hi p.id_mem_ids
      · rintro rfl
        exact Multiset.disjoint_left.mp hdisj (hsub (Multiset.mem_of_le hz' hi)) q.id_mem_ids
      · rintro rfl
        exact hny'.1 (Multiset.mem_of_le hz' hi)
  have hnp : p.ids.Nodup := Multiset.nodup_of_le hle hny'.2
  have hloose : p.Fits
      (((t.redirect y.id p.id q.id).setParent q.id (some y.id)).setParent p.id none) none := by
    refine hp.rehang hnp (fun n hlook => ?_) fun i hi hne => hstays i hne.symm ?_ ?_
    · rw [Tree.look_setParent, if_pos rfl, Tree.look_setParent, if_neg hpq'.symm,
        Tree.look_redirect hy.look, if_neg hyp, hlook]
      rfl
    · rintro rfl
      exact hpq hi q.id_mem_ids
    · rintro rfl
      exact hny'.1 (Multiset.mem_of_le hle hi)
  refine ⟨_, ?_, hfits, hloose, ?_⟩
  · rw [Tree.replaceElement, Edit.run_get_bind, hp.parent]
    rfl
  · refine (Tree.Trades.of_keeps ⟨?_, ?_, fun i _ hi => ?_⟩ hn ?_).congr rfl (ids_exchange hk q).symm
    · simpa using (t.keeps_redirect y.id p.id q.id).size_le
    · simpa using (t.keeps_redirect y.id p.id q.id).root_eq
    · rw [Multiset.mem_add, not_or] at hi
      refine hstays i ?_ ?_ ?_
      · rintro rfl
        exact hi.1 (hsub (Multiset.mem_of_le hle p.id_mem_ids))
      · rintro rfl
        exact hi.2 q.id_mem_ids
      · rintro rfl
        exact hi.1 y.id_mem_ids
    · exact Tree.lt_size_add hy.lt_size hq.lt_size

/-- A part became another of the same kind in its place. -/
structure Becomes (t t' : Tree) (up : Option NodeId) (x x' : Part) : Prop where
  fits : x'.Fits t' up
  id_eq : x'.id = x.id
  isChain_eq : x'.isChain = x.isChain
  trades : t.Trades t' x.ids x'.ids

/-- When an element right under a part became another at its position, so did the part. -/
theorem Becomes.exchange (hk : y.children[k]? = some (.element p)) (hy : y.Fits t up)
    (hn : y.ids.Nodup) (h : Plan.Becomes t t' (some y.id) p q) :
    Becomes t t' up y (y.exchange q k) := by
  have hle : p.ids ≤ (y.children.map ids).sum := ids_le_sum (List.mem_of_getElem? hk)
  have hn' := hn
  rw [ids_eq, nodup_cons_iff] at hn'
  have hnode : (y.exchange q k).node = y.node := by
    rw [exchange_node hk hy (nodup_map_id hn'.2), h.id_eq, Node.swap_self]
  refine ⟨Fits.exchange hy hk ?_ h.fits fun j z hne hz => ?_, exchange_id q y k,
    exchange_isChain q y k, ?_⟩
  · rw [hnode]
    exact h.trades.keeps.look_of_look hy.look fun hmem => hn'.1 (Multiset.mem_of_le hle hmem)
  · have hz' := hy.children z (List.mem_of_getElem? hz)
    refine hz'.congr fun i hi => h.trades.keeps.look_eq i (hz'.lt_size i hi) fun hmem => ?_
    exact Multiset.disjoint_left.mp (disjoint_of_nodup_sum hn'.2 hz hk hne) hi hmem
  · -- What is beside the element stays.
    obtain ⟨rest, hrest⟩ := Multiset.le_iff_exists_add.mp
      (hle.trans (ids_eq y ▸ Multiset.le_add_left _ _) : p.ids ≤ y.ids)
    have hnew : (y.exchange q k).ids = q.ids + rest := by
      have hids := ids_exchange hk q
      rw [hrest, add_right_comm, add_comm p.ids q.ids, add_right_comm] at hids
      exact Multiset.add_left_inj.mp hids
    rw [hrest] at hn ⊢
    rw [hnew]
    refine h.trades.frame hn fun i hi => hy.lt_size i ?_
    rw [hrest]
    exact Multiset.mem_add.mpr (Or.inr hi)

/-- A new element in the place of another. -/
theorem run_replace (hk : y.children[k]? = some (.element p)) (hy : y.Fits t up) (hn : y.ids.Nodup)
    (hroot : t.root < t.size) (hnew : t.Trades t' 0 q.ids) (hq : q.Fits t' none) :
    ∃ t'', (Tree.replace p.id q.id).run.run t' = (.ok (), t'') ∧
      Becomes t t'' up y (y.exchange q k) := by
  have hy' : y.Fits t' up := hy.congr fun i hi => hnew.keeps.look_eq i (hy.lt_size i hi) (by simp)
  have hframe := hnew.frame (u := y.ids) (by rwa [zero_add]) hy.lt_size
  rw [zero_add, add_comm] at hframe
  obtain ⟨t'', hrun, hfits, -, htrades⟩ := run_replaceElement_out hk hy' hq hframe.nodup
  refine ⟨t'', ?_, hfits, exchange_id q y k, exchange_isChain q y k,
    hframe.trans (htrades.drop rfl)⟩
  have hne : q.id ≠ t'.root := ne_root_of_new hroot hnew q.id_mem_ids
  have hp : p.Fits t' (some y.id) := hy'.children _ (List.mem_of_getElem? hk)
  rw [Tree.replace, Edit.run_get_bind, hq.parent]
  simp only [Option.isSome_none, Bool.false_or, beq_iff_eq, hne, if_false, hp.isSequence,
    hq.isSequence]
  exact hrun

end Part

namespace Plan

variable {t t' : Tree} {up : Option NodeId}

/-- A new operand in the place of another. -/
theorem run_replace_operand {id : NodeId} {marker : Marker} {p q : Plan}
    (h : (script id marker p).Fits t up) (hn : (script id marker p).ids.Nodup)
    (hroot : t.root < t.size) (hnew : t.Trades t' 0 q.ids) (hq : q.Fits t' none) :
    ∃ t'', (Tree.replace p.id q.id).run.run t' = (.ok (), t'') ∧
      Becomes t t'' up (script id marker p) (script id marker q) := by
  obtain ⟨t'', hrun, hbecomes⟩ :=
    Part.run_replace (y := .element (script id marker p)) (k := 0) rfl h hn hroot hnew hq
  exact ⟨t'', hrun, hbecomes.fits, rfl, hbecomes.trades⟩

/-- A new element in the cell of another. -/
theorem run_replace_head {cell : NodeId} {p q : Plan} {row : Row}
    (h : RowFits t up ((cell, p) :: row)) (hn : (rowIds ((cell, p) :: row)).Nodup)
    (hroot : t.root < t.size) (hnew : t.Trades t' 0 q.ids) (hq : q.Fits t' none) :
    ∃ t'', (Tree.replace p.id q.id).run.run t' = (.ok (), t'') ∧
      RowBecomes t t'' up ((cell, p) :: row) ((cell, q) :: row) := by
  obtain ⟨t'', hrun, hbecomes⟩ :=
    Part.run_replace (y := .chain cell p row) (k := 0) rfl h hn hroot hnew hq
  exact ⟨t'', hrun, hbecomes.fits, rfl, hbecomes.trades⟩

end Plan

end Formulary
