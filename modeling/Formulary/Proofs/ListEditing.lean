import Formulary.Proofs.Footprint

/-!
# Surgery edits lists

A chain is read as the list of its cells with their elements (`Tree.cells`). Each program of surgery
does to this list what its name says, the cell it is given stays where it was, and the rest of the
formula is left alone (`Tree.Untouched`).

* `Part.through`: a chain split at one of its cells.
* `Part.Fits.splice`: a chain somewhere in a formula changes from one of its cells on.
* `cells_delete`, `cells_replace`, `cells_insert`: the programs on chains.
* `node_replace`: an element in the place of another.
-/

namespace Formulary

open Plan

variable {first id : NodeId}

/-- A node in which one element has come into the place of another: the element of a cell, an operand,
or one of the parameters. -/
inductive Node.Exchanged (old new : NodeId) : Node → Node → Prop
  | head (tail : Option NodeId) : Exchanged old new (.sequence old tail) (.sequence new tail)
  | operand (marker : Marker) : Exchanged old new (.script marker old) (.script marker new)
  | parameter (name : String) {parameters : List NodeId} {k : Nat} (h : parameters[k]? = some old) :
    Exchanged old new (.command name parameters) (.command name (parameters.set k new))
  | blockParameter (name : String) {parameters : List NodeId} {k : Nat} (body : NodeId)
      (h : parameters[k]? = some old) :
    Exchanged old new (.block name parameters body) (.block name (parameters.set k new) body)

namespace Part

variable {y y' x' : Part} {s s' : Multiset NodeId} {i : NodeId} {q : Plan} {t t' : Tree}
  {up : Option NodeId} {x : Part} {path : List Nat} {cell : NodeId} {p p' : Plan}
  {pre post post' : Row} {k : Nat}

/-! ## Chains split at a cell -/

/-- A chain, given by the cells before one of them, that cell, and the cells after it. -/
def through : Row → NodeId → Plan → Row → Part
  | [], cell, p, post => .chain cell p post
  | x :: pre, cell, p, post => .chain x.1 x.2 (pre ++ (cell, p) :: post)

@[simp] theorem through_isChain (pre : Row) (cell : NodeId) (p : Plan) (post : Row) :
    (through pre cell p post).isChain = true := by
  cases pre <;> rfl

theorem fits_through :
    (through pre cell p post).Fits t up ↔ RowFits t up (pre ++ (cell, p) :: post) := by
  cases pre <;> rfl

theorem ids_through : (through pre cell p post).ids = rowIds pre + rowIds ((cell, p) :: post) := by
  rw [← rowIds_append]
  cases pre <;> rfl

theorem nextCell_through :
    nextCell (pre ++ (cell, p) :: post) = some (through pre cell p post).id := by
  cases pre <;> rfl

theorem Fits.cells_through (h : (through pre cell p post).Fits t up)
    (hn : (through pre cell p post).ids.Nodup) :
    t.cells (through pre cell p post).id = links pre ++ (cell, p.id) :: links post := by
  rw [ids_through, ← rowIds_append] at hn
  rw [(fits_through.mp h).cells hn nextCell_through, links_append, links_cons]

/-- A chain changes from one of its cells on. -/
theorem Turns.through (h : (through pre cell p post).Fits t up)
    (hlook : ∀ i ∈ rowIds pre, t'.look i = t.look i)
    (hrow : ∀ up, RowFits t up ((cell, p) :: post) → RowFits t' up ((cell, p') :: post')) :
    Turns t' up (through pre cell p post) (through pre cell p' post') := by
  refine ⟨fits_through.mpr ?_, ?_, by simp⟩
  · rw [fits_through] at h
    induction pre generalizing up with
    | nil => exact hrow up h
    | cons x pre ih =>
      simp only [rowIds_cons, Multiset.mem_add] at hlook
      rw [List.cons_append] at h ⊢
      obtain ⟨hcell, hp, hrest⟩ := rowFits_cons.mp h
      have hnext : nextCell (pre ++ (cell, p) :: post) = nextCell (pre ++ (cell, p') :: post') := by
        cases pre <;> rfl
      refine rowFits_cons.mpr ⟨?_, hp.congr fun i hi => hlook i (Or.inr (Or.inl hi)),
        ih hrest fun i hi => hlook i (Or.inr (Or.inr hi))⟩
      rw [hlook x.1 (Or.inl (Multiset.mem_singleton_self _)), hcell, hnext]
  · cases pre <;> rfl

/-- A part of a formula became another, and the formula with it, while other positions were taken up
or given up. -/
structure Splice (t t' : Tree) (x x' : Part) (path : List Nat) (y y' : Part)
    (s s' : Multiset NodeId) : Prop where
  turns : Turns t' none x x'
  down : x'.down path = some y'
  ids_add : x'.ids + y.ids = x.ids + y'.ids
  trades : t.Trades t' (x.ids + s) (x'.ids + s')

theorem Turns.splice (hx : x.Fits t none) (hpath : x.down path = some y) (hn : (x.ids + s).Nodup)
    (hturn : ∀ up, y.Fits t up → Turns t' up y y')
    (htrades : t.Trades t' (y.ids + s) (y'.ids + s')) :
    ∃ x', Splice t t' x x' path y y' s s' := by
  obtain ⟨hnx, -, hdisj⟩ := Multiset.nodup_add.mp hn
  obtain ⟨x', hturns, hdown, hids⟩ := Turns.whole hpath hx hnx (fun i hi hnot =>
    htrades.keeps.look_eq i (hx.lt_size i hi) fun hmem =>
      (Multiset.mem_add.mp hmem).elim hnot (Multiset.disjoint_left.mp hdisj hi)) hturn
  refine ⟨x', hturns, hdown, hids, ?_⟩
  -- What is left of the formula takes no part in the change.
  obtain ⟨u, hu⟩ := Multiset.le_iff_exists_add.mp (ids_le_of_down hpath)
  have hu' : x'.ids = y'.ids + u := by
    refine Multiset.add_left_inj.mp (?_ : _ + y.ids = _)
    rw [hids, hu]
    ac_rfl
  have hframe := htrades.frame (u := u) (by rwa [add_right_comm, ← hu])
    fun i hi => hx.lt_size i (by rw [hu]; exact Multiset.mem_add.mpr (Or.inr hi))
  rw [hu, hu']
  exact hframe.congr (add_right_comm _ _ _) (add_right_comm _ _ _)

/-- A chain somewhere in a formula changes from one of its cells on. -/
theorem Fits.splice (hx : x.Fits t none) (hpath : x.down path = some (Part.through pre cell p post))
    (hn : (x.ids + s).Nodup)
    (hrow : ∀ up, RowFits t up ((cell, p) :: post) → RowFits t' up ((cell, p') :: post'))
    (htrades : t.Trades t' (rowIds ((cell, p) :: post) + s) (rowIds ((cell, p') :: post') + s')) :
    ∃ x', Splice t t' x x' path (Part.through pre cell p post) (Part.through pre cell p' post')
      s s' := by
  have hle := ids_le_of_down hpath
  have hn' := Multiset.nodup_of_le (add_le_add_left hle s) hn
  have hlt : ∀ i ∈ rowIds pre, i < t.size := fun i hi =>
    hx.lt_size i (Multiset.mem_of_le hle
      (by rw [ids_through]; exact Multiset.mem_add.mpr (Or.inl hi)))
  rw [ids_through, add_comm (rowIds pre), add_right_comm] at hn'
  have hapart := (Multiset.nodup_add.mp hn').2.2
  refine Turns.splice hx hpath hn (fun up' hfits => Turns.through hfits (fun i hi =>
    htrades.keeps.look_eq i (hlt i hi) fun hmem => Multiset.disjoint_left.mp hapart hmem hi) hrow) ?_
  refine (htrades.frame hn' hlt).congr ?_ ?_
  · rw [ids_through]
    ac_rfl
  · rw [ids_through]
    ac_rfl

/-- What is in a formula and takes no part in a change, or comes back, is there afterwards. -/
theorem Splice.mem (h : Splice t t' x x' path y y' s s') (hn : y.ids.Nodup) (hi : i ∈ x.ids)
    (hback : i ∈ y.ids → i ∈ y'.ids) : i ∈ x'.ids := by
  have hcount := congrArg (Multiset.count i) h.ids_add
  rw [Multiset.count_add, Multiset.count_add] at hcount
  rw [← Multiset.count_pos] at hi ⊢
  rw [← Multiset.count_pos, ← Multiset.count_pos] at hback
  have hone := Multiset.nodup_iff_count_le_one.mp hn i
  omega

theorem Splice.nodup (h : Splice t t' x x' path y y' s s') : x'.ids.Nodup :=
  (Multiset.nodup_add.mp h.trades.nodup).1

/-- The cells of a chain after a change from one of its cells on. -/
theorem Splice.cells (h : Splice t t' x x' path y (Part.through pre cell p' post') s s') :
    t'.cells (Part.through pre cell p post).id = links pre ++ (cell, p'.id) :: links post' := by
  obtain ⟨up, hfits⟩ := h.turns.fits.down h.down
  have hid : (Part.through pre cell p post).id = (Part.through pre cell p' post').id := by
    cases pre <;> rfl
  rw [hid, hfits.cells_through (Multiset.nodup_of_le (ids_le_of_down h.down) h.nodup)]

theorem Fits.rowFits_of_down (hx : x.Fits t none) (hn : x.ids.Nodup)
    (hpath : x.down path = some (Part.through pre cell p post)) :
    ∃ up, RowFits t up ((cell, p) :: post) ∧ (rowIds ((cell, p) :: post)).Nodup := by
  obtain ⟨up, hfits⟩ := hx.down hpath
  obtain ⟨up', hrow⟩ := (fits_through.mp hfits).of_append
  have hle := ids_le_of_down hpath
  rw [ids_through] at hle
  exact ⟨up', hrow, Multiset.nodup_of_le ((Multiset.le_add_left _ _).trans hle) hn⟩

theorem nodup_row_add (hpath : x.down path = some (Part.through pre cell p post))
    (hn : (x.ids + s).Nodup) :
    (rowIds ((cell, p) :: post) + s).Nodup := by
  have hle := ids_le_of_down hpath
  rw [ids_through] at hle
  exact Multiset.nodup_of_le (add_le_add_left ((Multiset.le_add_left _ _).trans hle) s) hn

/-- An element stays in the formula if it comes back in what the chain becomes. -/
theorem Splice.mem_of_element
    (h : Splice t t' x x' path (Part.through pre cell p post) (Part.through pre cell p' post') s s')
    (hx : x.Fits t none) (hn : x.ids.Nodup)
    (hpath : x.down path = some (Part.through pre cell p post)) (hi : i ∈ x.ids)
    (hnot : t.isSequence i = false)
    (hback : i ∈ p.ids ∨ i ∈ rowIds post → i ∈ p'.ids ∨ i ∈ rowIds post') : i ∈ x'.ids := by
  refine h.mem (Multiset.nodup_of_le (ids_le_of_down hpath) hn) hi fun hmem => ?_
  obtain ⟨up, hrow, -⟩ := hx.rowFits_of_down hn hpath
  simp only [ids_through, rowIds_cons, Multiset.mem_add, Multiset.mem_singleton] at hmem ⊢
  rcases hmem with hmem | rfl | hmem
  · exact Or.inl hmem
  · rw [hrow.isSequence] at hnot
    cases hnot
  · exact Or.inr (Or.inr (hback hmem))

/-- Parts that hang under nothing have no position in common. -/
theorem Fits.nodup_add (hx : x.Fits t none) (hy : y.Fits t none) (hnx : x.ids.Nodup)
    (hny : y.ids.Nodup) (hne : x.id ≠ y.id) : (x.ids + y.ids).Nodup := by
  refine Multiset.nodup_add.mpr ⟨hnx, hny, Multiset.disjoint_left.mpr fun {i} hi hi' => ?_⟩
  exact (hx.linked hnx).apart (hy.linked hny) hne (hx.reaches_iff.mpr hi) (hy.reaches_iff.mpr hi')

/-- The element at a position right under a part. -/
theorem Fits.exists_element (hx : x.Fits t up) (hi : i ∈ (t.node x.id).children)
    (hnot : t.isSequence i = false) :
    ∃ (k : Nat) (q : Plan), x.children[k]? = some (.element q) ∧ q.id = i := by
  rw [hx.node, hx.node_children] at hi
  obtain ⟨y, hy, rfl⟩ := List.mem_map.mp hi
  rw [(hx.children y hy).isSequence] at hnot
  obtain ⟨k, hk⟩ := List.getElem?_of_mem hy
  cases y with
  | element q => exact ⟨k, q, hk, rfl⟩
  | chain c q rest => cases hnot

theorem exchanged (hk : y.children[k]? = some (.element p)) (q : Plan) :
    y.node.Exchanged p.id q.id (y.exchange q k).node := by
  cases hasElement hk with
  | head cell rest => exact .head _
  | operand n marker => exact .operand _
  | parameter n name hk =>
    rw [exchange, node, node, top, top, List.map_set]
    exact .parameter _ (id_of_parameter hk)
  | blockParameter n name body hk =>
    rw [exchange, node, node, top, top, List.map_set]
    exact .blockParameter _ _ (id_of_parameter hk)

/-! ## Programs on a formula -/

theorem Fits.run_delete (hx : x.Fits t none) (hn : x.ids.Nodup)
    (hpath : x.down path = some (Part.through pre cell p post)) (hid : t.owningCell id = some cell)
    (hpulled : pulled cell t.size post = (cell, p') :: post') :
    ∃ t' x', (Tree.delete id).run.run t = (.ok cell, t') ∧ p.Fits t' none ∧
      Splice t t' x x' path (Part.through pre cell p post) (Part.through pre cell p' post')
        0 p.ids := by
  obtain ⟨up, hfits, hnrow⟩ := hx.rowFits_of_down hn hpath
  obtain ⟨t', hrun, hrow, hout, htrades⟩ := run_delete_out hid hfits hnrow
  rw [hpulled] at hrow htrades
  obtain ⟨x', hsplice⟩ := hx.splice hpath (by rwa [add_zero])
    (fun up' hfits' => hfits'.up_eq hfits ▸ hrow) (htrades.congr (add_zero _).symm rfl)
  exact ⟨t', x', hrun, hout, hsplice⟩

theorem Fits.run_replaceCell {rest : Row} (hx : x.Fits t none)
    (hpath : x.down path = some (Part.through pre cell p post))
    (hnew : RowFits t none ((first, q) :: rest)) (hn : (x.ids + rowIds ((first, q) :: rest)).Nodup) :
    ∃ t' x', (Tree.replaceCell cell first).run.run t = (.ok (), t') ∧ p.Fits t' none ∧
      Splice t t' x x' path (Part.through pre cell p post) (Part.through pre cell q (rest ++ post))
        (rowIds ((first, q) :: rest)) p.ids := by
  obtain ⟨up, hfits, -⟩ := hx.rowFits_of_down (Multiset.nodup_add.mp hn).1 hpath
  obtain ⟨t', hrun, hrow, hout, htrades⟩ :=
    run_replaceCell_out hfits hnew (nodup_row_add hpath hn)
  obtain ⟨x', hsplice⟩ := hx.splice hpath hn (fun up' hfits' => hfits'.up_eq hfits ▸ hrow) htrades
  exact ⟨t', x', hrun, hout, hsplice⟩

theorem Fits.run_insert {program : Edit SurgeryError NodeId} {q' : Plan} (hx : x.Fits t none)
    (hpath : x.down path = some (Part.through pre cell p post))
    (hinserts : Inserts cell p q program p' q') (hq : q.Fits t none) (hn : (x.ids + q.ids).Nodup) :
    ∃ t' x', program.run.run t = (.ok t.size, t') ∧
      Splice t t' x x' path (Part.through pre cell p post)
        (Part.through pre cell p' ((t.size, q') :: post)) q.ids 0 := by
  obtain ⟨up, hfits, -⟩ := hx.rowFits_of_down (Multiset.nodup_add.mp hn).1 hpath
  obtain ⟨t', hrun, hrow, htrades⟩ := Plan.run_insert hinserts hfits hq (nodup_row_add hpath hn)
  obtain ⟨x', hsplice⟩ := hx.splice hpath hn (fun up' hfits' => hfits'.up_eq hfits ▸ hrow)
    (htrades.congr rfl (add_zero _).symm)
  exact ⟨t', x', hrun, hsplice⟩

theorem Fits.run_replaceElement (hx : x.Fits t none) (hpath : x.down path = some y)
    (hk : y.children[k]? = some (.element p)) (hq : q.Fits t none) (hn : (x.ids + q.ids).Nodup) :
    ∃ t' x', (Tree.replaceElement p.id q.id).run.run t = (.ok (), t') ∧ p.Fits t' none ∧
      Splice t t' x x' path y (y.exchange q k) q.ids p.ids := by
  obtain ⟨up, hfits⟩ := hx.down hpath
  obtain ⟨t', hrun, hturned, hout, htrades⟩ := run_replaceElement_out hk hfits hq
    (Multiset.nodup_of_le (add_le_add_left (ids_le_of_down hpath) _) hn)
  have hturn : ∀ up', y.Fits t up' → Turns t' up' y (y.exchange q k) := by
    intro up' hfits'
    rw [← hfits'.parent, hfits.parent]
    exact ⟨hturned, exchange_id q y k, exchange_isChain q y k⟩
  obtain ⟨x', hsplice⟩ := Turns.splice hx hpath hn hturn htrades
  exact ⟨t', x', hrun, hout, hsplice⟩

end Part

/-! ## What stays -/

namespace Tree

variable {t t' : Tree} {up : Option NodeId}

/-- A formula in order: a chain that hangs under nothing, with everything in it properly linked. -/
structure Sound (t : Tree) : Prop where
  linked : t.Linked t.root
  isSequence_root : t.isSequence t.root = true

/-- A node that hangs under nothing and is not the root, with everything under it properly linked. -/
structure Detached (t : Tree) (top : NodeId) : Prop where
  linked : t.Linked top
  ne_root : top ≠ t.root

/-- The formula was left alone but for the node at one place: all other nodes and all chains that do
not go through that place are as before, and no element has gone that was not under the one that was
taken out. -/
structure Untouched (t t' : Tree) (place : NodeId) (out : Option NodeId) : Prop where
  root_eq : t'.root = t.root
  node_eq : ∀ i, t.Reaches t.root i → i ≠ place → t'.node i = t.node i
  cells_eq : ∀ first, t.Reaches t.root first → place ∉ (t.cells first).map Prod.fst →
    t'.cells first = t.cells first
  reaches : ∀ i, t.Reaches t.root i → t.isSequence i = false → (∀ top ∈ out, ¬t.Reaches top i) →
    t'.Reaches t'.root i

theorem cellsUpTo_eq_nil (h : t.isSequence id = false) (limit : Nat) :
    t.cellsUpTo limit id = [] := by
  cases limit with
  | zero => rfl
  | succ limit =>
    rw [cellsUpTo]
    rw [isSequence] at h
    cases hnode : t.node id with
    | sequence head tail =>
      rw [hnode] at h
      cases h
    | literal | empty | group | script | command | block => rfl

/-- A chain whose cells are as before has the same cells, whatever happened elsewhere. -/
theorem cells_congr {row : Row} {limit : NodeId} (h : RowFits t up row)
    (hfirst : nextCell row = some first) (hlimit : row.length ≤ limit)
    (hnode : ∀ x ∈ links row, t'.node x.1 = t.node x.1) : t'.cellsUpTo limit first = links row := by
  induction row generalizing up first limit with
  | nil => cases hfirst
  | cons x row ih =>
    obtain rfl := Option.some.inj hfirst
    obtain ⟨hlook, -, hrow⟩ := rowFits_cons.mp h
    rw [links_cons, List.forall_mem_cons] at hnode
    cases limit with
    | zero => cases hlimit
    | succ limit =>
      rw [cellsUpTo, hnode.1, node_of_look hlook]
      cases row with
      | nil => rfl
      | cons y row =>
        rw [links_cons]
        exact congrArg _ (ih hrow rfl (Nat.le_of_succ_le_succ hlimit) hnode.2)

/-- Nothing but the node at one place was changed, as far as the formula goes. -/
theorem Alters.untouched {changed : List NodeId} {place : NodeId} {out : Option NodeId}
    {x x' : Part} (h : t.Alters t' changed) (hid : x.id = t.root) (hx : x.Fits t none)
    (hn : x.ids.Nodup) (hturns : Part.Turns t' none x x')
    (hchanged : ∀ i ∈ changed, i ∈ x.ids → i = place)
    (hstays : ∀ i ∈ x.ids, t.isSequence i = false → (∀ top ∈ out, ¬t.Reaches top i) → i ∈ x'.ids) :
    t.Untouched t' place out := by
  have hreach : ∀ {i}, t.Reaches t.root i ↔ i ∈ x.ids := by
    intro i
    rw [← hid]
    exact hx.reaches_iff
  have hnode : ∀ i, i ∈ x.ids → i ≠ place → t'.node i = t.node i := fun i hi hne =>
    h.node_eq i (hx.lt_size i hi) fun hmem => hne (hchanged i hmem hi)
  refine ⟨h.root_eq, fun i hi => hnode i (hreach.mp hi), fun first hfirst hplace => ?_,
    fun i hi hnot hout => ?_⟩
  · rw [← hid] at hfirst
    obtain ⟨path, y, up, hy, rfl, hfits⟩ := hx.exists_of_reaches hfirst
    cases y with
    | element p =>
      have hlt := hx.lt_size _ (hx.reaches_iff.mp hfirst)
      have hnot : t.isSequence (Part.element p).id = false := hfits.isSequence
      rw [cells, cells, cellsUpTo_eq_nil hnot, cellsUpTo_eq_nil ((h.isSequence_eq hlt).trans hnot)]
    | chain cell p rest =>
      have hle := Part.ids_le_of_down hy
      have hcells := RowFits.cells hfits (Multiset.nodup_of_le hle hn) rfl
      have hlength := (length_le_card _).trans
        (RowFits.card_le hfits (Multiset.nodup_of_le hle hn))
      change t'.cells cell = t.cells cell
      change place ∉ (t.cells cell).map Prod.fst at hplace
      rw [hcells] at hplace ⊢
      refine cells_congr hfits rfl (hlength.trans h.size_le) fun z hz => hnode z.1 ?_ ?_
      · obtain ⟨w, hw, rfl⟩ := List.mem_map.mp hz
        exact Multiset.mem_of_le hle (cell_mem_rowIds hw)
      · rintro rfl
        exact hplace (List.mem_map_of_mem hz)
  · rw [h.root_eq, ← hid, ← hturns.id_eq]
    exact hturns.fits.reaches_iff.mpr (hstays i (hreach.mp hi) hnot hout)

/-- The chain at a position that is reached, split at one of its cells. -/
theorem Linked.exists_through {top cell head : NodeId} {before after : List (NodeId × NodeId)}
    (h : t.Linked top) (hfirst : t.Reaches top first)
    (hcells : t.cells first = before ++ (cell, head) :: after) :
    ∃ (x : Part) (path : List Nat) (pre : Row) (p : Plan) (post : Row), x.id = top ∧
      x.Fits t none ∧ x.ids.Nodup ∧ x.down path = some (Part.through pre cell p post) ∧
      (Part.through pre cell p post).id = first ∧
      links pre = before ∧ p.id = head ∧ links post = after := by
  obtain ⟨x, rfl, hx, hn⟩ := h.exists_part
  obtain ⟨path, y, up, hy, rfl, hfits⟩ := hx.exists_of_reaches hfirst
  cases y with
  | element p =>
    have hnot : t.isSequence (Part.element p).id = false := hfits.isSequence
    rw [cells, cellsUpTo_eq_nil hnot] at hcells
    cases before <;> cases hcells
  | chain c q rest =>
    have hrow : t.cells c = links ((c, q) :: rest) :=
      RowFits.cells hfits (Multiset.nodup_of_le (Part.ids_le_of_down hy) hn) rfl
    change t.cells c = _ at hcells
    rw [hrow, links, List.map_eq_append_iff] at hcells
    obtain ⟨pre, row, hsplit, rfl, hrest⟩ := hcells
    obtain ⟨⟨cell', p⟩, post, rfl, hpair, rfl⟩ := List.map_eq_cons_iff.mp hrest
    obtain ⟨rfl, rfl⟩ := Prod.mk.inj hpair
    have hthrough : Part.chain c q rest = Part.through pre cell' p post := by
      cases pre with
      | nil =>
        obtain ⟨hfst, rfl⟩ := List.cons.inj hsplit
        obtain ⟨rfl, rfl⟩ := Prod.mk.inj hfst
        rfl
      | cons z pre =>
        obtain ⟨rfl, rfl⟩ := List.cons.inj hsplit
        rfl
    rw [hthrough] at hy
    exact ⟨x, path, pre, p, post, rfl, hx, hn, hy, by rw [← hthrough], rfl, rfl, rfl⟩

/-! ## Programs -/

theorem Linked.exists_element {top : NodeId} (h : t.Linked top) (hnot : t.isSequence top = false) :
    ∃ p : Plan, p.id = top ∧ p.Fits t none ∧ p.ids.Nodup := by
  obtain ⟨x, rfl, hx, hn⟩ := h.exists_part
  rw [hx.isSequence] at hnot
  cases x with
  | element p => exact ⟨p, rfl, hx, hn⟩
  | chain cell p rest => cases hnot

/-- What is put in must hang under nothing, and be a chain just as what it replaces. -/
theorem Detached.run_replace {old new : NodeId} (h : t.Detached new) :
    (replace old new).run.run t =
      match t.isSequence old, t.isSequence new with
      | true, true => (replaceCell old new).run.run t
      | false, false => (replaceElement old new).run.run t
      | _, _ => (.error (.kindMismatch (t.kind old) (t.kind new)), t) := by
  rw [replace, Edit.run_get_bind, h.linked.parent_top]
  simp only [Option.isSome_none, Bool.false_or, beq_iff_eq, h.ne_root, if_false]
  cases t.isSequence old <;> cases t.isSequence new <;> rfl

section

variable {first cell head : NodeId} {before after : List (NodeId × NodeId)}

theorem reaches_element {p : Plan} {i : NodeId} (h : p.Fits t up) (hi : i ∈ p.ids) :
    t.Reaches p.id i :=
  Part.Fits.reaches_iff (x := .element p) h |>.mpr hi

theorem cells_delete (h : t.Linked t.root) (hfirst : t.Reaches t.root first)
    (hcells : t.cells first = before ++ (cell, head) :: after) (hid : id = cell ∨ id = head) :
    ∃ t', (delete id).run.run t = (.ok cell, t') ∧
      (after = [] → t'.cells first = before ++ [(cell, t.size)] ∧ t'.node t.size = .empty) ∧
      (∀ next y rest, after = (next, y) :: rest → t'.cells first = before ++ (cell, y) :: rest) ∧
      t.Untouched t' cell (some head) := by
  obtain ⟨x, path, pre, p, post, hroot, hx, hn, hpath, rfl, rfl, rfl, rfl⟩ :=
    h.exists_through hfirst hcells
  obtain ⟨up, hrow, hnrow⟩ := hx.rowFits_of_down hn hpath
  have howning : t.owningCell id = some cell := by
    rcases hid with rfl | rfl
    · exact hrow.owningCell_cell
    · exact hrow.owningCell
  obtain ⟨p', post', hpulled⟩ := exists_of_nextCell (nextCell_pulled cell t.size post)
  obtain ⟨t', x', hrun, hout, hsplice⟩ := hx.run_delete hn hpath howning hpulled
  refine ⟨t', hrun, fun hafter => ?_, fun next y rest hafter => ?_, ?_⟩
  · obtain rfl := List.map_eq_nil_iff.mp hafter
    obtain ⟨hpair, rfl⟩ := List.cons.inj hpulled
    obtain rfl := (Prod.mk.inj hpair).2
    obtain ⟨up', hrow', -⟩ := hsplice.turns.fits.rowFits_of_down hsplice.nodup hsplice.down
    exact ⟨hsplice.cells, (rowFits_pair.mp hrow').2.1.node⟩
  · obtain ⟨⟨next', q⟩, post, rfl, hpair, rfl⟩ := List.map_eq_cons_iff.mp hafter
    obtain ⟨rfl, rfl⟩ := Prod.mk.inj hpair
    obtain ⟨hpair, rfl⟩ := List.cons.inj hpulled
    obtain rfl := (Prod.mk.inj hpair).2
    exact hsplice.cells
  · refine (alters_delete hrun).untouched hroot hx hn hsplice.turns ?_ ?_
    · rw [howning]
      rintro i hi -
      exact List.mem_singleton.mp hi
    · intro i hi hnot hloose
      refine hsplice.mem_of_element hx hn hpath hi hnot fun hmem => ?_
      have hpost := hmem.resolve_left fun hp =>
        hloose p.id rfl (reaches_element (rowFits_pair.mp hrow).2.1 hp)
      cases post with
      | nil => simp at hpost
      | cons y post =>
        obtain ⟨hpair, rfl⟩ := List.cons.inj hpulled
        obtain rfl := (Prod.mk.inj hpair).2
        simp only [rowIds_cons, Multiset.mem_add, Multiset.mem_singleton] at hpost
        rcases hpost with rfl | hpost
        · rw [(rowFits_cons.mp hrow).2.2.isSequence] at hnot
          cases hnot
        · exact hpost

/-- A chain in the place of the element of a cell. -/
theorem cells_replace {chain new : NodeId} {news : List (NodeId × NodeId)} (h : t.Linked t.root)
    (hfirst : t.Reaches t.root first) (hcells : t.cells first = before ++ (cell, head) :: after)
    (hchain : t.Detached chain) (hnew : t.cells chain = (chain, new) :: news) :
    ∃ t', (replace cell chain).run.run t = (.ok (), t') ∧
      t'.cells first = before ++ (cell, new) :: (news ++ after) ∧
      t.Untouched t' cell (some head) := by
  obtain ⟨x, path, pre, p, post, hroot, hx, hn, hpath, rfl, rfl, rfl, rfl⟩ :=
    h.exists_through hfirst hcells
  have hsequence : t.isSequence chain = true := by
    by_contra hnot
    rw [cells, cellsUpTo_eq_nil (Bool.eq_false_of_not_eq_true hnot)] at hnew
    cases hnew
  obtain ⟨q, rest, hfits, hnq⟩ := hchain.linked.exists_chain hsequence
  rw [hfits.cells hnq rfl] at hnew
  obtain ⟨hpair, rfl⟩ := List.cons.inj hnew
  obtain rfl := (Prod.mk.inj hpair).2
  obtain ⟨up, hrow, -⟩ := hx.rowFits_of_down hn hpath
  have hn' : (x.ids + rowIds ((chain, q) :: rest)).Nodup :=
    hx.nodup_add (y := .chain chain q rest) hfits hn hnq (hroot ▸ hchain.ne_root.symm)
  obtain ⟨t', x', hrun, hout, hsplice⟩ := hx.run_replaceCell hpath hfits hn'
  refine ⟨t', ?_, ?_, ?_⟩
  · rw [hchain.run_replace, hrow.isSequence, hsequence]
    exact hrun
  · rw [hsplice.cells, links_append]
    rfl
  · have halters := alters_replaceCell hrow.isSequence hsequence hrun
    refine halters.untouched hroot hx hn hsplice.turns ?_ ?_
    · intro i hi hmem
      rcases List.mem_cons.mp hi with rfl | hi
      · rfl
      · -- The last cell of the new chain was not in the formula.
        obtain ⟨y, hlast⟩ : ∃ y, ((chain, q) :: rest).getLast? = some y :=
          ⟨_, List.getLast?_eq_some_getLast (List.cons_ne_nil _ _)⟩
        rw [hfits.lastCell hnq rfl hlast, List.mem_singleton] at hi
        rw [hi] at hmem
        exact absurd (cell_mem_rowIds (List.mem_of_getLast? hlast))
          (Multiset.disjoint_left.mp (Multiset.nodup_add.mp hn').2.2 hmem)
    · intro i hi hnot hloose
      refine hsplice.mem_of_element hx hn hpath hi hnot fun hmem => Or.inr ?_
      have hpost := hmem.resolve_left fun hp =>
        hloose p.id rfl (reaches_element (rowFits_pair.mp hrow).2.1 hp)
      rw [rowIds_append]
      exact Multiset.mem_add.mpr (Or.inr hpost)

/-- An element beside that of a cell. -/
theorem cells_insert {node : NodeId} (h : t.Linked t.root) (hfirst : t.Reaches t.root first)
    (hcells : t.cells first = before ++ (cell, head) :: after) (hnode : t.Detached node)
    (helement : t.isSequence node = false) :
    ∃ p q : Plan, p.id = head ∧ q.id = node ∧ ∀ program p' q', Inserts cell p q program p' q' →
      ∃ t', program.run.run t = (.ok t.size, t') ∧
        t'.cells first = before ++ (cell, p'.id) :: (t.size, q'.id) :: after ∧
        t.Untouched t' cell none := by
  obtain ⟨x, path, pre, p, post, hroot, hx, hn, hpath, rfl, rfl, rfl, rfl⟩ :=
    h.exists_through hfirst hcells
  obtain ⟨q, rfl, hq, hnq⟩ := hnode.linked.exists_element helement
  have hn' : (x.ids + q.ids).Nodup :=
    hx.nodup_add (y := .element q) hq hn hnq (hroot ▸ hnode.ne_root.symm)
  refine ⟨p, q, rfl, rfl, fun program p' q' hinserts => ?_⟩
  obtain ⟨t', x', hrun, hsplice⟩ := hx.run_insert hpath hinserts hq hn'
  have halters : t.Alters t' [cell] := by
    cases hinserts
    · exact alters_insertAfter hrun
    · exact alters_insertBefore hrun
  refine ⟨t', hrun, hsplice.cells, halters.untouched hroot hx hn hsplice.turns
    (fun i hi _ => List.mem_singleton.mp hi) fun i hi hnot _ => ?_⟩
  refine hsplice.mem_of_element hx hn hpath hi hnot fun hmem => ?_
  rw [rowIds_cons, Multiset.mem_add, Multiset.mem_add]
  cases hinserts <;> tauto

end

/-- An element in the place of another, wherever it hangs. -/
theorem node_replace {old new : NodeId} (h : t.Sound) (hold : t.Reaches t.root old)
    (helement : t.isSequence old = false) (hnew : t.Detached new)
    (helement' : t.isSequence new = false) :
    ∃ t' parent, (replace old new).run.run t = (.ok (), t') ∧ t.parent old = some parent ∧
      (t.node parent).Exchanged old new (t'.node parent) ∧ t.Untouched t' parent (some old) := by
  obtain ⟨x, hroot, hx, hn⟩ := h.linked.exists_part
  obtain ⟨q, rfl, hq, hnq⟩ := hnew.linked.exists_element helement'
  have hn' : (x.ids + q.ids).Nodup :=
    hx.nodup_add (y := .element q) hq hn hnq (hroot ▸ hnew.ne_root.symm)
  rcases hold.cases with rfl | ⟨parent, hparent, hmem⟩
  · rw [h.isSequence_root] at helement
    cases helement
  rw [← hroot] at hparent
  obtain ⟨path, y, up, hy, rfl, hfits⟩ := hx.exists_of_reaches hparent
  obtain ⟨k, p, hk, rfl⟩ := hfits.exists_element hmem helement
  obtain ⟨t', x', hrun, hout, hsplice⟩ := hx.run_replaceElement hy hk hq hn'
  have hp : p.Fits t (some y.id) := hfits.children _ (List.mem_of_getElem? hk)
  refine ⟨t', y.id, ?_, hp.parent, ?_, ?_⟩
  · rw [hnew.run_replace, helement, helement']
    exact hrun
  · obtain ⟨up', hfits'⟩ := hsplice.turns.fits.down hsplice.down
    have hnode := hfits'.node
    rw [Part.exchange_id] at hnode
    rw [hfits.node, hnode]
    exact Part.exchanged hk q
  · refine (alters_replaceElement hrun).untouched hroot hx hn hsplice.turns ?_ ?_
    · rw [hp.parent]
      rintro i hi -
      exact List.mem_singleton.mp hi
    · intro i hi hnot hloose
      refine hsplice.mem (Multiset.nodup_of_le (Part.ids_le_of_down hy) hn) hi fun hmem => ?_
      have hboth : i ∈ (y.exchange q k).ids + p.ids := by
        rw [Part.ids_exchange hk]
        exact Multiset.mem_add.mpr (Or.inl hmem)
      exact (Multiset.mem_add.mp hboth).resolve_right fun hi =>
        hloose p.id rfl (reaches_element hp hi)

/-- A formula of a literal and a script, and beside it a loose literal and a loose chain. -/
def twoElements : Tree where
  slots := #[⟨.literal "a", some 4, .point 0⟩, ⟨.literal "b", some 2, .point 0⟩,
    ⟨.script .subscript 1, some 3, .point 0⟩, ⟨.sequence 2 none, some 4, .point 0⟩,
    ⟨.sequence 0 (some 3), none, .point 0⟩, ⟨.literal "c", none, .point 0⟩,
    ⟨.literal "d", some 7, .point 0⟩, ⟨.sequence 6 none, none, .point 0⟩]
  root := 4

end Tree

end Formulary
