import Formulary.Proofs.Traversal
import Formulary.Tree.Printer

/-!
# The text in snippets

The text of a formula is put together from snippets, each of which one node brings: a literal its
text, a group its fences, a command its name. `Tree.snippets` lists them in the order of the text,
with the nodes that bring them and a mark at the names of blocks.

So where a node stands in the text can be said without counting characters. What a visit and a walk
show has the literals in the order of their snippets (`Tree.Linked.traversals_agree`).
-/

namespace Formulary

/-- A snippet of a text, and the node that brings it. -/
structure Snippet where
  owner : NodeId
  text : String
  /-- Whether it is the name of a block. -/
  isName : Bool
  deriving DecidableEq, Repr

namespace Tree

variable {t : Tree} {id top : NodeId}

/-- The snippets of the text of a node down to a depth. -/
def snippetsUpTo (t : Tree) : Nat → NodeId → List Snippet
  | 0, _ => []
  | depth + 1, id =>
    match t.node id with
    | .literal text => [⟨id, text, false⟩]
    | .empty => []
    | .sequence head none => t.snippetsUpTo depth head
    | .sequence head (some next) => t.snippetsUpTo depth head ++ t.snippetsUpTo depth next
    | .group fence inner =>
      ⟨id, fence.opening.text, false⟩ :: (t.snippetsUpTo depth inner ++
        [⟨id, fence.closing.text, false⟩])
    | .script marker operand => ⟨id, marker.symbol.text, false⟩ :: t.snippetsUpTo depth operand
    | .command name parameters =>
      ⟨id, r"\" ++ name, false⟩ :: parameters.flatMap (t.snippetsUpTo depth)
    | .block name parameters body =>
      [⟨id, r"\begin{", false⟩, ⟨id, name, true⟩, ⟨id, r"}", false⟩] ++
        (parameters.flatMap (t.snippetsUpTo depth) ++ t.snippetsUpTo depth body) ++
        [⟨id, r"\end{", false⟩, ⟨id, name, true⟩, ⟨id, r"}", false⟩]

/-- The snippets of the text of a node. -/
def snippets (t : Tree) (id : NodeId) : List Snippet := t.snippetsUpTo t.size id

/-- The text of a node is that of its snippets. -/
theorem textUpTo_eq_join (t : Tree) (depth : Nat) (id : NodeId) :
    t.textUpTo depth id = String.join ((t.snippetsUpTo depth id).map Snippet.text) := by
  induction depth generalizing id with
  | zero => rfl
  | succ depth ih =>
    have hall : ∀ is : List NodeId, String.join (is.map (t.textUpTo depth)) =
        String.join ((is.flatMap (t.snippetsUpTo depth)).map Snippet.text) := by
      intro is
      induction is with
      | nil => rfl
      | cons i is ihis =>
        rw [List.map_cons, String.join_cons, ih, ihis, List.flatMap_cons, List.map_append,
          String.join_append]
    rw [textUpTo, snippetsUpTo]
    cases t.node id with
    | literal | empty => simp
    | sequence head tail => cases tail <;> simp [ih]
    | group fence inner => simp [ih, String.append_assoc]
    | script marker operand => simp [ih]
    | command name parameters => simp [hall]
    | block name parameters body => simp [hall, ih, String.append_assoc]

theorem nodeText_eq_join (t : Tree) (id : NodeId) :
    t.nodeText id = String.join ((t.snippets id).map Snippet.text) := t.textUpTo_eq_join t.size id

/-- The text of a literal, with its position. -/
def literalAt? (t : Tree) (id : NodeId) : Option (NodeId × String) :=
  (t.node id).literal?.map fun text => (id, text)

/-- A snippet that a literal brings, with the position of the literal. -/
def ofLiteral? (t : Tree) (x : Snippet) : Option (NodeId × String) :=
  if (t.node x.owner).literal?.isSome then some (x.owner, x.text) else none

theorem literalAt?_of_isSequence (h : t.isSequence id = true) : t.literalAt? id = none := by
  obtain ⟨head, tail, hnode⟩ := exists_of_isSequence h
  rw [literalAt?, hnode]
  rfl

theorem ofLiteral?_eq_none {text : String} {isName : Bool} (h : (t.node id).literal? = none) :
    t.ofLiteral? ⟨id, text, isName⟩ = none := by
  rw [ofLiteral?, h]
  rfl

/-- A visit shows the literals in the order in which the text has them. -/
theorem Ends.literals {limit : Nat} (h : t.Ends limit id) :
    (t.snippetsUpTo limit id).filterMap t.ofLiteral? =
      (id :: t.shownBelow limit id).filterMap t.literalAt? := by
  induction limit generalizing id with
  | zero => exact absurd (h.length_lt [] id rfl) (Nat.not_lt_zero _)
  | succ limit ih =>
    have hchild : ∀ child ∈ (t.node id).children,
        (t.snippetsUpTo limit child).filterMap t.ofLiteral? =
          (child :: t.shownBelow limit child).filterMap t.literalAt? :=
      fun child hmem => ih (h.child hmem)
    have hall : ∀ is ⊆ (t.node id).children,
        (is.flatMap (t.snippetsUpTo limit)).filterMap t.ofLiteral? =
          (is.flatMap fun child => child :: t.shownBelow limit child).filterMap t.literalAt? := by
      intro is hsub
      rw [List.filterMap_flatMap, List.filterMap_flatMap]
      exact List.flatMap_congr fun child hmem => hchild child (hsub hmem)
    have hproper := h.proper id (Reaches.refl id)
    -- A node that is no literal brings no snippet of a literal, and is none when it is shown.
    have hnot : (t.node id).literal? = none → t.literalAt? id = none ∧
        ∀ text isName, t.ofLiteral? ⟨id, text, isName⟩ = none := fun hliteral =>
      ⟨by rw [literalAt?, hliteral]; rfl, fun _ _ => ofLiteral?_eq_none hliteral⟩
    rw [snippetsUpTo, shownBelow]
    cases hnode : t.node id with
    | literal text => simp [ofLiteral?, literalAt?, hnode, Node.literal?, Node.children]
    | empty => simp [literalAt?, hnode, Node.literal?, Node.children]
    | sequence head tail =>
      rw [hnode] at hchild hproper hnot
      have hhead := hchild head List.mem_cons_self
      cases tail with
      | none => simpa [(hnot rfl).1, Node.children] using hhead
      | some next =>
        have hnext := hchild next (by simp [Node.children])
        rw [List.filterMap_cons_none (literalAt?_of_isSequence (hproper.2 next rfl))] at hnext
        rw [List.filterMap_append, hhead, hnext, List.filterMap_cons_none (hnot rfl).1,
          List.filterMap_append]
    | group _ inner | script _ inner =>
      rw [hnode] at hchild hnot
      simp [(hnot rfl).1, (hnot rfl).2, hchild inner List.mem_cons_self, Node.children]
    | command name parameters =>
      rw [hnode] at hall hnot
      simp [(hnot rfl).1, (hnot rfl).2, hall parameters (List.Subset.refl _), Node.children]
    | block name parameters body =>
      rw [hnode] at hchild hall hnot
      simp [(hnot rfl).1, (hnot rfl).2, hall parameters (List.subset_append_left _ _),
        hchild body (by simp [Node.children]), Node.children]

end Tree

/-! ## Visits and walks -/

/-- Notes every node that it is shown, and goes into it. -/
def Visitor.noteNodes {ε : Type} : Visitor (List NodeId) ε := fun id => do
  Walk.note (· ++ [id])
  Walk.descend

theorem Visitor.steady_noteNodes {ε : Type} : (Visitor.noteNodes (ε := ε)).Steady :=
  fun id t seen => ⟨t, seen ++ [id], rfl, .refl t⟩

theorem run_noteNodes {ε : Type} (t : Tree) (is seen : List NodeId) :
    (forM is Visitor.noteNodes.enter : Walk (List NodeId) ε Unit).run.run (t, seen) =
      some (.ok (), t, seen ++ is) := by
  induction is generalizing seen with
  | nil =>
    rw [List.append_nil]
    rfl
  | cons i is ih =>
    rw [List.append_cons]
    exact ih (seen ++ [i])

/-- A walk that notes what it is shown and a visit have the same nodes in the same order. This is
the order of children, from which the later cells of chains are left out: everything else that is
reached comes up once. The literals among them follow each other as in the text. -/
theorem Tree.Linked.traversals_agree {ε : Type} {t : Tree} {top : NodeId} (h : t.Linked top) :
    (∃ enough, ∀ n, enough ≤ n →
      (Walk.through Visitor.noteNodes n top : Walk (List NodeId) ε Unit).run.run (t, []) =
        some (.ok (), t, t.visited top)) ∧
    t.visited top = (t.preorder top).filter (fun i => !t.isTailCell i) ∧
    (t.visited top).Nodup ∧
    (∀ i, i ∈ t.visited top ↔ t.Reaches top i ∧ t.isTailCell i = false) ∧
    t.nodeText top = String.join ((t.snippets top).map Snippet.text) ∧
    (t.snippets top).filterMap t.ofLiteral? = (t.visited top).filterMap t.literalAt? := by
  refine ⟨?_, h.visited_eq_filter, h.nodup_visited, fun i => h.mem_visited,
    t.nodeText_eq_join top, ?_⟩
  · obtain ⟨t', seen, hrun, hleads⟩ := h.walks_as_visit Visitor.steady_noteNodes []
    rw [run_noteNodes] at hrun
    cases hrun
    exact hleads
  · rw [snippets, h.ends.literals, visited_eq]

/-- Three of the cells are later ones, and the parameter of the block comes before its body. -/
theorem Tree.Linked.traversals_agree_block :
    ∃ t, parseMath r"a^b\begin{array}{c}x\end{array}\frac{y}{z}" = .ok t ∧
      t.Linked t.root ∧ (t.preorder t.root).filter t.isTailCell = [26, 25, 22] ∧
      t.visited t.root = [27, 0, 2, 1, 28, 8, 7, 6, 24, 10, 21, 17, 16, 15, 20, 19, 18] ∧
      (∃ enough, ∀ n, enough ≤ n →
        (Walk.through Visitor.noteNodes n t.root : Walk (List NodeId) Fault Unit).run.run (t, []) =
          some (.ok (), t, t.visited t.root)) ∧
      ((t.snippets t.root).filterMap t.ofLiteral?).map Prod.snd = ["a", "b", "c", "x", "y", "z"] := by
  have hread : (parseMath
      r"a^b\begin{array}{c}x\end{array}\frac{y}{z}").toOption.map (fun t =>
        ((t.preorder t.root).filter t.isTailCell, t.visited t.root,
          ((t.visited t.root).filterMap t.literalAt?).map Prod.snd)) =
      some ([26, 25, 22], [27, 0, 2, 1, 28, 8, 7, 6, 24, 10, 21, 17, 16, 15, 20, 19, 18],
        ["a", "b", "c", "x", "y", "z"]) := by decide +kernel
  obtain ⟨t, hparse, hout⟩ := Option.map_eq_some_iff.mp hread
  replace hparse := Tree.eq_ok_of_toOption hparse
  obtain ⟨fs, hfs, -⟩ := parseMath_sound hparse
  obtain ⟨hcells, hvisited, hliterals⟩ : _ ∧ _ ∧ _ := by simpa only [Prod.mk.injEq] using hout
  obtain ⟨hwalk, -, -, -, -, hsnippets⟩ := Tree.Linked.traversals_agree hfs.linked
  exact ⟨t, hparse, hfs.linked, hcells, hvisited, hwalk, by rw [hsnippets, hliterals]⟩

end Formulary
