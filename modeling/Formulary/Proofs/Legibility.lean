import Formulary.Proofs.Expansion

/-!
# When an expanded formula can be read back

Expansion puts elements next to each other that no text had there, and writing puts nothing between
them. So the text of an expanded formula may say something else: `\b` before `c` is written `\bc`,
which is one command.

What can go wrong is said by `Shape.Legible`, of the formula with its blocks spread out: a command
made of letters takes what stands after it for more of its name or for a parameter, a bracket in a
literal ends the group around it, and a bracket or a bracketed group cannot be an operand. Nothing
else can. Elements that are empty leave no trace in a text and literals that meet are read as one, so
all this is about the formula after merging (`Shape.mergeRow`).
-/

namespace Formulary

namespace Shape

variable {f : Shape} {fs : List Shape} {place : Place} {name : String} {parameters : List Shape}

/-! ## Merging -/

mutual

/-- An element with the chains under it merged. -/
def merge : Shape → Shape
  | .literal text => .literal text
  | .empty => .empty
  | .group fence inner => .group fence (chain (mergeRow inner))
  | .script marker operand => .script marker operand.merge
  | .command name parameters => .command name (mergeRow parameters)
  | .block name parameters body => .block name (mergeRow parameters) (chain (mergeRow body))

/-- Elements without those that are empty, and with literals that meet made one. -/
def mergeRow : List Shape → List Shape
  | [] => []
  | f :: fs => if f.isEmpty then mergeRow fs else join f.merge (mergeRow fs)

end

@[simp] theorem mergeRow_nil : mergeRow [] = [] := by rw [mergeRow]

theorem mergeRow_empty (fs : List Shape) : mergeRow (.empty :: fs) = mergeRow fs := by
  rw [mergeRow, isEmpty, if_pos rfl]

theorem mergeRow_cons (h : f.isEmpty = false) (fs : List Shape) :
    mergeRow (f :: fs) = join f.merge (mergeRow fs) := by
  rw [mergeRow, h, if_neg Bool.false_ne_true]

mutual

theorem chars_merge : ∀ f : Shape, f.merge.chars = f.chars
  | .literal text | .empty => by rw [merge]
  | .group fence inner => by rw [merge, chars, chars, charsOf_chain, charsOf_mergeRow inner]
  | .script marker operand => by rw [merge, chars, chars, chars_merge operand]
  | .command name parameters => by rw [merge, chars, chars, charsOf_mergeRow parameters]
  | .block name parameters body => by
    rw [merge, chars, chars, charsOf_chain, charsOf_mergeRow parameters, charsOf_mergeRow body]

theorem charsOf_mergeRow : ∀ fs : List Shape, charsOf (mergeRow fs) = charsOf fs
  | [] => by rw [mergeRow]
  | f :: fs => by
    rw [charsOf_cons, mergeRow]
    split
    · rename_i hempty
      cases f with
      | empty => rw [chars, List.nil_append, charsOf_mergeRow fs]
      | literal | group | script | command | block => cases hempty
    · rw [charsOf_join, chars_merge f, charsOf_mergeRow fs]

end

theorem isAtomic_merge (f : Shape) : f.merge.isAtomic = f.isAtomic := by
  cases f <;> rw [merge] <;> rfl

theorem isGroup_merge (f : Shape) : f.merge.isGroup = f.isGroup := by
  cases f <;> rw [merge] <;> rfl

/-- Groups stay apart when they are merged. -/
theorem mergeRow_groups (h : ∀ f ∈ fs, f.isGroup = true) : mergeRow fs = fs.map merge := by
  induction fs with
  | nil => rw [mergeRow, List.map_nil]
  | cons f fs ih =>
    rw [List.forall_mem_cons] at h
    cases f with
    | group fence inner =>
      rw [mergeRow_cons rfl, ih h.2, join_of_not_literal, List.map_cons]
      rintro g - ⟨hliteral, -⟩
      rw [merge] at hliteral
      cases hliteral
    | literal | empty | script | command | block => cases h.1

theorem isGroup_mergeRow (h : ∀ f ∈ fs, f.isGroup = true) :
    ∀ f ∈ mergeRow fs, f.isGroup = true := by
  rw [mergeRow_groups h, List.forall_mem_map]
  intro f hf
  rw [isGroup_merge]
  exact h f hf

/-- Joining texts leaves a chain neat. -/
theorem NeatRow.join (hf : f.Neat) (hfs : NeatRow fs) : NeatRow (Shape.join f fs) := by
  unfold Shape.join
  split
  · rename_i text text' fs
    rw [neatRow_cons] at hfs
    rw [neatRow_cons]
    rw [Neat] at *
    refine ⟨⟨?_, ?_⟩, hfs.2⟩
    · intro hnil
      exact hf.1 (by simp_all)
    · rw [String.toList_append]
      exact hf.2.append hfs.1.2
  · exact neatRow_cons.mpr ⟨hf, hfs⟩

mutual

/-- Merging the literals of a neat element leaves it neat. -/
theorem Neat.merge : ∀ {f : Shape}, f.Neat → f.merge.Neat
  | .literal text, h | .empty, h => by rwa [Shape.merge]
  | .group fence inner, h => by
    rw [Neat] at h
    rw [Shape.merge, Neat]
    exact ⟨chain_ne_nil _, neatRow_chain.mpr (NeatRow.mergeRow h.2)⟩
  | .script marker operand, h => by
    rw [Neat] at h
    rw [Shape.merge, Neat, isAtomic_merge]
    exact ⟨h.1, Neat.merge h.2⟩
  | .command name parameters, h => by
    rw [Neat] at h
    obtain ⟨hname, hmark, hgroups, hneat⟩ := h
    rw [Shape.merge, Neat]
    refine ⟨hname, fun hmarked => ?_, isGroup_mergeRow hgroups, NeatRow.mergeRow hneat⟩
    rw [hmark hmarked, mergeRow_nil]
  | .block name parameters body, h => by
    rw [Neat] at h
    obtain ⟨hname, hgroups, hneat, -, hbody⟩ := h
    rw [Shape.merge, Neat]
    exact ⟨hname, isGroup_mergeRow hgroups, NeatRow.mergeRow hneat, chain_ne_nil _,
      neatRow_chain.mpr (NeatRow.mergeRow hbody)⟩

theorem NeatRow.mergeRow : ∀ {fs : List Shape}, NeatRow fs → NeatRow (Shape.mergeRow fs)
  | [], _ => by
    rw [mergeRow_nil]
    exact neatRow_nil
  | f :: fs, h => by
    rw [neatRow_cons] at h
    rw [Shape.mergeRow]
    split
    · exact NeatRow.mergeRow h.2
    · exact NeatRow.join (Neat.merge h.1) (NeatRow.mergeRow h.2)

end

/-! ## Legibility -/

/-- Whether an element stands after another one without being taken for a part of it. A command made
of letters takes groups for parameters, a bracket for the beginning of one, and letters for more of
its name as long as it has no parameter. -/
def Apart (f g : Shape) : Prop :=
  ∀ parameters, f.trailing = some parameters → g.isGroup = false ∧
    ∀ text, g = .literal text → ∀ c ∈ text.toList.head?,
      c ≠ Symbol.leftBracket.char ∧ (parameters = [] → Text.isLetter c = false)

mutual

/-- Whether an element is read back at its place as far as this depends on what is around it. A
literal holds no bracket that would end its chain, an operand is no bracket, and groups between
brackets are parameters. -/
def Clear : Place → Shape → Prop
  | .chain closer, .literal text => Written closer text.toList
  | .operand, .literal text => text ≠ "[" ∧ text ≠ "]"
  | place, .group fence inner =>
    (place ≠ .parameter → fence = .braces) ∧ ClearAll (.chain (some fence.closing)) inner ∧
      inner.IsChain Apart
  | _, .script _ operand => Clear .operand operand
  | _, .command _ parameters => ClearAll .parameter parameters
  | _, _ => True

/-- The same for elements at places of one kind. -/
def ClearAll (place : Place) : List Shape → Prop
  | [] => True
  | f :: fs => Clear place f ∧ ClearAll place fs

end

/-- The text of a formula means what the formula does. -/
def Legible (fs : List Shape) : Prop :=
  ClearAll (.chain none) (spreadRow fs) ∧ (spreadRow fs).IsChain Apart

@[simp] theorem clearAll_nil (place : Place) : ClearAll place [] := by
  rw [ClearAll]
  trivial

@[simp] theorem clearAll_cons : ClearAll place (f :: fs) ↔ Clear place f ∧ ClearAll place fs := by
  rw [ClearAll]

theorem clear_group {fence : Fence} {inner : List Shape} :
    Clear place (.group fence inner) ↔ (place ≠ .parameter → fence = .braces) ∧
      ClearAll (.chain (some fence.closing)) inner ∧ inner.IsChain Apart := by
  cases place <;> rw [Clear]

theorem clear_script {marker : Marker} {operand : Shape} :
    Clear place (.script marker operand) ↔ Clear .operand operand := by
  cases place <;> rw [Clear]

theorem clear_command :
    Clear place (.command name parameters) ↔ ClearAll .parameter parameters := by
  cases place <;> rw [Clear]

/-! ## What does not depend on the neighbours -/

/-- Two elements that are not both literals. -/
def Unlike (f g : Shape) : Prop := ¬(f.isLiteral = true ∧ g.isLiteral = true)

theorem isChain_mayFollow_iff (h : fs.IsChain Unlike) :
    fs.IsChain MayFollow ↔ fs.IsChain Apart := by
  induction fs with
  | nil => simp
  | cons f fs ih =>
    rw [List.isChain_cons] at h
    rw [List.isChain_cons, List.isChain_cons, ih h.2]
    refine and_congr_left fun _ => forall₂_congr fun g hg => ?_
    rw [MayFollow, Apart]
    exact and_iff_right (h.1 g hg)

mutual

/-- An element without blocks that could be read somewhere, with merged chains under it. -/
def Lawful : Shape → Prop
  | .literal text => text ≠ "" ∧ Written none text.toList
  | .group _ inner =>
    inner = [.empty] ∨ inner ≠ [] ∧ LawfulAll inner ∧ inner.IsChain Unlike
  | .script _ operand => operand.isAtomic = true ∧ operand.Lawful
  | .command name parameters =>
    (isMark name = true ∧ parameters = [] ∨ isWord name = true) ∧
      (∀ p ∈ parameters, p.isGroup = true) ∧ LawfulAll parameters
  | .empty | .block .. => False

/-- The same for some elements. -/
def LawfulAll : List Shape → Prop
  | [] => True
  | f :: fs => f.Lawful ∧ LawfulAll fs

end

@[simp] theorem lawfulAll_nil : LawfulAll [] := by
  rw [LawfulAll]
  trivial

@[simp] theorem lawfulAll_cons : LawfulAll (f :: fs) ↔ f.Lawful ∧ LawfulAll fs := by
  rw [LawfulAll]

@[simp] theorem lawfulAll_append {gs : List Shape} :
    LawfulAll (fs ++ gs) ↔ LawfulAll fs ∧ LawfulAll gs := by
  induction fs with
  | nil => simp
  | cons f fs ih => simp [ih, and_assoc]

theorem lawfulAll_iff : LawfulAll fs ↔ ∀ f ∈ fs, f.Lawful := by
  induction fs with
  | nil => simp
  | cons f fs ih => simp [ih]

theorem LawfulAll.ne_empty (h : LawfulAll fs) : fs ≠ [.empty] := by
  rintro rfl
  rw [lawfulAll_cons, Lawful] at h
  exact h.1

/-- What is inside of a group is read if nothing interferes with its elements. -/
theorem Lawful.canonicalChain_iff {closer : Option Symbol} {fence : Fence}
    (h : (Shape.group fence fs).Lawful)
    (hall : LawfulAll fs → (AllCanonical (.chain closer) fs ↔ ClearAll (.chain closer) fs)) :
    CanonicalChain closer fs ↔ ClearAll (.chain closer) fs ∧ fs.IsChain Apart := by
  rw [Lawful] at h
  rcases h with rfl | ⟨hne, hlawful, hunlike⟩
  · simp [CanonicalChain, Clear]
  · rw [CanonicalChain, or_iff_right hlawful.ne_empty, and_iff_right hne, hall hlawful,
      isChain_mayFollow_iff hunlike]

/-- An operand that could be read somewhere is read as an operand, unless it is a bracket. -/
theorem canonical_operand_literal {text : String} (h : Written none text.toList)
    (hatomic : (literal text).isAtomic = true) :
    Canonical .operand (.literal text) ↔ text ≠ "[" ∧ text ≠ "]" := by
  rw [Canonical, ← String.toList_inj.ne, ← String.toList_inj.ne]
  rw [isAtomic] at hatomic
  generalize text.toList = cs at *
  cases h with
  | nil => cases hatomic
  | @plain c cs hc _ =>
    have hne : ∀ s : Symbol, c ≠ s.char := fun s => (isPlain_iff.mp hc s).symm
    obtain rfl : cs = [] := by
      rcases cs with _ | ⟨d, _ | ⟨e, cs⟩⟩
      · rfl
      · exact absurd (beq_iff_eq.mp hatomic) (hne .backslash)
      · cases hatomic
    refine iff_of_true (Or.inl ⟨c, hc, rfl⟩) ⟨?_, ?_⟩
    · exact fun heq => hne .leftBracket (List.cons.inj heq).1
    · exact fun heq => hne .rightBracket (List.cons.inj heq).1
  | @bracket s cs hs _ _ =>
    obtain rfl : cs = [] := by
      rcases cs with _ | ⟨d, _ | ⟨e, cs⟩⟩
      · rfl
      · rcases hs with rfl | rfl <;> cases hatomic
      · cases hatomic
    refine iff_of_false ?_ fun h => ?_
    · rintro (⟨c, hc, heq⟩ | ⟨s', heq⟩)
      · exact isPlain_iff.mp hc s (List.cons.inj heq).1
      · cases (List.cons.inj heq).2
    · rcases hs with rfl | rfl
      · exact h.1 rfl
      · exact h.2 rfl
  | @escape s cs _ =>
    obtain rfl : cs = [] := by
      cases cs with
      | nil => rfl
      | cons d cs => cases hatomic
    exact iff_of_true (Or.inr ⟨s, rfl⟩) ⟨by simp, by simp⟩

mutual

/-- An element that could be read somewhere is read at its place if nothing around it interferes. -/
theorem canonical_iff_clear : ∀ {f : Shape} {place : Place}, f.Lawful →
    (place = .operand → f.isAtomic = true) → (place = .parameter → f.isGroup = true) →
    (Canonical place f ↔ Clear place f)
  | .literal text, place, h, hoperand, hparameter => by
    rw [Lawful] at h
    cases place with
    | chain closer =>
      rw [canonical_literal, Clear, and_iff_right h.1]
    | operand => rw [canonical_operand_literal h.2 (hoperand rfl), Clear]
    | parameter => cases hparameter rfl
  | .empty, _, h, _, _ => by
    rw [Lawful] at h
    exact h.elim
  | .block .., _, h, _, _ => by
    rw [Lawful] at h
    exact h.elim
  | .group fence inner, place, h, _, _ => by
    rw [canonical_group, clear_group, and_congr_right_iff]
    intro _
    exact h.canonicalChain_iff fun hlawful => allCanonical_iff_clearAll hlawful nofun nofun
  | .script marker operand, place, h, hoperand, hparameter => by
    rw [Lawful] at h
    cases place with
    | chain closer =>
      rw [canonical_script, clear_script]
      exact canonical_iff_clear h.2 (fun _ => h.1) nofun
    | operand => cases hoperand rfl
    | parameter => cases hparameter rfl
  | .command name parameters, place, h, _, hparameter => by
    rw [Lawful] at h
    obtain ⟨hname, hgroups, hlawful⟩ := h
    have hplace : place ≠ .parameter := by
      intro hplace
      cases hparameter hplace
    have hall : AllCanonical .parameter parameters ↔ ClearAll .parameter parameters :=
      allCanonical_iff_clearAll hlawful nofun fun _ => hgroups
    rw [canonical_command, clear_command, and_iff_right hplace, hall]
    rcases hname with ⟨hmark, rfl⟩ | hword
    · simp [hmark]
    · rw [and_iff_right hword]
      refine or_iff_right_of_imp ?_
      rintro ⟨-, rfl⟩
      exact clearAll_nil _

theorem allCanonical_iff_clearAll : ∀ {fs : List Shape} {place : Place}, LawfulAll fs →
    (place = .operand → ∀ f ∈ fs, f.isAtomic = true) →
    (place = .parameter → ∀ f ∈ fs, f.isGroup = true) →
    (AllCanonical place fs ↔ ClearAll place fs)
  | [], _, _, _, _ => by simp
  | f :: fs, place, h, hoperand, hparameter => by
    simp only [List.forall_mem_cons] at hoperand hparameter
    rw [lawfulAll_cons] at h
    rw [allCanonical_cons, clearAll_cons,
      canonical_iff_clear h.1 (fun hp => (hoperand hp).1) fun hp => (hparameter hp).1,
      allCanonical_iff_clearAll h.2 (fun hp => (hoperand hp).2) fun hp => (hparameter hp).2]

end

/-! ## Neat formulas -/

theorem isAtomic_spread (h : f.isAtomic = true) : f.spread.isAtomic = true := by
  cases f with
  | literal text => exact h
  | group fence inner => rw [spread_group]; rfl
  | command name parameters => rw [spread_command]; rfl
  | empty | script | block => cases h

theorem exists_of_isLiteral (h : f.isLiteral = true) : ∃ text, f = .literal text := by
  cases f with
  | literal text => exact ⟨text, rfl⟩
  | empty | group | script | command | block => cases h

theorem isEmpty_of_isAtomic (h : f.isAtomic = true) : f.isEmpty = false := by
  cases f with
  | empty => cases h
  | literal | group | script | command | block => rfl

theorem isGroup_spreadRow (h : ∀ f ∈ fs, f.isGroup = true) :
    ∀ f ∈ spreadRow fs, f.isGroup = true := by
  have heq := spreadRow_groups h []
  rw [List.append_nil, spreadRow_nil, List.append_nil] at heq
  rw [heq, List.forall_mem_map]
  intro f hf
  rw [isGroup_spread]
  exact h f hf

theorem contents_spreadRow_chain (h : LawfulAll (spreadRow fs)) :
    contents (spreadRow (chain fs)) = spreadRow fs := by
  cases fs with
  | nil => rw [chain_nil, spreadRow_cons, spreadRow_nil, spreadOnto, contents]
  | cons f fs => rw [chain_cons, contents_of_ne h.ne_empty]

/-- A chain as it is read, but for what stands next to each other. -/
def LawfulChain (fs : List Shape) : Prop := LawfulAll fs ∧ fs.IsChain Unlike

theorem lawful_delimiter {side : Delimiting} (hname : BlockMarker.isName name = true)
    (hgroups : ∀ p ∈ parameters, p.isGroup = true) (h : LawfulAll parameters) :
    (delimiter side name parameters).Lawful := by
  obtain ⟨hne, hplain⟩ := isPlain_of_isName hname
  have hliteral : (Shape.literal name).Lawful := by
    rw [Lawful]
    exact ⟨hne, .of_plain hplain⟩
  have hbraces : (Shape.group .braces [.literal name]).Lawful := by
    rw [Lawful, lawfulAll_cons]
    exact Or.inr ⟨List.cons_ne_nil _ _, ⟨hliteral, lawfulAll_nil⟩, .singleton _⟩
  rw [delimiter, Lawful, List.forall_mem_cons, lawfulAll_cons]
  exact ⟨Or.inr (isWord_command side), ⟨rfl, hgroups⟩, hbraces, h⟩

/-- A block that is spread out onto lawful elements. -/
theorem LawfulChain.block {body rest : List Shape} (hname : BlockMarker.isName name = true)
    (hgroups : ∀ p ∈ parameters, p.isGroup = true) (hparameters : LawfulAll (spreadRow parameters))
    (hbody : LawfulChain (spreadRow body)) (hrest : LawfulChain rest) :
    LawfulChain ((block name parameters (chain body)).spreadOnto rest) := by
  have hopen : (delimiter .opens name (spreadRow parameters)).Lawful :=
    lawful_delimiter hname (isGroup_spreadRow hgroups) hparameters
  have hclose : (delimiter .closes name (rest.takeWhile isGroup)).Lawful := by
    refine lawful_delimiter hname (fun f hf => List.mem_takeWhile_imp hf) (lawfulAll_iff.mpr ?_)
    exact fun f hf => lawfulAll_iff.mp hrest.1 f ((List.takeWhile_sublist _).subset hf)
  have hafter : LawfulAll (rest.dropWhile isGroup) :=
    lawfulAll_iff.mpr fun f hf => lawfulAll_iff.mp hrest.1 f ((List.dropWhile_suffix _).subset hf)
  rw [spreadOnto, contents_spreadRow_chain hbody.1]
  constructor
  · rw [lawfulAll_cons, lawfulAll_append, lawfulAll_cons]
    exact ⟨hopen, hbody.1, hclose, hafter⟩
  · -- A delimiter is no literal, so nothing can meet there.
    have hdelimiter : ∀ side fs g, Unlike (delimiter side name fs) g := by
      rintro side fs g ⟨hliteral, -⟩
      cases hliteral
    rw [List.isChain_cons, List.isChain_append, List.isChain_cons]
    refine ⟨fun g _ => hdelimiter .opens _ g, hbody.2, ⟨fun g _ => hdelimiter .closes _ g, ?_⟩, ?_⟩
    · exact hrest.2.suffix (List.dropWhile_suffix _)
    · intro f _ g hg
      obtain rfl := Option.mem_some_iff.mp hg
      exact fun h => hdelimiter .closes _ f h.symm

/-- An element that is no block, joined to lawful elements. -/
theorem LawfulChain.join (hblock : f.isBlock = false) (hf : f.spread.Lawful)
    (hfs : LawfulChain (spreadRow fs)) :
    LawfulChain (spreadRow (Shape.join f fs)) := by
  unfold Shape.join
  split
  · rename_i text text' fs
    rw [spreadRow_cons, spreadOnto, LawfulChain, lawfulAll_cons, List.isChain_cons] at hfs
    rw [spread, spreadOnto] at hf
    rw [spreadRow_cons, spreadOnto, LawfulChain, lawfulAll_cons, List.isChain_cons]
    rw [Lawful] at *
    refine ⟨⟨⟨?_, ?_⟩, hfs.1.2⟩, hfs.2⟩
    · intro hnil
      exact hf.1 (by simp_all)
    · rw [String.toList_append]
      exact hf.2.append hfs.1.1.2
  · rename_i hmeet
    rw [spreadRow_cons, spreadOnto_eq hblock, LawfulChain, lawfulAll_cons, List.isChain_cons]
    refine ⟨⟨hf, hfs.1⟩, fun g hg ⟨hliteral, hliteral'⟩ => ?_, hfs.2⟩
    obtain ⟨text, htext⟩ := exists_of_isLiteral hliteral
    obtain ⟨text', rfl⟩ := exists_of_isLiteral hliteral'
    have hspread : spreadRow [f] = [.literal text] := by
      rw [spreadRow_cons, spreadRow_nil, spreadOnto_eq hblock, htext]
    obtain ⟨gs, hgs⟩ := List.head?_eq_some_iff.mp hg
    obtain ⟨fs', rfl⟩ := exists_of_spreadRow hgs
    obtain ⟨fs₀, hfs₀⟩ := exists_of_spreadRow hspread
    exact hmeet _ _ _ (List.cons.inj hfs₀).1 rfl

theorem LawfulChain.group (h : LawfulChain (spreadRow fs)) (fence : Fence) :
    (Shape.group fence (spreadRow (chain fs))).Lawful := by
  rw [Lawful]
  cases fs with
  | nil => exact Or.inl (by rw [chain_nil, spreadRow_cons, spreadRow_nil, spreadOnto])
  | cons f fs =>
    rw [chain_cons]
    exact Or.inr ⟨fun hnil => List.cons_ne_nil f fs (eq_nil_of_spreadRow hnil), h.1, h.2⟩

mutual

theorem Neat.lawful : ∀ {f : Shape}, f.Neat → f.isEmpty = false → f.isBlock = false →
    f.merge.spread.Lawful
  | .literal text, h, _, _ => by
    rw [Neat] at h
    rw [Shape.merge, spread, spreadOnto, Lawful]
    exact h
  | .empty, _, hempty, _ => by cases hempty
  | .block .., _, _, hblock => by cases hblock
  | .group fence inner, h, _, _ => by
    rw [Neat] at h
    rw [Shape.merge, spread_group]
    exact (NeatRow.lawfulChain h.2).group fence
  | .script marker operand, h, _, _ => by
    rw [Neat] at h
    have hatomic := (isAtomic_merge operand).trans h.1
    rw [Shape.merge, spread_script marker (Plan.isBlock_of_isAtomic hatomic), Lawful]
    exact ⟨isAtomic_spread hatomic,
      Neat.lawful h.2 (isEmpty_of_isAtomic h.1) (Plan.isBlock_of_isAtomic h.1)⟩
  | .command name parameters, h, _, _ => by
    rw [Neat] at h
    obtain ⟨hname, hmark, hgroups, hneat⟩ := h
    rw [Shape.merge, spread_command, Lawful]
    refine ⟨?_, isGroup_spreadRow (isGroup_mergeRow hgroups), (NeatRow.lawfulChain hneat).1⟩
    rw [isCommandName, Bool.and_eq_true, Bool.or_eq_true] at hname
    refine hname.1.imp_left fun hmarked => ⟨hmarked, ?_⟩
    rw [hmark hmarked, mergeRow_nil, spreadRow_nil]

theorem NeatRow.lawfulChain : ∀ {fs : List Shape}, NeatRow fs →
    LawfulChain (spreadRow (Shape.mergeRow fs))
  | [], _ => by
    rw [mergeRow_nil, spreadRow_nil]
    exact ⟨lawfulAll_nil, .nil⟩
  | .empty :: fs, h => by
    rw [neatRow_cons] at h
    rw [mergeRow_empty]
    exact NeatRow.lawfulChain h.2
  | .block name parameters body :: fs, h => by
    rw [neatRow_cons, Neat] at h
    obtain ⟨⟨hname, hgroups, hparameters, -, hbody⟩, hfs⟩ := h
    rw [mergeRow_cons rfl, Shape.merge,
      join_of_not_literal (by rintro g - ⟨hliteral, -⟩; cases hliteral),
      spreadRow_cons]
    exact LawfulChain.block hname (isGroup_mergeRow hgroups) (NeatRow.lawfulChain hparameters).1
      (NeatRow.lawfulChain hbody) (NeatRow.lawfulChain hfs)
  | .literal _ :: fs, h | .group .. :: fs, h | .script .. :: fs, h | .command .. :: fs, h => by
    rw [neatRow_cons] at h
    rw [mergeRow_cons rfl]
    exact LawfulChain.join rfl (Neat.lawful h.1 rfl rfl) (NeatRow.lawfulChain h.2)

end

/-- A neat formula is read back from its text, merged, exactly if its text is legible. -/
theorem NeatRow.reads_iff (h : NeatRow fs) :
    (∃ t, Tree.parseMath (String.ofList (charsOf fs)) = .ok t ∧
      t.Depicts (chain (Shape.mergeRow fs))) ↔ Legible (chain (Shape.mergeRow fs)) := by
  have hlegible : CanonicalChain none (spreadRow (chain (Shape.mergeRow fs))) ↔
      Legible (chain (Shape.mergeRow fs)) :=
    (h.lawfulChain.group .braces).canonicalChain_iff fun hlawful =>
      allCanonical_iff_clearAll hlawful nofun nofun
  rw [← hlegible, ← charsOf_mergeRow fs, ← charsOf_chain]
  refine ⟨fun ⟨t, hparse, ht⟩ => ?_, fun hcanonical => ?_⟩
  · obtain ⟨gs, hgs, -, hcanonical, -⟩ := Tree.parseMath_sound hparse
    rwa [ht.unique hgs]
  · exact Tree.parseMath_complete (neatRow_chain.mpr h.mergeRow).resolved hcanonical

end Shape

/-- An expanded formula is read back from its text exactly if the text is legible. -/
theorem expanded_reads_iff {source : String} {steps : Nat} {t t' : Tree} {ds ds' : Definitions}
    (hparse : Tree.parseMath source = .ok t) (hds : ds.Reached)
    (hrun : (Definitions.expandAll steps).run.run (t, ds) = some (.ok (), t', ds')) :
    ∃ fs, t'.Depicts fs ∧
      ((∃ u, Tree.parseMath t'.text = .ok u ∧ u.Depicts (Shape.chain (Shape.mergeRow fs))) ↔
        Shape.Legible (Shape.chain (Shape.mergeRow fs))) := by
  obtain ⟨ms, hknown⟩ := hds.standFor
  obtain ⟨fs, hfs, hneat⟩ := Tree.isNeat_parseMath hparse
  obtain ⟨ms', -, gs, ⟨hgs, hneat'⟩, -⟩ := refines_expandAll hfs hneat hknown steps _ t' ds' hrun
  refine ⟨gs, hgs, ?_⟩
  rw [← hneat'.reads_iff, ← hgs.text, String.ofList_toList]

/-! ## Two expansions -/

/-- The shape of a node that nothing hangs under. -/
def Node.leaf? : Node → Option Shape
  | .literal text => some (.literal text)
  | .empty => some .empty
  | .command name [] => some (.command name [])
  | _ => none

namespace Plan

theorem Fits.shape_of_leaf {t : Tree} {up : Option NodeId} {p : Plan} {f : Shape}
    (h : p.Fits t up) (hleaf : (t.node p.id).leaf? = some f) : p.shape = f := by
  rw [h.node] at hleaf
  cases p with
  | literal id text | empty id =>
    rw [shape]
    exact Option.some.inj hleaf
  | group | script | block => cases hleaf
  | command id name ps =>
    cases ps with
    | nil =>
      rw [shape, shapes_nil]
      exact Option.some.inj hleaf
    | cons p ps => cases hleaf

theorem RowFits.shapes_of_leaves {t : Tree} {up : Option NodeId} {row : Row} {fs : List Shape}
    (h : RowFits t up row) (hleaves : (row.map fun x => (t.node x.2.id).leaf?) = fs.map some) :
    rowShapes row = fs := by
  induction row generalizing up fs with
  | nil =>
    rw [List.map_nil, eq_comm, List.map_eq_nil_iff] at hleaves
    rw [hleaves, rowShapes_nil]
  | cons x row ih =>
    obtain ⟨-, hx, hrow⟩ := rowFits_cons.mp h
    cases fs with
    | nil => cases hleaves
    | cons f fs =>
      obtain ⟨hleaf, hleaves⟩ := List.cons.inj hleaves
      rw [rowShapes_cons, hx.shape_of_leaf hleaf, ih hrow hleaves]

end Plan

/-- A formula of leaves is given by its nodes. -/
theorem Tree.Depicts.eq_of_leaves {t : Tree} {fs gs : List Shape} {nodes : List Node}
    (h : t.Depicts fs) (hnodes : (t.elements t.root).map t.node = nodes)
    (hleaves : nodes.map Node.leaf? = gs.map some) : fs = gs := by
  obtain ⟨row, hroot, hfits, hn, rfl⟩ := h
  rw [← hnodes, hfits.elements hn hroot, List.map_map, List.map_map] at hleaves
  exact hfits.shapes_of_leaves hleaves

/-- An argument comes after a command and a blank. -/
theorem expanded_reads_iff_blank :
    let source := r"\newcommand{\x}[1]{\b #1}\x{c}"
    ∃ t t' ds' u, Tree.parseMath source = .ok t ∧
      (Definitions.expandAll 40).run.run (t, .empty) = some (.ok (), t', ds') ∧
      t'.Depicts [.command "b" [], .literal " ", .literal "c"] ∧
      Tree.parseMath t'.text = .ok u ∧ u.Depicts [.command "b" [], .literal " c"] := by
  intro source
  have hran : ((Definitions.empty.expanded? 40 source).map fun out =>
      (out.2.1.elements out.2.1.root).map out.2.1.node) =
      some [.command "b" [], .literal " ", .literal "c"] := by
    decide +kernel
  obtain ⟨⟨t, t', ds'⟩, hout, hnodes⟩ := Option.map_eq_some_iff.mp hran
  obtain ⟨hparse, hrun⟩ := Definitions.expanded?_eq_some hout
  obtain ⟨fs, hfs, hiff⟩ := expanded_reads_iff hparse .empty hrun
  obtain rfl : fs = [.command "b" [], .literal " ", .literal "c"] := hfs.eq_of_leaves hnodes rfl
  have hmerged : Shape.chain (Shape.mergeRow [.command "b" [], .literal " ", .literal "c"]) =
      [.command "b" [], .literal " c"] := by
    simp [Shape.mergeRow, Shape.merge, Shape.join, Shape.isEmpty]
  have hlegible : Shape.Legible [.command "b" [], .literal " c"] := by
    have hblank : Shape.Written none " c".toList := .plain rfl (.plain rfl .nil)
    have hapart : Shape.Apart (.command "b" []) (.literal " c") := by
      rintro parameters -
      refine ⟨rfl, fun text htext c hc => ?_⟩
      obtain rfl := Shape.literal.inj htext
      obtain rfl : ' ' = c := Option.some.inj hc
      exact ⟨by decide, fun _ => by decide⟩
    simpa [Shape.Legible, Shape.spreadOnto, Shape.Clear] using ⟨hblank, hapart⟩
  rw [hmerged] at hiff
  obtain ⟨u, hread, hu⟩ := hiff.mpr hlegible
  exact ⟨t, t', ds', u, hparse, hrun, hfs, hread, hu⟩

/-- An argument comes right after a command and becomes a part of its name. -/
theorem expanded_not_read :
    let source := r"\newcommand{\x}[1]{\b#1}\x{c}"
    let fs : List Shape := [.command "b" [], .literal "c"]
    ∃ t t' ds', Tree.parseMath source = .ok t ∧
      (Definitions.expandAll 40).run.run (t, .empty) = some (.ok (), t', ds') ∧ t'.Depicts fs ∧
      (∃ u, Tree.parseMath t'.text = .ok u ∧ u.Depicts [.command "bc" []]) ∧
      ¬∃ u, Tree.parseMath t'.text = .ok u ∧ u.Depicts (Shape.chain (Shape.mergeRow fs)) := by
  intro source fs
  have hran : ((Definitions.empty.expanded? 40 source).bind fun out =>
      (Tree.parseMath out.2.1.text).toOption.map fun u =>
        ((out.2.1.elements out.2.1.root).map out.2.1.node, (u.elements u.root).map u.node)) =
      some ([.command "b" [], .literal "c"], [.command "bc" []]) := by
    decide +kernel
  obtain ⟨⟨t, t', ds'⟩, hexpanded, hran⟩ := Option.bind_eq_some_iff.mp hran
  obtain ⟨u, hread, hout⟩ := Option.map_eq_some_iff.mp hran
  obtain ⟨hnodes, hnodes'⟩ := Prod.mk.inj hout
  obtain ⟨hparse, hrun⟩ := Definitions.expanded?_eq_some hexpanded
  replace hread := Tree.eq_ok_of_toOption hread
  have ht' : t'.Depicts fs := by
    obtain ⟨fs₀, hfs₀, hneat₀⟩ := Tree.isNeat_parseMath hparse
    obtain ⟨-, -, gs, ⟨hgs, -⟩, -⟩ :=
      refines_expandAll hfs₀ hneat₀ Definitions.standFor_empty 40 _ t' ds' hrun
    have heq : gs = fs := hgs.eq_of_leaves hnodes rfl
    rwa [heq] at hgs
  have hu : u.Depicts [.command "bc" []] := by
    obtain ⟨gs, hgs, -⟩ := Tree.isNeat_parseMath hread
    have heq : gs = [.command "bc" []] := hgs.eq_of_leaves hnodes' rfl
    rwa [heq] at hgs
  refine ⟨t, t', ds', hparse, hrun, ht', ⟨u, hread, hu⟩, ?_⟩
  rintro ⟨u', hread', hu'⟩
  obtain rfl := Except.ok.inj (hread.symm.trans hread')
  have heq := hu.unique hu'
  simp [fs, Shape.mergeRow, Shape.merge, Shape.join, Shape.isEmpty] at heq

end Formulary
