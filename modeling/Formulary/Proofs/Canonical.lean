import Formulary.Proofs.Shape
import Mathlib.Data.List.Chain

/-!
# Canonical shapes

The shapes that reading a text can give, described without the reader. `Shape.CanonicalChain` says
it of a whole chain, `Shape.Canonical` of an element at its place:

* `Shape.Written`: what a literal may hold. It is cut from left to right into text, brackets and
  escapes; the bracket that closes a group is no text in a chain that it would end.
* `Shape.MayFollow`: which elements may stand next to each other. Two literals would be one, and a
  name or a list of parameters goes on as long as it can.

`Shape.Tight` is the same condition on the text that follows an element, which is how a reader
meets it; `mayFollow_iff` ties the two together.
-/

namespace Formulary

/-- Whether a text is a command name made of letters. -/
def isWord (name : String) : Bool := !name.isEmpty && name.toList.all Text.isLetter

/-- Whether a text is a command name of one punctuation character. -/
def isMark (name : String) : Bool := punctuation.any fun c => name.toList == [c]

namespace Shape

variable {name : String} {place : Place} {f : Shape} {closer : Option Symbol}

/-- The text of a literal in a chain that ends at `closer`. -/
inductive Written (closer : Option Symbol) : List Char → Prop
  | nil : Written closer []
  | plain {c : Char} {cs : List Char} : isPlain c = true → Written closer cs →
      Written closer (c :: cs)
  | bracket {s : Symbol} {cs : List Char} : s = .leftBracket ∨ s = .rightBracket →
      closer ≠ some s → Written closer cs → Written closer (s.char :: cs)
  | escape (s : Symbol) {cs : List Char} : Written closer cs →
      Written closer (Symbol.backslash.char :: s.char :: cs)

/-- The parameters of the command made of letters that an element ends with, if it ends with one:
an element that is a command, or a script whose operand is. -/
def trailing : Shape → Option (List Shape)
  | .command name parameters => if isWord name then some parameters else none
  | .script _ operand => operand.trailing
  | _ => none

/-- Whether an element may stand right after another one. -/
def MayFollow (f g : Shape) : Prop :=
  ¬(f.isLiteral = true ∧ g.isLiteral = true) ∧
    ∀ parameters, f.trailing = some parameters → g.isGroup = false ∧
      ∀ text, g = .literal text → ∀ c ∈ text.toList.head?,
        c ≠ Symbol.leftBracket.char ∧ (parameters = [] → Text.isLetter c = false)

/-- Where an element stands. -/
inductive Place where
  /-- In a chain that ends at a symbol, or with the text. -/
  | chain (closer : Option Symbol)
  /-- After a marker. -/
  | operand
  /-- After the name of a command. -/
  | parameter
  deriving DecidableEq

mutual

/-- An element as the reader gives it at a place. -/
def Canonical : Place → Shape → Prop
  | .chain closer, .literal text => text ≠ "" ∧ Written closer text.toList
  | .operand, .literal text =>
    (∃ c, isPlain c = true ∧ text.toList = [c]) ∨
      ∃ s : Symbol, text.toList = [Symbol.backslash.char, s.char]
  | place, .group fence inner =>
    (place ≠ .parameter → fence = .braces) ∧
      (inner = [.empty] ∨
        inner ≠ [] ∧ AllCanonical (.chain (some fence.closing)) inner ∧ inner.IsChain MayFollow)
  | .chain _, .script _ operand => Canonical .operand operand
  | place, .command name parameters =>
    place ≠ .parameter ∧
      (isMark name = true ∧ parameters = [] ∨ isWord name = true ∧ AllCanonical .parameter parameters)
  | _, _ => False

/-- Elements as the reader gives them at places of one kind. -/
def AllCanonical (place : Place) : List Shape → Prop
  | [] => True
  | f :: fs => Canonical place f ∧ AllCanonical place fs

end

/-- A chain as the reader gives it up to the symbol that ends it: one empty element alone, or
elements that may stand next to each other. -/
def CanonicalChain (closer : Option Symbol) (fs : List Shape) : Prop :=
  fs = [.empty] ∨ fs ≠ [] ∧ AllCanonical (.chain closer) fs ∧ fs.IsChain MayFollow

/-! ## Symbols and names -/

/-- A character is plain if it is no symbol. -/
theorem isPlain_iff {c : Char} : isPlain c = true ↔ ∀ s : Symbol, s.char ≠ c := by
  rw [isPlain, Option.isNone_iff_eq_none, Option.eq_none_iff_forall_ne_some]
  simp only [ne_eq, Symbol.ofChar?_eq_some_iff]

@[simp] theorem ofChar?_char (s : Symbol) : Symbol.ofChar? s.char = some s :=
  Symbol.ofChar?_eq_some_iff.mpr rfl

theorem char_injective {s s' : Symbol} (h : s.char = s'.char) : s = s' := by
  rw [← Symbol.ofChar?_eq_some_iff, ofChar?_char] at h
  exact Option.some.inj h.symm

theorem isPlain_char (s : Symbol) : isPlain s.char = false := by
  cases s <;> rfl

theorem isLetter_char (s : Symbol) : Text.isLetter s.char = false := by
  cases s <;> rfl

theorem isWord_iff :
    isWord name = true ↔ ∃ c cs, name = String.ofList (c :: cs) ∧ Text.isLetter c = true ∧
      ∀ d ∈ cs, Text.isLetter d = true := by
  simp only [isWord, String.ext_iff, String.toList_ofList]
  rcases hname : name.toList with _ | ⟨c, cs⟩
  · simp [String.toList_eq_nil_iff.mp hname]
  · have hne : name ≠ "" := fun heq => by simp [heq] at hname
    simp [hne]

theorem isMark_iff : isMark name = true ↔ ∃ c ∈ punctuation, name = String.ofList [c] := by
  simp only [isMark, List.any_eq_true, beq_iff_eq, String.ext_iff, String.toList_ofList]

theorem punctuation_plain {c : Char} (h : c ∈ punctuation) :
    isPlain c = true ∧ Text.isLetter c = false := by
  have hall : punctuation.all (fun c => isPlain c && !Text.isLetter c) = true := by decide
  simpa using List.all_eq_true.mp hall c h

/-- No name is both a word and a mark. -/
theorem isWord_of_isMark (h : isMark name = true) : isWord name = false := by
  obtain ⟨c, hc, rfl⟩ := isMark_iff.mp h
  simp [isWord, (punctuation_plain hc).2]

/-- A longest run does not go on into what does not continue it. -/
theorem span_append {α : Type} {p : α → Bool} {ys : List α} (h : ∀ y ∈ ys.head?, p y = false)
    (xs : List α) :
    (xs ++ ys).takeWhile p = xs.takeWhile p ∧ (xs ++ ys).dropWhile p = xs.dropWhile p ++ ys := by
  induction xs with
  | nil =>
    cases ys with
    | nil => simp
    | cons y ys => simp [h y rfl]
  | cons x xs ih =>
    by_cases hx : p x = true <;> simp [hx, ih]

/-! ## Literals -/

namespace Written

variable {closer : Option Symbol} {cs ds : List Char}

theorem append (h : Written closer cs) (h' : Written closer ds) : Written closer (cs ++ ds) := by
  induction h with
  | nil => exact h'
  | plain hc _ ih => exact plain hc ih
  | bracket hs hne _ ih => exact bracket hs hne ih
  | escape s _ ih => exact escape s ih

theorem of_plain (h : ∀ c ∈ cs, isPlain c = true) : Written closer cs := by
  induction cs with
  | nil => exact nil
  | cons c cs ih =>
    exact plain (h c List.mem_cons_self) (ih fun d hd => h d (List.mem_cons_of_mem _ hd))

/-- A literal may be cut after the text it starts with. -/
theorem dropWhile (h : Written closer cs) : Written closer (cs.dropWhile isPlain) := by
  induction h with
  | nil => exact nil
  | plain hc _ ih => rwa [List.dropWhile_cons_of_pos hc]
  | bracket hs hne h _ =>
    rw [List.dropWhile_cons_of_neg (by simp [isPlain_char])]
    exact bracket hs hne h
  | escape s h _ =>
    rw [List.dropWhile_cons_of_neg (by simp [isPlain_char])]
    exact escape s h

/-- No literal starts with a brace. -/
theorem head_ne {c : Char} (h : Written closer (c :: cs)) :
    c ≠ Symbol.leftBrace.char ∧ c ≠ Symbol.rightBrace.char := by
  cases h with
  | plain hc _ => exact ⟨(isPlain_iff.mp hc _).symm, (isPlain_iff.mp hc _).symm⟩
  | bracket hs _ _ => rcases hs with rfl | rfl <;> decide
  | escape s _ => decide

end Written

/-! ## Canonical elements -/

-- The places and the elements are matched together, which makes the equations slow to find. They
-- are found once here, and not by every proof below at the same time.
attribute [local simp] Canonical AllCanonical

@[simp] theorem allCanonical_nil (place : Place) : AllCanonical place [] := by
  simp

@[simp] theorem allCanonical_cons {fs : List Shape} :
    AllCanonical place (f :: fs) ↔ Canonical place f ∧ AllCanonical place fs := by
  simp

theorem allCanonical_iff {fs : List Shape} :
    AllCanonical place fs ↔ ∀ f ∈ fs, Canonical place f := by
  induction fs with
  | nil => simp
  | cons f fs ih => simp [ih]

theorem canonical_literal {text : String} :
    Canonical (.chain closer) (.literal text) ↔ text ≠ "" ∧ Written closer text.toList := by
  rw [Canonical]

theorem canonical_group {fence : Fence} {inner : List Shape} :
    Canonical place (.group fence inner) ↔
      (place ≠ .parameter → fence = .braces) ∧ CanonicalChain (some fence.closing) inner := by
  cases place <;> rw [Canonical, CanonicalChain]

theorem canonical_script {marker : Marker} {operand : Shape} :
    Canonical (.chain closer) (.script marker operand) ↔ Canonical .operand operand := by
  rw [Canonical]

theorem canonical_command {parameters : List Shape} :
    Canonical place (.command name parameters) ↔ place ≠ .parameter ∧
      (isMark name = true ∧ parameters = [] ∨
        isWord name = true ∧ AllCanonical .parameter parameters) := by
  cases place <;> rw [Canonical]

theorem Canonical.isGroup (h : Canonical .parameter f) : f.isGroup = true := by
  cases f <;> simp_all [Shape.isGroup]

/-- What may be an operand may stand in any chain. -/
theorem Canonical.of_operand (h : Canonical .operand f) (closer : Option Symbol) :
    Canonical (.chain closer) f := by
  cases f with
  | literal text =>
    rw [Canonical] at h
    rw [canonical_literal]
    have hne : ∀ c cs, text.toList = c :: cs → text ≠ "" := by
      rintro c cs heq rfl
      cases heq
    rcases h with ⟨c, hc, heq⟩ | ⟨s, heq⟩
    · exact ⟨hne _ _ heq, heq ▸ .plain hc .nil⟩
    · exact ⟨hne _ _ heq, heq ▸ .escape s .nil⟩
  | group fence inner =>
    rw [canonical_group] at *
    exact ⟨fun _ => h.1 (by decide), h.2⟩
  | command name parameters =>
    rw [canonical_command] at *
    exact ⟨nofun, h.2⟩
  | empty | script | block => simp at h

/-! ## Neighbours -/

/-- Whether a text cannot go on with what belongs to an element before it. -/
def Tight (f : Shape) (rest : List Char) : Prop :=
  ∀ parameters, f.trailing = some parameters → ∀ c ∈ rest.head?,
    (∀ fence : Fence, c ≠ fence.opening.char) ∧ (parameters = [] → Text.isLetter c = false)

theorem tight_of_trailing (h : f.trailing = none) (rest : List Char) : f.Tight rest := by
  intro parameters htrailing
  rw [h] at htrailing
  cases htrailing

/-- No element of a chain is without text. -/
theorem Canonical.chars_ne_nil (h : Canonical (.chain closer) f) : f.chars ≠ [] := by
  cases f with
  | literal text =>
    rw [chars]
    exact fun heq => (canonical_literal.mp h).1 (String.toList_eq_nil_iff.mp heq)
  | empty | block => simp at h
  | group | script | command => simp [chars]

/-- Whether one element may follow another depends on the text it starts with. -/
theorem mayFollow_iff {g : Shape} (hg : Canonical (.chain closer) g) (rest : List Char) :
    MayFollow f g ↔
      ¬(f.isLiteral = true ∧ g.isLiteral = true) ∧ f.Tight (g.chars ++ rest) := by
  rw [MayFollow, and_congr_right_iff]
  intro _
  rw [Tight]
  refine forall₂_congr fun parameters _ => ?_
  cases g with
  | literal text =>
    obtain ⟨c, cs, hcs⟩ := List.exists_cons_of_ne_nil hg.chars_ne_nil
    rw [chars] at hcs
    have hc : c ≠ Fence.braces.opening.char := (hcs ▸ (canonical_literal.mp hg).2).head_ne.1
    have hfence : (∀ fence : Fence, c ≠ fence.opening.char) ↔ c ≠ Symbol.leftBracket.char := by
      refine ⟨fun h => h .brackets, fun h fence => ?_⟩
      cases fence with
      | braces => exact hc
      | brackets => exact h
    simp [chars, hcs, isGroup, hfence]
  | empty | block => simp at hg
  | group fence inner =>
    simp only [isGroup, chars, List.cons_append, List.head?_cons, Option.mem_some_iff]
    refine iff_of_false (by simp) fun h => (h _ rfl).1 fence rfl
  | script marker operand =>
    have hm : ∀ fence : Fence, marker.symbol.char ≠ fence.opening.char := by
      intro fence
      cases marker <;> cases fence <;> decide
    simp [isGroup, chars, hm, Marker.char, isLetter_char]
  | command name ps =>
    have hb : ∀ fence : Fence, Symbol.backslash.char ≠ fence.opening.char := by
      intro fence
      cases fence <;> decide
    simp [isGroup, chars, hb, isLetter_char]

end Shape

end Formulary
