import Formulary.Proofs.Inheritance
import Formulary.Proofs.Prospects

/-!
# Where elements come from

What the readers hand out is cut out of the text: the text of a literal is a run, a bracket or an
escape of it, and every place is a stretch of it. So a trait of everything that may be cut out of a
text is a trait of the elements that are read from it, and of the places that a fault in it is
reported at.

* `Trait.Follows`: what a trait has to hold of, for the readers to hand out nothing else.
* `Trait.Follows.admits`: they hand out nothing else.
-/

namespace Formulary

open Text (byteSize)

open Shape (Canonical AllCanonical CanonicalChain Written)

/-- A trait of whatever may be cut out of a source. What is left of the source is `fine` wherever the
readers come to, that is, anywhere but between a backslash and the character after it. -/
structure Trait.Follows (T : Trait) (source : List Char) (fine : List Char → Prop) : Prop where
  place : ∀ {p : Span}, p.Within source → T.place p
  text_append : ∀ {s s' : String}, T.text s → T.text s' → T.text (s ++ s')
  text_plain : ∀ {run rest : List Char}, (∀ c ∈ run, isPlain c = true) → fine (run ++ rest) →
    T.text (String.ofList run)
  text_bracket : ∀ {s : Symbol}, s = .leftBracket ∨ s = .rightBracket →
    T.text (String.ofList [s.char])
  text_escape : ∀ s : Symbol, T.text (String.ofList [Symbol.backslash.char, s.char])
  command_mark : ∀ {c : Char}, c ∈ punctuation → T.command (String.ofList [c])
  command_word : ∀ {c : Char} {cs : List Char}, (∀ d ∈ c :: cs, Text.isLetter d = true) →
    T.command (String.ofList (c :: cs))
  fine_cons : ∀ {c : Char} {rest : List Char}, c ≠ Symbol.backslash.char → fine (c :: rest) →
    fine rest
  fine_escape : ∀ {c : Char} {rest : List Char}, fine (Symbol.backslash.char :: c :: rest) →
    fine rest

namespace Trait

open Element

variable {T : Trait} {source : List Char} {fine : List Char → Prop} {closer : Option Symbol}

/-- The elements of a chain that is read are canonical: none of them is empty. -/
theorem allCanonical_of_chain {es : List Element}
    (h : CanonicalChain closer (Shape.chain (shapes es))) :
    AllCanonical (.chain closer) (shapes es) := by
  cases es with
  | nil => trivial
  | cons e es =>
    rw [shapes_cons, Shape.chain_cons] at h
    rcases h with hempty | ⟨-, hall, -⟩
    · cases e <;> cases hempty
    · rwa [shapes_cons]

namespace Follows

variable {place : Shape.Place} {rest : List Char} {text : String}

theorem fine_append (hT : T.Follows source fine) : ∀ {run rest : List Char},
    (∀ c ∈ run, c ≠ Symbol.backslash.char) → fine (run ++ rest) → fine rest
  | [], _, _, h => h
  | c :: run, _, hrun, h => by
    rw [List.forall_mem_cons] at hrun
    exact fine_append hT hrun.2 (hT.fine_cons hrun.1 h)

theorem ofFault (hT : T.Follows source fine) {e : SyntaxError}
    (h : e.AtEnd source ∨ e.Offends source) : T.OfFault (.text e) := by
  have hend : At source (byteSize source) [] := ⟨source, (List.append_nil _).symm, rfl⟩
  rcases h with h | h
  · cases e with
    | unterminatedGroup =>
      obtain ⟨hopening, rfl⟩ := h
      exact ofFault_of_labels rfl (hT.place hopening.within) (hT.place (.point hend))
    | finalBackslash => exact ofFault_of_label rfl (hT.place h.1.within)
    | missingOperand =>
      obtain ⟨hmarker, rfl, rfl⟩ := h
      exact ofFault_of_labels rfl (hT.place hmarker.within) (hT.place (.point hend))
    | strayBrace | emptyName => cases h
  · cases e with
    | strayBrace => exact ofFault_of_label rfl (hT.place (Span.Holds.within h))
    | emptyName =>
      obtain ⟨c, hname, -⟩ := h
      exact ofFault_of_label rfl (hT.place hname.within)
    | missingOperand =>
      obtain ⟨hmarker, s, -, -, -, hfound⟩ := h
      exact ofFault_of_labels rfl (hT.place hmarker.within) (hT.place hfound.within)
    | unterminatedGroup | finalBackslash => cases h

theorem text_pieces (hT : T.Follows source fine) {run run' : List Char}
    (h : T.text (String.ofList run)) (h' : T.text (String.ofList run')) :
    T.text (String.ofList (run ++ run')) := by
  rw [String.ofList_append]
  exact hT.text_append h h'

/-- The text of a literal is cut into text, brackets and escapes. -/
theorem text_of_written (hT : T.Follows source fine) {cs : List Char} (h : Written closer cs)
    (hfine : fine (cs ++ rest)) : T.text (String.ofList cs) ∧ fine rest := by
  induction h with
  | nil => exact ⟨hT.text_plain (List.forall_mem_nil _) hfine, hfine⟩
  | @plain c cs hc _ ih =>
    have hne : c ≠ Symbol.backslash.char := fun heq => Shape.isPlain_iff.mp hc _ heq.symm
    obtain ⟨htext, hrest⟩ := ih (hT.fine_cons hne hfine)
    have hrun : fine ([c] ++ (cs ++ rest)) := hfine
    exact ⟨hT.text_pieces (hT.text_plain (List.forall_mem_singleton.mpr hc) hrun) htext, hrest⟩
  | @bracket s cs hs _ _ ih =>
    have hne : s.char ≠ Symbol.backslash.char := by rcases hs with rfl | rfl <;> decide
    obtain ⟨htext, hrest⟩ := ih (hT.fine_cons hne hfine)
    exact ⟨hT.text_pieces (hT.text_bracket hs) htext, hrest⟩
  | @escape s cs _ ih =>
    obtain ⟨htext, hrest⟩ := ih (hT.fine_escape hfine)
    exact ⟨hT.text_pieces (hT.text_escape s) htext, hrest⟩

theorem text_of_canonical (hT : T.Follows source fine) (h : Canonical place (.literal text))
    (hfine : fine (text.toList ++ rest)) : T.text text ∧ fine rest := by
  obtain ⟨closer, hwritten⟩ : ∃ closer, Written closer text.toList := by
    cases place with
    | chain closer =>
      rw [Shape.canonical_literal] at h
      exact ⟨closer, h.2⟩
    | operand =>
      have hchain := h.of_operand none
      rw [Shape.canonical_literal] at hchain
      exact ⟨none, hchain.2⟩
    | parameter => simp [Canonical] at h
  have hpieces := hT.text_of_written hwritten hfine
  rwa [String.ofList_toList] at hpieces

theorem command_of_canonical (hT : T.Follows source fine) {name : String} {parameters : List Shape}
    (h : Canonical place (.command name parameters))
    (hfine : fine (Symbol.backslash.char :: name.toList ++ rest)) :
    T.command name ∧ fine rest ∧ AllCanonical .parameter parameters := by
  rw [Shape.canonical_command] at h
  rcases h.2 with ⟨hmark, rfl⟩ | ⟨hword, hparameters⟩
  · obtain ⟨c, hc, rfl⟩ := Shape.isMark_iff.mp hmark
    rw [String.toList_ofList] at hfine
    exact ⟨hT.command_mark hc, hT.fine_escape hfine, trivial⟩
  · obtain ⟨c, cs, rfl, hc, hcs⟩ := Shape.isWord_iff.mp hword
    rw [String.toList_ofList] at hfine
    refine ⟨hT.command_word (List.forall_mem_cons.mpr ⟨hc, hcs⟩), ?_, hparameters⟩
    -- The backslash and the first letter go together, the other letters one by one.
    refine hT.fine_append (fun d hd heq => ?_) (hT.fine_escape hfine)
    have hletter := hcs d hd
    rw [heq, Shape.isLetter_char] at hletter
    cases hletter

mutual

theorem ofElement (hT : T.Follows source fine) {place : Shape.Place} {start stop : Nat}
    {rest : List Char} : ∀ {e : Element}, e.Covers start stop → Canonical place e.shape →
    At source start (e.shape.chars ++ rest) → fine (e.shape.chars ++ rest) →
    T.OfElement e ∧ At source stop rest ∧ fine rest
  | .literal text span, hcovers, hcanonical, hat, hfine => by
    obtain ⟨rfl, rfl⟩ := covers_literal.mp hcovers
    obtain ⟨htext, hrest⟩ := hT.text_of_canonical hcanonical hfine
    rw [OfElement]
    exact ⟨⟨htext, hT.place (Span.Holds.of_at hat).within⟩, hat.append, hrest⟩
  | .group fence inner span, hcovers, hcanonical, hat, hfine => by
    have hchars : (group fence inner span).shape.chars ++ rest =
        fence.opening.char :: (Shape.charsOf (shapes inner) ++ fence.closing.char :: rest) := by
      simp [shape, Shape.chars]
    rw [hchars] at hat hfine
    rw [shape, Shape.canonical_group] at hcanonical
    obtain ⟨htiled, rfl⟩ := hcovers
    rw [Tiled] at htiled
    have hinside := htiled.2.inside
    obtain ⟨hinner, middle, htile, hstop⟩ := htiled
    obtain rfl : stop = middle + byteSize [fence.closing.char] := hstop
    obtain ⟨hes, hat', hfine'⟩ := hT.ofElements ⟨hinner, htile⟩ (allCanonical_of_chain hcanonical.2)
      hat.cons (hT.fine_cons (by cases fence <;> decide) hfine)
    rw [OfElement, hinside]
    refine ⟨⟨hes, hT.place (.of_at hat hat'.cons ?_), hT.place (.point hat.cons)⟩, hat'.cons, ?_⟩
    · simp only [List.length_cons, List.length_append]
      omega
    · exact hT.fine_cons (by cases fence <;> decide) hfine'
  | .script marker operand span, hcovers, hcanonical, hat, hfine => by
    have hunder : Canonical .operand operand.shape := by
      cases place <;> simp [shape, Canonical] at hcanonical
      exact hcanonical
    obtain ⟨htiled, rfl⟩ := hcovers
    rw [Tiled] at htiled
    obtain ⟨hoperand, _, ⟨hstart, -, rfl⟩, hstop⟩ := htiled
    obtain rfl : stop = operand.span.stop := hstop
    have hspan := congrArg (Span.mk · operand.span.stop) hstart
    obtain ⟨he, hend, hrest⟩ := hT.ofElement ⟨hoperand, hspan⟩ hunder hat.cons
      (hT.fine_cons (by cases marker <;> decide) hfine)
    rw [OfElement]
    exact ⟨⟨he, hT.place (.of_at hat hend (by simp))⟩, hend, hrest⟩
  | .command name parameters span, hcovers, hcanonical, hat, hfine => by
    have hchars : (Element.command name parameters span).shape.chars ++ rest =
        (Symbol.backslash.char :: name.toList) ++ (Shape.charsOf (shapes parameters) ++ rest) := by
      simp [shape, Shape.chars]
    rw [hchars] at hat hfine
    obtain ⟨htiled, rfl⟩ := hcovers
    rw [Tiled] at htiled
    obtain ⟨hparameters, _, htile, rfl⟩ := htiled
    obtain ⟨hname, hfine', hall⟩ := hT.command_of_canonical hcanonical hfine
    obtain ⟨hps, hend, hrest⟩ := hT.ofElements ⟨hparameters, htile⟩ hall hat.append hfine'
    rw [OfElement]
    refine ⟨⟨hname, hps, hT.place (.of_at hat hend ?_)⟩, hend, hrest⟩
    simp only [List.length_append]
    omega

theorem ofElements (hT : T.Follows source fine) {place : Shape.Place} {start stop : Nat}
    {rest : List Char} : ∀ {es : List Element}, AllCover es start stop →
    AllCanonical place (shapes es) → At source start (Shape.charsOf (shapes es) ++ rest) →
    fine (Shape.charsOf (shapes es) ++ rest) → T.OfElements es ∧ At source stop rest ∧ fine rest
  | [], hcover, _, hat, hfine => by
    obtain rfl := hcover.2
    exact ⟨trivial, hat, hfine⟩
  | e :: es, hcover, hcanonical, hat, hfine => by
    obtain ⟨middle, he, hes⟩ := allCover_cons hcover
    rw [shapes_cons, Shape.allCanonical_cons] at hcanonical
    rw [shapes_cons, Shape.charsOf_cons, List.append_assoc] at hat hfine
    obtain ⟨hfirst, hat', hfine'⟩ := hT.ofElement he hcanonical.1 hat hfine
    obtain ⟨hothers, hend⟩ := hT.ofElements hes hcanonical.2 hat' hfine'
    rw [OfElements]
    exact ⟨⟨hfirst, hothers⟩, hend⟩

end

/-- A text is read as elements with a trait, or not at all for a reason at a place with it, if that
is a trait of whatever may be cut out of the text. -/
theorem admits (hT : T.Follows text.toList fine) (hfine : fine text.toList) : T.Admits text := by
  have hcloser : IsCloser none := fun _ hnone => by cases hnone
  have hstands := readChain_stands hcloser 0 text.toList (At.start _)
  refine ⟨fun es hes => ?_, fun e he => ?_⟩
  · rw [readAll] at hes
    cases hread : readChain none 0 text.toList with
    | error e =>
      rw [hread] at hes
      cases hes
    | ok r =>
      rw [hread] at hes
      cases hes
      obtain ⟨hsound, hcover⟩ := readChain_sound none 0 text.toList hread
      have hat := At.start text.toList
      nth_rewrite 2 [← hsound.text_eq] at hat
      rw [← hsound.text_eq] at hfine
      exact (hT.ofElements hcover hsound.canonical hat hfine).1
  · rw [readAll] at he
    cases hread : readChain none 0 text.toList with
    | error e' =>
      rw [hread] at he
      cases he
      exact hT.ofFault ((hstands.fault hread).imp And.left And.left)
    | ok r =>
      rw [hread] at he
      cases he

end Follows

end Trait

end Formulary
