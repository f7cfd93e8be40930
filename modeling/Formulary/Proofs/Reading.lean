import Formulary.Proofs.Canonical
import Formulary.Proofs.Tiling
import Mathlib.Data.List.TakeWhile

/-!
# What reading gives

Every reader of `Element` answers canonical shapes whose text is exactly the text it consumed, at
places without gaps between them (`readChain_sound` and its companions), and gives every canonical
shape back from its text (`readChain_complete`). What a reader makes of the answers of the readers
it calls is said once, by `Maps` and `Binds`.
-/

namespace Formulary

variable {fs inner : List Shape} {rest' : List Char}

namespace Shape

variable {f : Shape} {text rest : List Char} {closer : Option Symbol}

/-- Puts an element in front of others; two literals that meet become one. -/
def join : Shape → List Shape → List Shape
  | .literal text, .literal text' :: fs => .literal (text ++ text') :: fs
  | f, fs => f :: fs

theorem join_of_not_literal (h : ∀ g ∈ fs.head?, ¬(f.isLiteral = true ∧ g.isLiteral = true)) :
    join f fs = f :: fs := by
  unfold join
  split
  · exact absurd ⟨rfl, rfl⟩ (h _ rfl)
  · rfl

theorem charsOf_join (f : Shape) (fs : List Shape) :
    charsOf (join f fs) = f.chars ++ charsOf fs := by
  unfold join
  split
  · simp [chars]
  · rw [charsOf_cons]

/-- What follows a chain ends it: nothing, or the symbol that closes it. -/
def Ended (closer : Option Symbol) (rest : List Char) : Prop :=
  ∀ c ∈ rest.head?, ∃ s, closer = some s ∧ s.char = c

/-- A text starts with elements as they are read up to the end of their chain. -/
structure ChainRead (closer : Option Symbol) (text : List Char) (fs : List Shape)
    (rest : List Char) : Prop where
  text_eq : charsOf fs ++ rest = text
  canonical : AllCanonical (.chain closer) fs
  neighbours : fs.IsChain MayFollow
  ended : Ended closer rest

/-- A text starts with an element as it is read at a place, and no more of the text belongs to
it. -/
structure ElementRead (place : Place) (text : List Char) (f : Shape) (rest : List Char) : Prop where
  text_eq : f.chars ++ rest = text
  canonical : Canonical place f
  tight : f.Tight rest

/-- A text starts with parameters, and no other parameter comes after them. -/
structure ParametersRead (text : List Char) (fs : List Shape) (rest : List Char) : Prop where
  text_eq : charsOf fs ++ rest = text
  canonical : AllCanonical .parameter fs
  ended : ∀ c ∈ rest.head?, ∀ fence : Fence, c ≠ fence.opening.char

/-- A group in braces may stand anywhere. -/
theorem ElementRead.of_braces (h : ElementRead .parameter text f rest)
    (hf : f = .group .braces inner) : ElementRead .operand text f rest := by
  refine ⟨h.text_eq, ?_, h.tight⟩
  have hcanonical := h.canonical
  rw [hf, canonical_group] at *
  exact ⟨fun _ => rfl, hcanonical.2⟩

theorem ElementRead.of_operand (h : ElementRead .operand text f rest) (closer : Option Symbol) :
    ElementRead (.chain closer) text f rest :=
  ⟨h.text_eq, h.canonical.of_operand closer, h.tight⟩

theorem ChainRead.canonicalChain (h : ChainRead closer text fs rest) :
    CanonicalChain closer (chain fs) := by
  cases fs with
  | nil => exact Or.inl rfl
  | cons f fs => exact Or.inr ⟨by simp, h.canonical, h.neighbours⟩

/-- A chain goes on with an element in front of it. -/
theorem ChainRead.join (h : ElementRead (.chain closer) text f rest)
    (h' : ChainRead closer rest fs rest') : ChainRead closer text (join f fs) rest' := by
  have htext : charsOf (Shape.join f fs) ++ rest' = text := by
    rw [charsOf_join, List.append_assoc, h'.text_eq, h.text_eq]
  have hf := h.canonical
  have hfs := h'.canonical
  have hchain := h'.neighbours
  refine ⟨htext, ?_, ?_, h'.ended⟩
  · unfold Shape.join
    split
    · rw [allCanonical_cons, canonical_literal] at *
      refine ⟨⟨fun heq => hf.1 (String.append_eq_empty_iff.mp heq).1, ?_⟩, hfs.2⟩
      rw [String.toList_append]
      exact hf.2.append hfs.1.2
    · exact allCanonical_cons.mpr ⟨hf, hfs⟩
  · cases fs with
    | nil => simp [Shape.join]
    | cons g gs =>
      by_cases hlit : f.isLiteral = true ∧ g.isLiteral = true
      · obtain ⟨a, rfl⟩ : ∃ a, f = .literal a := by
          cases f <;> simp_all [isLiteral]
        obtain ⟨b, rfl⟩ : ∃ b, g = .literal b := by
          cases g <;> simp_all [isLiteral]
        rw [Shape.join]
        rw [List.isChain_cons] at *
        exact ⟨fun k hk => ⟨(hchain.1 k hk).1, nofun⟩, hchain.2⟩
      · rw [join_of_not_literal (by simpa using hlit), List.isChain_cons_cons]
        refine ⟨(mayFollow_iff (allCanonical_cons.mp hfs).1 (charsOf gs ++ rest')).mpr ⟨hlit, ?_⟩,
          hchain⟩
        have htight := h.tight
        rwa [← h'.text_eq, charsOf_cons, List.append_assoc] at htight

end Shape

namespace Element

open Shape

variable {closer : Option Symbol} {rest text : List Char} {f : Shape} {fs parameters : List Shape}
  {c : Char} {fence : Fence} {offset : Nat}

theorem shapes_consElement (e : Element) (es : List Element) :
    shapes (e.cons es) = Shape.join e.shape (shapes es) := by
  unfold Element.cons
  split
  · simp [shape, Shape.join]
  · rename_i hne
    rw [shapes_cons, join_of_not_literal]
    intro g hg hlit
    cases es with
    | nil => cases hg
    | cons e' es' =>
      rw [shapes_cons, List.head?_cons, Option.mem_some_iff] at hg
      subst hg
      cases e with
      | literal text span =>
        cases e' with
        | literal text' span' => exact hne _ _ _ _ _ rfl rfl
        | _ => simp [shape, isLiteral] at hlit
      | _ => simp [shape, isLiteral] at hlit

theorem closes_iff :
    ((Symbol.ofChar? c).isSome && Symbol.ofChar? c == closer) = true ↔
      ∃ s, closer = some s ∧ s.char = c := by
  rw [Bool.and_eq_true, Option.isSome_iff_exists, beq_iff_eq]
  simp only [Symbol.ofChar?_eq_some_iff]
  constructor
  · rintro ⟨⟨s, hs⟩, rfl⟩
    exact ⟨s, Symbol.ofChar?_eq_some_iff.mpr hs, hs⟩
  · rintro ⟨s, rfl, hs⟩
    exact ⟨⟨s, hs⟩, Symbol.ofChar?_eq_some_iff.mpr hs⟩

/-! ## Soundness

What a reader answers is canonical and written as the text that it consumed, and stands where that
text does. One fact for each reader, by recursion along the readers. -/

mutual

/-- A chain that is read is canonical, and spells what was taken. -/
theorem readChain_sound (closer : Option Symbol) (offset : Nat) (text : List Char)
    {r : Read (List Element) text.length} (h : readChain closer offset text = .ok r) :
    ChainRead closer text (shapes r.value) r.rest ∧ AllCover r.value offset r.offset := by
  cases text with
  | nil =>
    rw [readChain] at h
    cases h
    exact ⟨⟨by simp, by simp, by simp, nofun⟩, allCover_nil offset⟩
  | cons c cs =>
    rw [readChain] at h
    split at h
    · rename_i hcloser
      cases h
      refine ⟨⟨by simp, by simp, by simp, fun d hd => ?_⟩, allCover_nil offset⟩
      obtain rfl := Option.some.inj hd
      exact closes_iff.mp hcloser
    · rename_i hcloser
      have hc : ∀ s, closer = some s → s.char ≠ c := fun s hs hsc =>
        hcloser (closes_iff.mpr ⟨s, hs, hsc⟩)
      split at h
      · cases h
      · rename_i e offset' rest hb hread
        split at h
        · cases h
        · rename_i es offset'' rest' hb' hread'
          cases h
          obtain ⟨he, hcovers⟩ := readElement_sound closer offset c cs hc hread
          obtain ⟨hes, hcover⟩ := readChain_sound closer offset' rest hread'
          rw [shapes_consElement]
          exact ⟨ChainRead.join he hes, hcover.consElement hcovers⟩
termination_by 4 * text.length + 1
decreasing_by
  all_goals subst_vars; simp only [List.length_cons]; omega

theorem readElement_sound (closer : Option Symbol) (offset : Nat) (c : Char) (cs : List Char)
    (hc : ∀ s, closer = some s → s.char ≠ c) {r : Read Element cs.length}
    (h : readElement offset c cs = .ok r) :
    ElementRead (.chain closer) (c :: cs) r.value.shape r.rest ∧ r.value.Covers offset r.offset := by
  rw [readElement] at h
  dsimp only at h
  have hbracket : ∀ s : Symbol, s = .leftBracket ∨ s = .rightBracket → s.char = c →
      ElementRead (.chain closer) (c :: cs) (.literal (String.ofList [c])) cs ∧
        (literal (String.ofList [c]) ⟨offset, offset + c.utf8Size⟩).Covers offset
          (offset + c.utf8Size) := by
    rintro s hs rfl
    refine ⟨⟨by simp [Shape.chars], ?_, tight_of_trailing rfl _⟩,
      covers_literal.mpr ⟨rfl, by simp⟩⟩
    rw [canonical_literal, String.toList_ofList]
    exact ⟨by simp, .bracket hs (fun heq => hc s heq rfl) .nil⟩
  split at h
  · rename_i hplain
    cases h
    refine ⟨⟨?_, ?_, tight_of_trailing rfl _⟩, covers_literal.mpr ⟨rfl, by simp⟩⟩
    · simp [shape, Shape.chars]
    · rw [shape, canonical_literal, String.toList_ofList]
      refine ⟨by simp, .plain (by simp [isPlain, hplain]) (.of_plain fun d hd => ?_)⟩
      exact List.mem_takeWhile_imp hd
  · rename_i hsymbol
    obtain rfl := Symbol.ofChar?_eq_some_iff.mp hsymbol
    obtain ⟨hread, ⟨inner, hinner⟩, hcovers⟩ := readGroup_sound .braces offset cs h
    exact ⟨(hread.of_braces hinner).of_operand closer, hcovers⟩
  · cases h
  · rename_i hsymbol
    cases h
    exact hbracket .leftBracket (Or.inl rfl) (Symbol.ofChar?_eq_some_iff.mp hsymbol)
  · rename_i hsymbol
    cases h
    exact hbracket .rightBracket (Or.inr rfl) (Symbol.ofChar?_eq_some_iff.mp hsymbol)
  · rename_i hsymbol
    obtain rfl := Symbol.ofChar?_eq_some_iff.mp hsymbol
    exact readScript_sound closer .subscript offset cs h
  · rename_i hsymbol
    obtain rfl := Symbol.ofChar?_eq_some_iff.mp hsymbol
    exact readScript_sound closer .superscript offset cs h
  · rename_i hsymbol
    obtain rfl := Symbol.ofChar?_eq_some_iff.mp hsymbol
    obtain ⟨hread, hcovers⟩ := readCommand_sound offset cs h
    exact ⟨hread.of_operand closer, hcovers⟩
termination_by 4 * cs.length + 4

theorem readGroup_sound (fence : Fence) (start : Nat) (text : List Char)
    {r : Read Element text.length}
    (h : readGroup fence ⟨start, start + fence.opening.char.utf8Size⟩
      (start + fence.opening.char.utf8Size) text = .ok r) :
    ElementRead .parameter (fence.opening.char :: text) r.value.shape r.rest ∧
      (∃ inner, r.value.shape = .group fence inner) ∧ r.value.Covers start r.offset := by
  rw [readGroup] at h
  split at h
  · cases h
  · rename_i inner offset' rest hb hread
    obtain ⟨hinner, htiled, htile⟩ := readChain_sound (some fence.closing) _ text hread
    have hle := htile.le
    cases rest with
    | nil => cases h
    | cons c rest =>
      cases h
      obtain ⟨s, hs, rfl⟩ := hinner.ended c rfl
      obtain rfl := Option.some.inj hs
      dsimp only at hle htile
      refine ⟨⟨?_, ?_, tight_of_trailing rfl _⟩, ⟨_, by rw [shape]⟩, ?_⟩
      · simp [shape, Shape.chars, ← hinner.text_eq]
      · rw [shape, canonical_group]
        exact ⟨fun hne => absurd rfl hne, hinner.canonicalChain⟩
      · dsimp only
        rw [Span.union_of_le (by omega) (by omega), Covers, Tiled]
        exact ⟨⟨htiled, offset', htile, rfl⟩, rfl⟩
termination_by 4 * text.length + 2

theorem readScript_sound (closer : Option Symbol) (marker : Marker) (start : Nat)
    (text : List Char) {r : Read Element text.length}
    (h : readScript marker ⟨start, start + marker.char.utf8Size⟩ (start + marker.char.utf8Size)
      text = .ok r) :
    ElementRead (.chain closer) (marker.char :: text) r.value.shape r.rest ∧
      r.value.Covers start r.offset := by
  cases text with
  | nil =>
    rw [readScript] at h
    cases h
  | cons c cs =>
    rw [readScript] at h
    split at h
    · cases h
    · rename_i operand offset' rest hb hread
      cases h
      have hoperand : ElementRead .operand (c :: cs) operand.shape rest ∧
          operand.Covers (start + marker.char.utf8Size) offset' := by
        split at hread
        · rename_i hplain
          cases hread
          refine ⟨⟨by simp [shape, Shape.chars], ?_, tight_of_trailing rfl _⟩,
            covers_literal.mpr ⟨rfl, by simp⟩⟩
          rw [shape, Canonical]
          exact Or.inl ⟨c, by simp [isPlain, hplain], by simp⟩
        · rename_i hsymbol
          obtain rfl := Symbol.ofChar?_eq_some_iff.mp hsymbol
          obtain ⟨hgroup, ⟨inner, hinner⟩, hcovers⟩ := readGroup_sound .braces _ cs hread
          exact ⟨hgroup.of_braces hinner, hcovers⟩
        · rename_i hsymbol
          obtain rfl := Symbol.ofChar?_eq_some_iff.mp hsymbol
          exact readCommand_sound _ cs hread
        · cases hread
      obtain ⟨hoperand, hcovers⟩ := hoperand
      have hle := hcovers.le
      refine ⟨⟨?_, ?_, ?_⟩, ?_⟩
      · rw [shape, Shape.chars, List.cons_append, hoperand.text_eq]
      · rw [shape, canonical_script]
        exact hoperand.canonical
      · exact hoperand.tight
      · dsimp only
        rw [hcovers.2, Span.union_of_le (by omega) hle, Covers, Tiled, hcovers.2]
        exact ⟨⟨hcovers.1, offset', ⟨rfl, hle, rfl⟩, rfl⟩, rfl⟩
termination_by 4 * text.length + 3

theorem readCommand_sound (start : Nat) (text : List Char) {r : Read Element text.length}
    (h : readCommand ⟨start, start + Symbol.backslash.char.utf8Size⟩
      (start + Symbol.backslash.char.utf8Size) text = .ok r) :
    ElementRead .operand (Symbol.backslash.char :: text) r.value.shape r.rest ∧
      r.value.Covers start r.offset := by
  cases text with
  | nil =>
    rw [readCommand] at h
    cases h
  | cons c cs =>
    rw [readCommand] at h
    dsimp only at h
    split at h
    · rename_i hsymbol
      cases h
      obtain ⟨s, hs⟩ := Option.isSome_iff_exists.mp hsymbol
      obtain rfl := Symbol.ofChar?_eq_some_iff.mp hs
      rw [Span.union_of_le (by omega) (by omega)]
      refine ⟨⟨by simp [shape, Shape.chars, Symbol.char], ?_, tight_of_trailing rfl _⟩,
        covers_literal.mpr ⟨rfl, ?_⟩⟩
      · rw [shape, Canonical]
        exact Or.inr ⟨s, by simp [Symbol.char]⟩
      · rw [String.toList_ofList, Text.byteSize_cons, Text.byteSize_cons, Text.byteSize_nil,
          Nat.add_zero, Nat.add_assoc]
        rfl
    · split at h
      · rename_i hmark
        cases h
        have hname : isMark (String.ofList [c]) = true := isMark_iff.mpr ⟨c, hmark, rfl⟩
        rw [Span.union_of_le (by omega) (by omega)]
        refine ⟨⟨by simp [commandOf, shape, Shape.chars], ?_, tight_of_trailing ?_ _⟩,
          covers_commandOf ?_ (allCover_nil _)⟩
        · rw [commandOf, shape, canonical_command]
          exact ⟨nofun, Or.inl ⟨hname, by simp⟩⟩
        · rw [commandOf, shape, trailing, isWord_of_isMark hname]
          rfl
        · rw [String.toList_ofList, Text.byteSize_cons, Text.byteSize_cons, Text.byteSize_nil,
            Nat.add_zero, Nat.add_assoc]
      · split at h
        · rename_i hletter
          split at h
          · cases h
          · rename_i ps offset' rest hb hread
            cases h
            have hdrop := (List.dropWhile_suffix (l := cs) Text.isLetter).length_le
            obtain ⟨hps, hcover⟩ := readParameters_sound _ _ hread
            have hname : isWord (String.ofList (c :: cs.takeWhile Text.isLetter)) = true :=
              isWord_iff.mpr ⟨c, _, rfl, hletter, fun d hd => List.mem_takeWhile_imp hd⟩
            rw [Span.union_of_le (by omega) (by omega)]
            refine ⟨⟨?_, ?_, ?_⟩, covers_commandOf ?_ hcover⟩
            · simp [commandOf, shape, Shape.chars, hps.text_eq]
            · rw [commandOf, shape, canonical_command]
              exact ⟨nofun, Or.inr ⟨hname, hps.canonical⟩⟩
            · rw [commandOf, shape]
              intro parameters htrailing d hd
              rw [trailing, if_pos hname] at htrailing
              obtain rfl := Option.some.inj htrailing
              refine ⟨hps.ended d hd, fun hnil => ?_⟩
              -- Without parameters, reading went on right after the longest run of letters.
              have hrest : rest = cs.dropWhile Text.isLetter := by
                rw [← hps.text_eq, hnil, charsOf_nil, List.nil_append]
              have hnot := List.head?_dropWhile_not Text.isLetter cs
              rw [← hrest, Option.mem_def.mp hd] at hnot
              exact hnot
            · rw [String.toList_ofList, Text.byteSize_cons _ (c :: _), Nat.add_assoc]
        · cases h
termination_by 4 * text.length + 3
decreasing_by
  all_goals subst_vars; simp only [List.length_cons]; omega

theorem readParameters_sound (offset : Nat) (text : List Char)
    {r : Read (List Element) text.length} (h : readParameters offset text = .ok r) :
    ParametersRead text (shapes r.value) r.rest ∧ AllCover r.value offset r.offset := by
  cases text with
  | nil =>
    rw [readParameters] at h
    cases h
    exact ⟨⟨by simp, by simp, nofun⟩, allCover_nil offset⟩
  | cons c cs =>
    rw [readParameters] at h
    split at h
    · rename_i hfence
      cases h
      refine ⟨⟨by simp, by simp, fun d hd fence heq => ?_⟩, allCover_nil offset⟩
      obtain rfl := Option.some.inj hd
      subst heq
      cases fence <;> simp [Fence.opening] at hfence
    · rename_i fence hfence
      have hc : fence.opening.char = c := by
        split at hfence
        all_goals cases hfence
        all_goals exact Symbol.ofChar?_eq_some_iff.mp (by assumption)
      obtain rfl := hc
      split at h
      · cases h
      · rename_i p offset' rest hb hread
        split at h
        · cases h
        · rename_i ps offset'' rest' hb' hread'
          cases h
          obtain ⟨hgroup, -, hcovers⟩ := readGroup_sound fence offset cs hread
          obtain ⟨hps, hcover⟩ := readParameters_sound _ _ hread'
          refine ⟨⟨?_, ?_, hps.ended⟩, hcover.cons hcovers⟩
          · rw [shapes_cons, charsOf_cons, List.append_assoc, hps.text_eq, hgroup.text_eq]
          · exact (shapes_cons p ps).symm ▸ allCanonical_cons.mpr ⟨hgroup.canonical, hps.canonical⟩
termination_by 4 * text.length + 1
decreasing_by
  all_goals subst_vars; simp only [List.length_cons]; omega

end

/-! ## How the readers call each other -/

section

variable {α β γ : Type} {n m : Nat}

/-- A reader gives a value and comes to an offset, with a text left. -/
def Answers (answer : Except SyntaxError (Read α n)) (value : α) (offset : Nat)
    (rest : List Char) : Prop :=
  ∃ h, answer = .ok ⟨value, offset, rest, h⟩

/-- One reader answers as another one does, with another value. -/
structure Maps (f : α → β) (x : Except SyntaxError (Read α n)) (y : Except SyntaxError (Read β m)) :
    Prop where
  fault : ∀ {e}, x = .error e → y = .error e
  value : ∀ {a offset rest}, Answers x a offset rest → Answers y (f a) offset rest

/-- One reader goes on where another one stopped, and puts the two values together. -/
structure Binds (f : α → β → γ) (x : Except SyntaxError (Read α n))
    (k : (offset : Nat) → (rest : List Char) → Except SyntaxError (Read β rest.length))
    (y : Except SyntaxError (Read γ m)) : Prop where
  fault : ∀ {e}, x = .error e → y = .error e
  later_fault : ∀ {a offset rest e}, Answers x a offset rest → k offset rest = .error e →
    y = .error e
  value : ∀ {a offset rest b offset' rest'}, Answers x a offset rest →
    Answers (k offset rest) b offset' rest' → Answers y (f a b) offset' rest'

end

theorem binds_readChain (hc : ¬((Symbol.ofChar? c).isSome && Symbol.ofChar? c == closer) = true)
    (offset : Nat) (cs : List Char) :
    Binds Element.cons (readElement offset c cs) (readChain closer)
      (readChain closer offset (c :: cs)) := by
  rw [readChain, if_neg hc]
  refine ⟨fun h => ?_, fun h h' => ?_, fun h h' => ?_⟩
  · rw [h]
  · obtain ⟨hb, h⟩ := h
    rw [h]
    dsimp only
    rw [h']
  · obtain ⟨hb, h⟩ := h
    obtain ⟨hb', h'⟩ := h'
    rw [h]
    dsimp only
    rw [h']
    exact ⟨_, rfl⟩

theorem binds_readParameters (fence : Fence) (offset : Nat) (cs : List Char) :
    Binds List.cons (readGroup fence ⟨offset, offset + fence.opening.char.utf8Size⟩
      (offset + fence.opening.char.utf8Size) cs) readParameters
      (readParameters offset (fence.opening.char :: cs)) := by
  rw [readParameters, ofChar?_char]
  refine ⟨fun h => ?_, fun h h' => ?_, fun h h' => ?_⟩
  · cases fence <;> simp only [Fence.opening] at h ⊢ <;> rw [h]
  · obtain ⟨hb, h⟩ := h
    cases fence <;> simp only [Fence.opening] at h ⊢ <;> rw [h] <;> dsimp only <;> rw [h']
  · obtain ⟨hb, h⟩ := h
    obtain ⟨hb', h'⟩ := h'
    cases fence <;> simp only [Fence.opening] at h ⊢ <;> rw [h] <;> dsimp only <;> rw [h'] <;>
      exact ⟨_, rfl⟩

theorem maps_readScript_leftBrace (marker : Marker) (place : Span) (offset : Nat) (cs : List Char) :
    Maps (fun e => .script marker e (place.union e.span))
      (readGroup .braces ⟨offset, offset + Symbol.leftBrace.char.utf8Size⟩
        (offset + Symbol.leftBrace.char.utf8Size) cs)
      (readScript marker place offset (Symbol.leftBrace.char :: cs)) := by
  rw [readScript, ofChar?_char]
  dsimp only
  refine ⟨fun h => by rw [h], fun h => ?_⟩
  obtain ⟨hb, h⟩ := h
  rw [h]
  exact ⟨_, rfl⟩

theorem maps_readScript_backslash (marker : Marker) (place : Span) (offset : Nat) (cs : List Char) :
    Maps (fun e => .script marker e (place.union e.span))
      (readCommand ⟨offset, offset + Symbol.backslash.char.utf8Size⟩
        (offset + Symbol.backslash.char.utf8Size) cs)
      (readScript marker place offset (Symbol.backslash.char :: cs)) := by
  rw [readScript, ofChar?_char]
  dsimp only
  refine ⟨fun h => by rw [h], fun h => ?_⟩
  obtain ⟨hb, h⟩ := h
  rw [h]
  exact ⟨_, rfl⟩

/-- The name of a command is a word. -/
theorem maps_readCommand (hsymbol : ¬(Symbol.ofChar? c).isSome = true) (hmark : c ∉ punctuation)
    (hletter : Text.isLetter c = true) (backslash : Span) (offset : Nat) (cs : List Char) :
    Maps (fun ps => commandOf (String.ofList (c :: cs.takeWhile Text.isLetter)) ps
        (backslash.union ⟨offset, offset + Text.byteSize (c :: cs.takeWhile Text.isLetter)⟩))
      (readParameters (offset + Text.byteSize (c :: cs.takeWhile Text.isLetter))
        (cs.dropWhile Text.isLetter))
      (readCommand backslash offset (c :: cs)) := by
  rw [readCommand, if_neg hsymbol, if_neg hmark, if_pos hletter]
  dsimp only
  refine ⟨fun h => by rw [h], fun h => ?_⟩
  obtain ⟨hb, h⟩ := h
  rw [h]
  exact ⟨_, rfl⟩

theorem readGroup_answers {offset' : Nat} {inner : List Element}
    (h : Answers (readChain (some fence.closing) offset text) inner offset' (c :: rest))
    (opening : Span) :
    Answers (readGroup fence opening offset text)
      (.group fence inner (opening.union ⟨offset', offset' + c.utf8Size⟩)) (offset' + c.utf8Size)
      rest := by
  obtain ⟨hb, h⟩ := h
  rw [readGroup, h]
  exact ⟨_, rfl⟩

theorem readChain_ended (h : Ended closer rest) (offset : Nat) :
    Answers (readChain closer offset rest) [] offset rest := by
  cases rest with
  | nil => exact ⟨Nat.le_refl _, by rw [readChain]⟩
  | cons c cs =>
    rw [readChain, if_pos (closes_iff.mpr (h c rfl))]
    exact ⟨_, rfl⟩

theorem readParameters_ended (h : ∀ c ∈ rest.head?, ∀ fence : Fence, c ≠ fence.opening.char)
    (offset : Nat) : Answers (readParameters offset rest) [] offset rest := by
  cases rest with
  | nil => exact ⟨Nat.le_refl _, by rw [readParameters]⟩
  | cons c cs =>
    rw [readParameters]
    split
    · exact ⟨_, rfl⟩
    · rename_i fence hfence
      refine absurd ?_ (h c rfl fence)
      split at hfence
      all_goals cases hfence
      all_goals exact (Symbol.ofChar?_eq_some_iff.mp (by assumption)).symm

/-! ## Completeness

Each reader gives a canonical shape back from its text, whatever follows that cannot belong to it.
-/

/-- A reader succeeds, with a value that looks as given, and stops before the given text. -/
def Gives {α β : Type} {n : Nat} (result : Except SyntaxError (Read α n)) (view : α → β)
    (value : β) (rest : List Char) : Prop :=
  ∃ r, result = .ok r ∧ view r.value = value ∧ r.rest = rest

section

variable {α β γ α' β' γ' : Type} {n m : Nat}

theorem Answers.gives {x : Except SyntaxError (Read α n)} {a : α} (h : Answers x a offset rest)
    (view : α → α') : Gives x view (view a) rest := by
  obtain ⟨_, h⟩ := h
  exact ⟨_, h, rfl, rfl⟩

theorem Maps.gives {f : α → β} {g : α' → β'} {x : Except SyntaxError (Read α n)}
    {y : Except SyntaxError (Read β m)} {view : α → α'} {view' : β → β'} {a : α'} (h : Maps f x y)
    (hx : Gives x view a rest) (hview : ∀ a, view' (f a) = g (view a)) :
    Gives y view' (g a) rest := by
  obtain ⟨⟨a, offset, rest, hb⟩, hx, rfl, rfl⟩ := hx
  exact hview a ▸ (h.value ⟨hb, hx⟩).gives view'

theorem Binds.gives {f : α → β → γ} {g : α' → β' → γ'} {x : Except SyntaxError (Read α n)}
    {k : (offset : Nat) → (rest : List Char) → Except SyntaxError (Read β rest.length)}
    {y : Except SyntaxError (Read γ m)} {view : α → α'} {view' : β → β'} {view'' : γ → γ'} {a : α'}
    {b : β'} (h : Binds f x k y) (hx : Gives x view a rest)
    (hk : ∀ offset, Gives (k offset rest) view' b rest')
    (hview : ∀ a b, view'' (f a b) = g (view a) (view' b)) : Gives y view'' (g a b) rest' := by
  obtain ⟨⟨a, offset, rest, hb⟩, hx, rfl, rfl⟩ := hx
  obtain ⟨⟨b, offset', rest', hb'⟩, hy, rfl, rfl⟩ := hk offset
  exact hview a b ▸ (h.value ⟨hb, hx⟩ ⟨hb', hy⟩).gives view''

end

theorem readChain_step {cs : List Char} (hc : ∀ s, closer = some s → s.char ≠ c)
    (h : Gives (readElement offset c cs) shape f rest)
    (h' : ∀ offset, Gives (readChain closer offset rest) shapes fs rest') :
    Gives (readChain closer offset (c :: cs)) shapes (Shape.join f fs) rest' := by
  refine (binds_readChain (fun heq => ?_) offset cs).gives h h' shapes_consElement
  obtain ⟨s, hs, hsc⟩ := closes_iff.mp heq
  exact hc s hs hsc

/-- A literal in front of elements, unless it is empty. -/
def literalThen (cs : List Char) (fs : List Shape) : List Shape :=
  if cs = [] then fs else .literal (String.ofList cs) :: fs

theorem join_literalThen {run cs : List Char} (hrun : run ≠ [])
    (hfs : ∀ f ∈ fs.head?, f.isLiteral = false) :
    Shape.join (.literal (String.ofList run)) (literalThen cs fs) = literalThen (run ++ cs) fs := by
  by_cases hcs : cs = []
  · rw [literalThen, if_pos hcs, hcs, List.append_nil, literalThen, if_neg hrun,
      join_of_not_literal fun g hg => by simp [hfs g hg]]
  · rw [literalThen, if_neg hcs, literalThen, if_neg (by simp [hrun]), Shape.join]
    simp

/-- Whether a symbol, if any, closes groups. -/
def IsCloser (closer : Option Symbol) : Prop := ∀ s ∈ closer, ∃ fence : Fence, s = fence.closing

theorem IsCloser.ne (h : IsCloser closer) {s : Symbol} (hs : ∀ fence : Fence, s ≠ fence.closing) :
    ∀ s', closer = some s' → s'.char ≠ s.char := by
  intro s' hs' heq
  obtain ⟨fence, rfl⟩ := h s' hs'
  exact hs fence (char_injective heq).symm

/-- Reading a literal piece by piece puts it together again. -/
theorem readChain_literal {closer : Option Symbol} {fs : List Shape} {rest rest' : List Char}
    (hcloser : IsCloser closer) (hfs : ∀ f ∈ fs.head?, f.isLiteral = false)
    (hrest : ∀ c ∈ rest.head?, isPlain c = false)
    (h : ∀ offset, Gives (readChain closer offset rest) shapes fs rest') (cs : List Char)
    (hcs : Written closer cs) (offset : Nat) :
    Gives (readChain closer offset (cs ++ rest)) shapes (literalThen cs fs) rest' := by
  cases hcs with
  | nil => exact h offset
  | @plain c cs hc hcs =>
    obtain ⟨htake, hdrop⟩ := span_append hrest cs
    have helement : Gives (readElement offset c (cs ++ rest)) shape
        (.literal (String.ofList (c :: cs.takeWhile isPlain))) (cs.dropWhile isPlain ++ rest) := by
      rw [readElement, Option.isNone_iff_eq_none.mp hc]
      exact ⟨_, rfl, by rw [htake, shape], hdrop⟩
    have hle : (cs.dropWhile isPlain).length ≤ cs.length := (List.dropWhile_suffix _).length_le
    have hstep := readChain_step (fun s _ => isPlain_iff.mp hc s) helement
      (readChain_literal hcloser hfs hrest h _ hcs.dropWhile)
    rwa [join_literalThen (by simp) hfs, List.cons_append, List.takeWhile_append_dropWhile] at hstep
  | @bracket s cs hs hne hcs =>
    have helement : Gives (readElement offset s.char (cs ++ rest)) shape
        (.literal (String.ofList [s.char])) (cs ++ rest) := by
      rw [readElement, ofChar?_char]
      rcases hs with rfl | rfl <;> exact ⟨_, rfl, by rw [shape], rfl⟩
    have hclose : ∀ s', closer = some s' → s'.char ≠ s.char := by
      intro s' hs' heq
      exact hne (char_injective heq ▸ hs')
    have hstep := readChain_step hclose helement (readChain_literal hcloser hfs hrest h cs hcs)
    rwa [join_literalThen (by simp) hfs] at hstep
  | @escape s cs hcs =>
    have helement : Gives (readElement offset Symbol.backslash.char (s.char :: (cs ++ rest))) shape
        (.literal (String.ofList [Symbol.backslash.char, s.char])) (cs ++ rest) := by
      rw [readElement, ofChar?_char]
      dsimp only
      rw [readCommand, if_pos (by simp)]
      exact ⟨_, rfl, by rw [shape]; rfl, rfl⟩
    have hstep := readChain_step (hcloser.ne (s := .backslash) fun fence => by cases fence <;> decide)
      helement (readChain_literal hcloser hfs hrest h cs hcs)
    rwa [join_literalThen (by simp) hfs] at hstep
termination_by cs.length

theorem isCloser_closing (fence : Fence) : IsCloser (some fence.closing) := by
  intro s hs
  exact ⟨fence, (Option.some.inj hs).symm⟩

theorem ended_closing (fence : Fence) (rest : List Char) :
    Ended (some fence.closing) (fence.closing.char :: rest) := by
  intro c hc
  exact ⟨_, rfl, Option.some.inj hc⟩

theorem readGroup_of_chain (hinner : CanonicalChain (some fence.closing) inner)
    (h : AllCanonical (.chain (some fence.closing)) inner → inner.IsChain MayFollow → ∀ offset,
      Gives (readChain (some fence.closing) offset (charsOf inner ++ fence.closing.char :: rest))
        shapes inner (fence.closing.char :: rest)) (opening : Span) (offset : Nat) :
    Gives (readGroup fence opening offset (charsOf inner ++ fence.closing.char :: rest)) shape
      (.group fence inner) rest := by
  obtain ⟨fs, hfs, hchain⟩ : ∃ fs, Shape.chain fs = inner ∧
      Gives (readChain (some fence.closing) offset (charsOf inner ++ fence.closing.char :: rest))
        shapes fs (fence.closing.char :: rest) := by
    rcases hinner with rfl | ⟨hne, hall, hneighbours⟩
    · refine ⟨[], rfl, ?_⟩
      have htext : charsOf [.empty] ++ fence.closing.char :: rest = fence.closing.char :: rest := by
        simp [Shape.chars]
      rw [htext]
      exact (readChain_ended (ended_closing fence rest) offset).gives shapes
    · obtain ⟨f, fs, rfl⟩ := List.exists_cons_of_ne_nil hne
      exact ⟨_, rfl, h hall hneighbours offset⟩
  obtain ⟨⟨es, offset', rest', hb⟩, hread, hes, hrest⟩ := hchain
  dsimp only at hes hrest
  subst hrest
  have hgroup := (readGroup_answers ⟨hb, hread⟩ opening).gives shape
  rwa [shape, hes, hfs] at hgroup

/-- What comes after a name that is a word does not continue it. -/
theorem head_parameters (hparameters : AllCanonical .parameter parameters)
    (h : parameters = [] → ∀ c ∈ rest.head?, Text.isLetter c = false) :
    ∀ c ∈ (charsOf parameters ++ rest).head?, Text.isLetter c = false := by
  cases parameters with
  | nil =>
    rw [charsOf_nil, List.nil_append]
    exact h rfl
  | cons p ps =>
    have hp := (allCanonical_cons.mp hparameters).1.isGroup
    cases p with
    | group fence inner =>
      intro c hc
      rw [charsOf_cons, Shape.chars] at hc
      obtain rfl := Option.some.inj hc
      exact isLetter_char _
    | _ => cases hp

theorem readCommand_of_parameters {name : String} (hname : isMark name = true ∧ parameters = [] ∨
      isWord name = true ∧ AllCanonical .parameter parameters)
    (htight : (Shape.command name parameters).Tight rest)
    (h : (∀ c ∈ rest.head?, ∀ fence : Fence, c ≠ fence.opening.char) → ∀ offset,
      Gives (readParameters offset (charsOf parameters ++ rest)) shapes parameters rest)
    (backslash : Span) (offset : Nat) :
    Gives (readCommand backslash offset (name.toList ++ (charsOf parameters ++ rest))) shape
      (.command name parameters) rest := by
  rcases hname with ⟨hmark, rfl⟩ | ⟨hword, hparameters⟩
  · obtain ⟨c, hc, rfl⟩ := isMark_iff.mp hmark
    have hplain : ¬(Symbol.ofChar? c).isSome = true := by
      simpa [isPlain] using (punctuation_plain hc).1
    rw [String.toList_ofList, List.cons_append, readCommand, if_neg hplain, if_pos hc]
    exact ⟨_, rfl, by simp [commandOf, shape], by simp⟩
  · have htail := htight parameters (by rw [trailing, if_pos hword])
    obtain ⟨c, cs, rfl, hc, hcs⟩ := isWord_iff.mp hword
    have hplain : ¬(Symbol.ofChar? c).isSome = true := by
      intro hsome
      obtain ⟨s, hs⟩ := Option.isSome_iff_exists.mp hsome
      rw [← Symbol.ofChar?_eq_some_iff.mp hs, isLetter_char] at hc
      cases hc
    have hmark : c ∉ punctuation := fun hmem => by simp [(punctuation_plain hmem).2] at hc
    obtain ⟨htake, hdrop⟩ := span_append
      (head_parameters hparameters fun hnil d hd => (htail d hd).2 hnil) cs
    rw [List.takeWhile_eq_self_iff.mpr hcs] at htake
    rw [List.dropWhile_eq_nil_iff.mpr hcs, List.nil_append] at hdrop
    have hread : ∀ offset, Gives
        (readParameters offset ((cs ++ (charsOf parameters ++ rest)).dropWhile Text.isLetter))
        shapes parameters rest := by
      rw [hdrop]
      exact h fun d hd => (htail d hd).1
    have hmap := maps_readCommand hplain hmark hc backslash offset (cs ++ (charsOf parameters ++ rest))
    rw [htake] at hmap
    rw [String.toList_ofList]
    exact hmap.gives (hread _) fun ps => by rw [commandOf, shape]

theorem readScript_brace
    (h : ∀ opening offset, Gives (readGroup .braces opening offset text) shape f rest)
    (marker : Marker) (place : Span) (offset : Nat) :
    Gives (readScript marker place offset (Symbol.leftBrace.char :: text)) shape
      (.script marker f) rest :=
  (maps_readScript_leftBrace marker place offset text).gives (h _ _) fun e => by rw [shape]

theorem readScript_backslash
    (h : ∀ backslash offset, Gives (readCommand backslash offset text) shape f rest)
    (marker : Marker) (place : Span) (offset : Nat) :
    Gives (readScript marker place offset (Symbol.backslash.char :: text)) shape
      (.script marker f) rest :=
  (maps_readScript_backslash marker place offset text).gives (h _ _) fun e => by rw [shape]

theorem readParameters_step
    (h : ∀ opening offset, Gives (readGroup fence opening offset text) shape f rest)
    (h' : ∀ offset, Gives (readParameters offset rest) shapes fs rest') (offset : Nat) :
    Gives (readParameters offset (fence.opening.char :: text)) shapes (f :: fs) rest' :=
  (binds_readParameters fence offset text).gives (h _ _) h' shapes_cons

/-- All that is not a literal starts with a symbol, and not with one that closes a group. -/
theorem chars_eq_symbol_cons (h : Canonical (.chain closer) f) (hlit : f.isLiteral = false) :
    ∃ (s : Symbol) (cs : List Char), f.chars = s.char :: cs ∧ ∀ fence : Fence, s ≠ fence.closing := by
  cases f with
  | literal => cases hlit
  | empty | block => simp [Canonical] at h
  | group fence inner =>
    refine ⟨fence.opening, _, by rw [Shape.chars], fun fence' => ?_⟩
    cases fence <;> cases fence' <;> decide
  | script marker operand =>
    refine ⟨marker.symbol, _, by rw [Shape.chars, Marker.char], fun fence' => ?_⟩
    cases marker <;> cases fence' <;> decide
  | command =>
    refine ⟨.backslash, _, by rw [Shape.chars], fun fence' => ?_⟩
    cases fence' <;> decide

/-- What follows an element of a canonical chain does not belong to it. -/
theorem tight_of_isChain (hcloser : IsCloser closer) (hall : AllCanonical (.chain closer) (f :: fs))
    (hchain : (f :: fs).IsChain MayFollow) (hended : Ended closer rest) :
    f.Tight (charsOf fs ++ rest) := by
  cases fs with
  | nil =>
    intro parameters _ c hc
    obtain ⟨s, hs, rfl⟩ := hended c hc
    obtain ⟨fence, rfl⟩ := hcloser s hs
    refine ⟨fun fence' => ?_, fun _ => isLetter_char _⟩
    cases fence <;> cases fence' <;> decide
  | cons g gs =>
    have hg := (allCanonical_cons.mp (allCanonical_cons.mp hall).2).1
    rw [charsOf_cons, List.append_assoc]
    exact ((mayFollow_iff hg _).mp (List.isChain_cons_cons.mp hchain).1).2

/-- The text after a literal of a canonical chain does not continue it. -/
theorem not_plain_of_isChain {text : String} (hall : AllCanonical (.chain closer) fs)
    (hchain : (.literal text :: fs).IsChain MayFollow) (hended : Ended closer rest) :
    (∀ g ∈ fs.head?, g.isLiteral = false) ∧
      ∀ c ∈ (charsOf fs ++ rest).head?, isPlain c = false := by
  cases fs with
  | nil =>
    refine ⟨nofun, fun c hc => ?_⟩
    obtain ⟨s, -, rfl⟩ := hended c hc
    exact isPlain_char s
  | cons g gs =>
    have hg : g.isLiteral = false := by
      have hnot := (List.isChain_cons_cons.mp hchain).1.1
      simpa [isLiteral] using hnot
    obtain ⟨s, cs, hcs, -⟩ := chars_eq_symbol_cons (allCanonical_cons.mp hall).1 hg
    refine ⟨by simpa using hg, fun c hc => ?_⟩
    rw [charsOf_cons, hcs] at hc
    obtain rfl := Option.some.inj hc
    exact isPlain_char s

mutual

/-- Every canonical chain is read back from its text. -/
theorem readChain_complete {closer : Option Symbol} (hcloser : IsCloser closer) :
    ∀ (fs : List Shape) {rest : List Char}, AllCanonical (.chain closer) fs →
      fs.IsChain MayFollow → Ended closer rest → ∀ offset,
      Gives (readChain closer offset (charsOf fs ++ rest)) shapes fs rest
  | [], rest, _, _, hended, offset => by
    rw [charsOf_nil, List.nil_append]
    exact (readChain_ended hended offset).gives shapes
  | f :: fs, rest, hall, hchain, hended, offset => by
    obtain ⟨hf, hfs⟩ := allCanonical_cons.mp hall
    have ih := readChain_complete hcloser fs hfs (List.isChain_cons.mp hchain).2 hended
    by_cases hlit : f.isLiteral = true
    · obtain ⟨text, rfl⟩ : ∃ text, f = .literal text := by
        cases f <;> simp_all [isLiteral]
      obtain ⟨hne, hwritten⟩ := canonical_literal.mp hf
      obtain ⟨hnext, hplain⟩ := not_plain_of_isChain hfs hchain hended
      have hread := readChain_literal hcloser hnext hplain ih text.toList hwritten offset
      rw [literalThen, if_neg (by simpa using hne), String.ofList_toList] at hread
      rwa [charsOf_cons, Shape.chars, List.append_assoc]
    · have hlit : f.isLiteral = false := by simpa using hlit
      obtain ⟨s, cs, hcs, hs⟩ := chars_eq_symbol_cons hf hlit
      have htight := tight_of_isChain hcloser hall hchain hended
      have helement := readElement_complete f hf hlit htight
        (by rw [hcs, List.cons_append]) offset
      have hstep := readChain_step (hcloser.ne hs) helement ih
      rw [join_of_not_literal (by simp [hlit])] at hstep
      rwa [charsOf_cons, hcs, List.append_assoc, List.cons_append]

theorem readElement_complete {closer : Option Symbol} :
    ∀ (f : Shape) {rest : List Char} {c : Char} {cs : List Char}, Canonical (.chain closer) f →
      f.isLiteral = false → f.Tight rest → f.chars ++ rest = c :: cs → ∀ offset,
      Gives (readElement offset c cs) shape f rest
  | .literal text, _, _, _, _, hlit, _, _, _ => by cases hlit
  | .empty, _, _, _, h, _, _, _, _
  | .block _ _ _, _, _, _, h, _, _, _, _ => by simp [Canonical] at h
  | .group fence inner, rest, c, cs, h, _, _, htext, offset => by
    rw [canonical_group] at h
    obtain rfl := h.1 nofun
    rw [Shape.chars, List.cons_append, List.append_assoc] at htext
    obtain ⟨rfl, rfl⟩ := List.cons.inj htext
    rw [readElement, Fence.opening, ofChar?_char]
    exact readGroup_of_chain h.2 (fun hall hchain => readChain_complete (isCloser_closing _) inner
      hall hchain (ended_closing _ _)) _ _
  | .script marker operand, rest, c, cs, h, _, htight, htext, offset => by
    rw [Shape.chars, List.cons_append] at htext
    obtain ⟨rfl, rfl⟩ := List.cons.inj htext
    have hread := readScript_complete marker operand (canonical_script.mp h) htight
    cases marker <;> rw [readElement, Marker.char, Marker.symbol, ofChar?_char] <;> exact hread _ _
  | .command name parameters, rest, c, cs, h, _, htight, htext, offset => by
    rw [Shape.chars, List.cons_append, List.append_assoc] at htext
    obtain ⟨rfl, rfl⟩ := List.cons.inj htext
    rw [readElement, ofChar?_char]
    have hname := (canonical_command.mp h).2
    refine readCommand_of_parameters hname htight (fun hend => ?_) _ _
    refine readParameters_complete parameters ?_ hend
    rcases hname with ⟨-, rfl⟩ | ⟨-, hall⟩
    · exact allCanonical_nil _
    · exact hall

theorem readScript_complete (marker : Marker) :
    ∀ (f : Shape) {rest : List Char}, Canonical .operand f → f.Tight rest → ∀ place offset,
      Gives (readScript marker place offset (f.chars ++ rest)) shape (.script marker f) rest
  | .literal text, rest, h, _, place, offset => by
    rw [Canonical] at h
    rw [Shape.chars]
    rcases h with ⟨c, hc, heq⟩ | ⟨s, heq⟩
    · rw [heq, List.cons_append, readScript, Option.isNone_iff_eq_none.mp hc]
      refine ⟨_, rfl, ?_, rfl⟩
      rw [shape, shape, ← heq, String.ofList_toList]
    · rw [heq, List.cons_append, List.cons_append, readScript, ofChar?_char, readCommand,
        if_pos (by simp)]
      refine ⟨_, rfl, ?_, rfl⟩
      rw [shape, shape, ← String.ofList_toList (s := text), heq]
      rfl
  | .group fence inner, rest, h, _, place, offset => by
    rw [canonical_group] at h
    obtain rfl := h.1 nofun
    rw [Shape.chars, List.cons_append, List.append_assoc]
    exact readScript_brace (readGroup_of_chain h.2 fun hall hchain =>
      readChain_complete (isCloser_closing _) inner hall hchain (ended_closing _ _)) _ _ _
  | .command name parameters, rest, h, htight, place, offset => by
    have hname := (canonical_command.mp h).2
    rw [Shape.chars, List.cons_append, List.append_assoc]
    refine readScript_backslash (readCommand_of_parameters hname htight fun hend => ?_) _ _ _
    refine readParameters_complete parameters ?_ hend
    rcases hname with ⟨-, rfl⟩ | ⟨-, hall⟩
    · exact allCanonical_nil _
    · exact hall
  | .empty, _, h, _, _, _
  | .script _ _, _, h, _, _, _
  | .block _ _ _, _, h, _, _, _ => by simp [Canonical] at h

theorem readParameters_complete :
    ∀ (ps : List Shape) {rest : List Char}, AllCanonical .parameter ps →
      (∀ c ∈ rest.head?, ∀ fence : Fence, c ≠ fence.opening.char) → ∀ offset,
      Gives (readParameters offset (charsOf ps ++ rest)) shapes ps rest
  | [], rest, _, hend, offset => by
    rw [charsOf_nil, List.nil_append]
    exact (readParameters_ended hend offset).gives shapes
  | .group fence inner :: ps, rest, hall, hend, offset => by
    rw [allCanonical_cons, canonical_group] at hall
    rw [charsOf_cons, Shape.chars, List.cons_append, List.cons_append, List.append_assoc,
      List.append_assoc]
    exact readParameters_step (readGroup_of_chain hall.1.2 fun hall hchain =>
      readChain_complete (isCloser_closing _) inner hall hchain (ended_closing _ _))
      (readParameters_complete ps hall.2 hend) offset
  | .literal _ :: _, _, hall, _, _ | .empty :: _, _, hall, _, _ | .script .. :: _, _, hall, _, _
  | .command .. :: _, _, hall, _, _ | .block .. :: _, _, hall, _, _ => by
    cases (allCanonical_cons.mp hall).1.isGroup

end

/-! ## Formulas -/

/-- What is read from a whole text is canonical. -/
theorem readAll_sound {text : String} {es : List Element} (h : readAll text = .ok es) :
    ChainRead none text.toList (shapes es) [] := by
  rw [readAll] at h
  rcases hread : readChain none 0 text.toList with e | r
  · rw [hread] at h
    cases h
  · rw [hread] at h
    cases h
    obtain ⟨hsound, -⟩ := readChain_sound none 0 text.toList hread
    have hrest : r.rest = [] := by
      rcases hr : r.rest with _ | ⟨c, cs⟩
      · rfl
      · obtain ⟨s, hs, -⟩ := hsound.ended c (by simp [hr])
        cases hs
    exact hrest ▸ hsound

/-- A canonical chain is read back, with nothing left over. -/
theorem readAll_complete (h : CanonicalChain none fs) :
    ∃ es, readAll (String.ofList (charsOf fs)) = .ok es ∧ Shape.chain (shapes es) = fs := by
  obtain ⟨gs, htext, hgs, hall, hchain⟩ : ∃ gs, charsOf fs = charsOf gs ∧ Shape.chain gs = fs ∧
      AllCanonical (.chain none) gs ∧ gs.IsChain MayFollow := by
    rcases h with rfl | ⟨hne, hall, hchain⟩
    · exact ⟨[], by simp [Shape.chars], rfl, allCanonical_nil _, List.isChain_nil⟩
    · obtain ⟨f, fs, rfl⟩ := List.exists_cons_of_ne_nil hne
      exact ⟨f :: fs, rfl, rfl, hall, hchain⟩
  have hread : Gives (readChain none 0 (charsOf gs ++ [])) shapes gs [] :=
    readChain_complete (fun _ h => by cases h) gs hall hchain (fun _ h => by cases h) 0
  rw [List.append_nil] at hread
  obtain ⟨r, hr, hvalue, -⟩ := hread
  refine ⟨r.value, ?_, by rw [hvalue, hgs]⟩
  rw [readAll, String.toList_ofList, htext, hr]
  rfl

end Element

namespace Tree

open Shape

/-- A formula that was read is canonical, and it is written as the text it was read from. -/
theorem parse_sound {s : String} {t : Tree} (h : parse s = .ok t) :
    ∃ fs, t.Depicts fs ∧ CanonicalChain none fs ∧ charsOf fs = s.toList := by
  rw [parse] at h
  rcases hread : Element.readAll s with e | es
  · rw [hread] at h
    cases h
  · rw [hread] at h
    cases h
    have hsound := Element.readAll_sound hread
    refine ⟨_, depicts_ofElements es, hsound.canonicalChain, ?_⟩
    rw [charsOf_chain, ← hsound.text_eq, List.append_nil]

/-- Every canonical formula is read back from its text. -/
theorem parse_complete (h : CanonicalChain none fs) :
    ∃ t, parse (String.ofList (charsOf fs)) = .ok t ∧ t.Depicts fs := by
  obtain ⟨es, hread, hes⟩ := Element.readAll_complete h
  refine ⟨ofElements es, ?_, hes ▸ depicts_ofElements es⟩
  rw [parse, hread]
  rfl

/-- Reading gives exactly the canonical formulas: what is read is canonical, a canonical formula is
read back from its text, and no two canonical formulas are written alike. -/
theorem parse_image :
    (∀ s t, parse s = .ok t → ∃ fs, t.Depicts fs ∧ CanonicalChain none fs) ∧
      (∀ (t : Tree) (fs : List Shape), t.Depicts fs → CanonicalChain none fs →
        ∃ t', parse t.text = .ok t' ∧ t'.Depicts fs) ∧
      ∀ fs gs, CanonicalChain none fs → CanonicalChain none gs → charsOf fs = charsOf gs →
        fs = gs := by
  refine ⟨fun s t h => ?_, fun t fs hfs h => ?_, fun fs gs hfs hgs heq => ?_⟩
  · obtain ⟨fs, hfs, hcanonical, -⟩ := parse_sound h
    exact ⟨fs, hfs, hcanonical⟩
  · obtain ⟨t', hparse, ht'⟩ := parse_complete h
    refine ⟨t', ?_, ht'⟩
    rwa [← hfs.text, String.ofList_toList] at hparse
  · obtain ⟨es, hread, rfl⟩ := Element.readAll_complete hfs
    obtain ⟨es', hread', rfl⟩ := Element.readAll_complete hgs
    rw [heq, hread'] at hread
    rw [Except.ok.inj hread]

/-- A root with its degree, a script on it and text after it come back from their text. -/
theorem parse_image_root :
    let es : List Element := [.command "sqrt" [.group .brackets [.literal "3" ⟨6, 7⟩] ⟨5, 8⟩,
      .group .braces [.literal "x" ⟨9, 10⟩] ⟨8, 11⟩] ⟨0, 11⟩,
      .script .superscript (.command "alpha" [] ⟨12, 18⟩) ⟨11, 18⟩, .literal " b]" ⟨18, 21⟩]
    CanonicalChain none (Element.shapes es) ∧
      ∃ t, parse (ofElements es).text = .ok t ∧ t.Depicts (Element.shapes es) := by
  intro es
  have hsqrt : isWord "sqrt" = true := by decide
  have halpha : isWord "alpha" = true := by decide
  have hdegree : Written (some Fence.brackets.closing) ['3'] := .plain (by decide) .nil
  have hradicand : Written (some Fence.braces.closing) ['x'] := .plain (by decide) .nil
  have htext : Written none [' ', 'b', ']'] :=
    .plain (by decide) (.plain (by decide) (.bracket (s := .rightBracket) (Or.inr rfl) nofun .nil))
  have hcanonical : CanonicalChain none (Element.shapes es) := by
    refine Or.inr ⟨by simp [es], ?_, ?_⟩
    · simp [es, Element.shape, canonical_command, canonical_group, canonical_script,
        canonical_literal, CanonicalChain, hsqrt, halpha, hdegree, hradicand, htext]
    · have hblank : ' ' ≠ Symbol.leftBracket.char ∧ Text.isLetter ' ' = false := by decide
      simpa [es, Element.shape, MayFollow, isLiteral, isGroup, trailing, hsqrt, halpha] using hblank
  exact ⟨hcanonical, parse_image.2.1 _ _ (depicts_ofElements es) hcanonical⟩

end Tree

end Formulary
