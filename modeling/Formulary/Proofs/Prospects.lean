import Formulary.Proofs.Stretches

/-!
# What may still become of a text

The readers go from left to right and never back, so what they say of a text says something of all
texts that start with it. An answer that leaves some of the text stands, whatever comes after it
(`Stands`). So does a fault, unless it is that the text ends where more was expected
(`SyntaxError.AtEnd`); and then there is more that could come, after which the reading goes through
(`Completes`).

Hence a text is a formula, or the beginning of one, or nothing that starts with it is
(`prospect_unique`).
-/

namespace Formulary

open Text (byteSize)

variable {e : SyntaxError} {offset : Nat} {rest : List Char}

namespace SyntaxError

variable {source : List Char}

/-- The text ends where more was expected, and nothing else is wrong with it. -/
def AtEnd (source : List Char) : SyntaxError → Prop
  | .unterminatedGroup fence opening ending =>
    opening.Holds source [fence.opening.char] ∧ ending = Span.point (byteSize source)
  | .finalBackslash backslash =>
    backslash.Holds source [Symbol.backslash.char] ∧ backslash.stop = byteSize source
  | .missingOperand marker place found foundAt =>
    place.Holds source [marker.char] ∧ found = .eof ∧ foundAt = Span.point (byteSize source)
  | .strayBrace _ | .emptyName _ => False

/-- Something in the text cannot be where it is. -/
def Offends (source : List Char) : SyntaxError → Prop
  | .strayBrace brace => brace.Holds source [Symbol.rightBrace.char]
  | .emptyName stretch => ∃ c, stretch.Holds source [Symbol.backslash.char, c] ∧
    Symbol.ofChar? c = none ∧ c ∉ punctuation ∧ Text.isLetter c = false
  | .missingOperand marker place found foundAt => place.Holds source [marker.char] ∧
    ∃ s, found = .symbol s ∧ s ≠ .leftBrace ∧ s ≠ .backslash ∧ foundAt.Holds source [s.char]
  | .unterminatedGroup .. | .finalBackslash _ => False

theorem AtEnd.code_mem (h : e.AtEnd source) :
    e.code ∈ [Code.unterminatedGroup, .emptyCommandName, .missingOperand] := by
  cases e with
  | strayBrace | emptyName => cases h
  | unterminatedGroup | finalBackslash | missingOperand => simp [code]

theorem Offends.code_mem (h : e.Offends source) :
    e.code ∈ [Code.unexpectedToken, .emptyCommandName, .missingOperand] := by
  cases e with
  | unterminatedGroup | finalBackslash => cases h
  | strayBrace | emptyName | missingOperand => simp [code]

theorem AtEnd.not_offends {source' : List Char} (h : e.AtEnd source) : ¬e.Offends source' := by
  cases e with
  | missingOperand marker place found foundAt =>
    rintro ⟨-, s, hs, -⟩
    cases h.2.1.symm.trans hs
  | strayBrace | emptyName => cases h
  | unterminatedGroup | finalBackslash => exact id

end SyntaxError

namespace Element

open Shape

variable {α β γ : Type} {n m : Nat} {source cs : List Char}

/-- A longest run that does not take all of a text is the same in whatever follows. -/
theorem span_append_of_ne_nil {p : Char → Bool} (h : cs.dropWhile p ≠ []) (more : List Char) :
    (cs ++ more).takeWhile p = cs.takeWhile p ∧
      (cs ++ more).dropWhile p = cs.dropWhile p ++ more := by
  have hhead : ∀ c ∈ (cs.dropWhile p ++ more).head?, p c = false := by
    intro c hc
    have hnot := List.head?_dropWhile_not p cs
    rw [List.head?_append_of_ne_nil _ h, Option.mem_def] at hc
    rwa [hc] at hnot
  have hrun : ∀ c ∈ cs.takeWhile p, p c = true := fun c hc => List.mem_takeWhile_imp hc
  obtain ⟨htake, hdrop⟩ := span_append hhead (cs.takeWhile p)
  rw [List.takeWhile_eq_self_iff.mpr hrun] at htake
  rw [List.dropWhile_eq_nil_iff.mpr hrun, List.nil_append] at hdrop
  rw [← List.append_assoc, List.takeWhile_append_dropWhile] at htake hdrop
  exact ⟨htake, hdrop⟩

/-- A name that ends before the text does is the same in whatever follows. -/
theorem maps_readCommand_append {c : Char} (hsymbol : ¬(Symbol.ofChar? c).isSome = true)
    (hmark : c ∉ punctuation) (hletter : Text.isLetter c = true) (backslash : Span) (offset : Nat)
    (hne : cs.dropWhile Text.isLetter ≠ []) (more : List Char) :
    Maps (fun ps => commandOf (String.ofList (c :: cs.takeWhile Text.isLetter)) ps
        (backslash.union ⟨offset, offset + byteSize (c :: cs.takeWhile Text.isLetter)⟩))
      (readParameters (offset + byteSize (c :: cs.takeWhile Text.isLetter))
        (cs.dropWhile Text.isLetter ++ more))
      (readCommand backslash offset (c :: cs ++ more)) := by
  obtain ⟨htake, hdrop⟩ := span_append_of_ne_nil hne more
  have hmore := maps_readCommand hsymbol hmark hletter backslash offset (cs ++ more)
  rwa [htake, hdrop] at hmore

/-! ## Answers that stand -/

section

variable {bound bound' : List Char → Nat} {fit fit' : List Char → Prop}

/-- With some more text a reader goes through and stops right after it, whatever fits there. -/
def Completes (fit : List Char → Prop)
    (later : (more : List Char) → Except SyntaxError (Read α (bound more))) : Prop :=
  ∃ more, ∀ rest, fit rest → ∃ a offset, Answers (later (more ++ rest)) a offset rest

/-- What a reader answers on a text, in view of its answers on all texts that go on after it: a
fault is that the text ends, and then it can be completed, or the fault stays; a value stays unless
all of the text belongs to it. -/
structure Stands (source : List Char) (fit : List Char → Prop)
    (answer : Except SyntaxError (Read α n))
    (later : (more : List Char) → Except SyntaxError (Read α (bound more))) : Prop where
  fault : ∀ {e}, answer = .error e →
    e.AtEnd source ∧ Completes fit later ∨ e.Offends source ∧ ∀ more, later more = .error e
  value : ∀ {a offset rest}, Answers answer a offset rest → At source offset rest ∧
    (rest ≠ [] → ∀ more, Answers (later more) a offset (rest ++ more))

variable {later : (more : List Char) → Except SyntaxError (Read α (bound more))}
  {later' : (more : List Char) → Except SyntaxError (Read β (bound' more))}

theorem stands_ok {a : α} {hb : rest.length ≤ n} (hat : At source offset rest)
    (h : rest ≠ [] → ∀ more, Answers (later more) a offset (rest ++ more)) :
    Stands source fit (.ok ⟨a, offset, rest, hb⟩ : Except SyntaxError (Read α n)) later := by
  refine ⟨fun he => ?_, fun hr => ?_⟩
  · cases he
  · obtain ⟨_, hr⟩ := hr
    cases hr
    exact ⟨hat, h⟩

theorem stands_error
    (h : e.AtEnd source ∧ Completes fit later ∨ e.Offends source ∧ ∀ more, later more = .error e) :
    Stands source fit (.error e : Except SyntaxError (Read α n)) later := by
  refine ⟨fun he => ?_, fun hr => ?_⟩
  · cases he
    exact h
  · obtain ⟨_, hr⟩ := hr
    cases hr

/-- A reader that hands on a fault of another one. -/
theorem Stands.hand_on {x : Except SyntaxError (Read α n)} {y : Except SyntaxError (Read β m)}
    (h : Stands source fit x later) (hx : x = .error e) (hy : y = .error e)
    (hcompletes : Completes fit later → Completes fit' later')
    (hlater : ∀ more, later more = .error e → later' more = .error e) :
    Stands source fit' y later' := by
  rw [hy]
  refine stands_error ((h.fault hx).imp (And.imp_right hcompletes) ?_)
  rintro ⟨hoffends, hstays⟩
  exact ⟨hoffends, fun more => hlater more (hstays more)⟩

theorem Stands.map {f : α → β} {x : Except SyntaxError (Read α n)}
    {y : Except SyntaxError (Read β m)} (h : Stands source fit x later) (hmap : Maps f x y)
    (hlater : ∀ more, Maps f (later more) (later' more)) : Stands source fit y later' := by
  rcases x with e | ⟨a, offset, rest, hb⟩
  · refine h.hand_on rfl (hmap.fault rfl) ?_ fun more => (hlater more).fault
    rintro ⟨more, hmore⟩
    refine ⟨more, fun rest hrest => ?_⟩
    obtain ⟨a, offset, ha⟩ := hmore rest hrest
    exact ⟨f a, offset, (hlater _).value ha⟩
  · obtain ⟨hat, hstays⟩ := h.value ⟨hb, rfl⟩
    obtain ⟨_, rfl⟩ := hmap.value ⟨hb, rfl⟩
    exact stands_ok hat fun hne more => (hlater more).value (hstays hne more)

/-- The second of two readers has something to read, or it has nothing to say. If the first one
meets the end of the text, nothing is left for the second one to do. -/
theorem Stands.bind {f : α → γ → β} {x : Except SyntaxError (Read α n)}
    {k : (offset : Nat) → (rest : List Char) → Except SyntaxError (Read γ rest.length)}
    {y : Except SyntaxError (Read β m)} (h : Stands source fit x later)
    (hk : ∀ {a offset rest}, Answers x a offset rest →
      Stands source fit' (k offset rest) fun more => k offset (rest ++ more))
    (hnil : fit' [])
    (hfit : ∀ {rest}, fit' rest → fit rest ∧ ∀ offset, ∃ c, Answers (k offset rest) c offset rest)
    (hbind : Binds f x k y) (hlater : ∀ more, Binds f (later more) k (later' more)) :
    Stands source fit' y later' := by
  rcases x with e | ⟨a, offset, rest, hb⟩
  · refine h.hand_on rfl (hbind.fault rfl) ?_ fun more => (hlater more).fault
    rintro ⟨more, hmore⟩
    refine ⟨more, fun rest hrest => ?_⟩
    obtain ⟨a, offset, ha⟩ := hmore rest (hfit hrest).1
    obtain ⟨c, hc⟩ := (hfit hrest).2 offset
    exact ⟨f a c, offset, (hlater _).value ha hc⟩
  · have hx : Answers (.ok ⟨a, offset, rest, hb⟩) a offset rest := ⟨hb, rfl⟩
    obtain ⟨hat, hstays⟩ := h.value hx
    have hstands := hk hx
    rcases hread : k offset rest with e | ⟨c, offset', rest', hb'⟩
    · have hne : rest ≠ [] := by
        rintro rfl
        obtain ⟨c, _, hc⟩ := (hfit hnil).2 offset
        cases hread.symm.trans hc
      refine hstands.hand_on hread (hbind.later_fault hx hread) ?_ fun more =>
        (hlater more).later_fault (hstays hne more)
      rintro ⟨more, hmore⟩
      refine ⟨more, fun rest' hrest' => ?_⟩
      obtain ⟨c, offset', hc⟩ := hmore rest' hrest'
      exact ⟨f a c, offset', (hlater _).value (hstays hne _) hc⟩
    · obtain ⟨hat', hstays'⟩ := hstands.value ⟨hb', hread⟩
      obtain ⟨_, rfl⟩ := hbind.value hx ⟨hb', hread⟩
      refine stands_ok hat' fun hne' more => ?_
      have hne : rest ≠ [] := by
        rintro rfl
        exact hne' (List.length_eq_zero_iff.mp (Nat.le_zero.mp hb'))
      exact (hlater more).value (hstays hne more) (hstays' hne' more)

end

/-- What may come after a complete element: nothing, or the end of a group around it. -/
def Closing (rest : List Char) : Prop := ∀ c ∈ rest.head?, ∃ fence : Fence, c = fence.closing.char

theorem closing_nil : Closing [] := fun _ h => by cases h

theorem Closing.of_ended {closer : Option Symbol} (hcloser : IsCloser closer)
    (h : Ended closer rest) : Closing rest := by
  intro c hc
  obtain ⟨s, hs, rfl⟩ := h c hc
  obtain ⟨fence, rfl⟩ := hcloser s hs
  exact ⟨fence, rfl⟩

theorem Closing.readParameters (h : Closing rest) (offset : Nat) :
    Answers (readParameters offset rest) [] offset rest := by
  refine readParameters_ended (fun c hc fence' heq => ?_) offset
  obtain ⟨fence, hfence⟩ := h c hc
  rw [heq] at hfence
  cases fence <;> cases fence' <;> revert hfence <;> decide

/-- A chain that was read up to the end of the text is the same up to the end of a group. -/
theorem readChain_closed {fence : Fence} {offset' : Nat} {text : List Char} {inner : List Element}
    (h : Answers (readChain (some fence.closing) offset text) inner offset' []) (rest : List Char) :
    ∃ es offset', Answers (readChain (some fence.closing) offset (text ++ fence.closing.char :: rest))
      es offset' (fence.closing.char :: rest) := by
  obtain ⟨_, h⟩ := h
  obtain ⟨hsound, -⟩ := readChain_sound _ _ text h
  obtain ⟨⟨es, offset', rest', hb⟩, hread, -, rfl⟩ := readChain_complete (isCloser_closing fence)
    (shapes inner) hsound.canonical hsound.neighbours (ended_closing fence rest) offset
  rw [← hsound.text_eq, List.append_nil]
  exact ⟨es, offset', hb, hread⟩

mutual

theorem readChain_stands {closer : Option Symbol} (hcloser : IsCloser closer) (offset : Nat)
    (text : List Char) (hat : At source offset text) :
    Stands source (Ended closer) (readChain closer offset text) fun more =>
      readChain closer offset (text ++ more) := by
  cases text with
  | nil =>
    rw [readChain]
    exact stands_ok hat fun hne => absurd rfl hne
  | cons c cs =>
    by_cases hc : ((Symbol.ofChar? c).isSome && Symbol.ofChar? c == closer) = true
    · rw [readChain, if_pos hc]
      refine stands_ok hat fun _ more => ?_
      rw [List.cons_append, readChain, if_pos hc]
      exact ⟨_, rfl⟩
    · have hfirst := readElement_stands offset c cs hat
      refine hfirst.bind (fun hx => ?_) (fun _ hnil => by cases hnil)
        (fun hended => ⟨.of_ended hcloser hended, fun offset => ⟨_, readChain_ended hended offset⟩⟩)
        (binds_readChain hc offset cs) fun more => binds_readChain hc offset (cs ++ more)
      obtain ⟨hb, hread⟩ := hx
      exact readChain_stands hcloser _ _ (hfirst.value ⟨hb, hread⟩).1
termination_by 4 * text.length + 1
decreasing_by
  all_goals subst_vars; simp only [List.length_cons]; omega

theorem readElement_stands (offset : Nat) (c : Char) (cs : List Char)
    (hat : At source offset (c :: cs)) :
    Stands source Closing (readElement offset c cs) fun more =>
      readElement offset c (cs ++ more) := by
  rcases hsymbol : Symbol.ofChar? c with _ | s
  · rw [readElement, hsymbol]
    refine stands_ok (hat.dropWhile isPlain) fun hne more => ?_
    obtain ⟨htake, hdrop⟩ := span_append_of_ne_nil hne more
    rw [readElement, hsymbol]
    dsimp only
    rw [← hdrop, htake]
    exact ⟨_, rfl⟩
  · obtain rfl := Symbol.ofChar?_eq_some_iff.mp hsymbol
    simp only [readElement, ofChar?_char]
    cases s with
    | leftBrace => exact readGroup_stands .braces offset cs hat
    | subscript => exact readScript_stands .subscript offset cs hat
    | superscript => exact readScript_stands .superscript offset cs hat
    | backslash => exact readCommand_stands offset cs hat
    | rightBrace => exact stands_error (Or.inr ⟨.first hat, fun _ => rfl⟩)
    | leftBracket | rightBracket => exact stands_ok hat.cons fun _ _ => ⟨_, rfl⟩
termination_by 4 * cs.length + 4

theorem readGroup_stands (fence : Fence) (start : Nat) (text : List Char)
    (hat : At source start (fence.opening.char :: text)) :
    Stands source Closing (readGroup fence ⟨start, start + fence.opening.char.utf8Size⟩
        (start + fence.opening.char.utf8Size) text) fun more =>
      readGroup fence ⟨start, start + fence.opening.char.utf8Size⟩
        (start + fence.opening.char.utf8Size) (text ++ more) := by
  have hinner := readChain_stands (isCloser_closing fence) _ text hat.cons
  rcases hread : readChain (some fence.closing) (start + fence.opening.char.utf8Size) text with
    e | ⟨inner, offset, rest, hb⟩
  · refine hinner.hand_on hread (by rw [readGroup, hread]) ?_ fun more hmore => ?_
    · rintro ⟨more, hmore⟩
      refine ⟨more ++ [fence.closing.char], fun rest _ => ?_⟩
      obtain ⟨es, offset, hes⟩ := hmore _ (ended_closing fence rest)
      rw [List.append_assoc]
      exact ⟨_, _, readGroup_answers hes _⟩
    · rw [readGroup, hmore]
  · obtain ⟨hat', hstays⟩ := hinner.value ⟨hb, hread⟩
    cases rest with
    | nil =>
      have hend : offset = byteSize source := hat'.add_byteSize
      rw [readGroup, hread]
      refine stands_error (Or.inl ⟨⟨.first hat, by rw [hend]⟩, [fence.closing.char], fun rest _ => ?_⟩)
      obtain ⟨es, offset, hes⟩ := readChain_closed ⟨hb, hread⟩ rest
      exact ⟨_, _, readGroup_answers hes _⟩
    | cons c rest =>
      obtain ⟨_, hgroup⟩ := readGroup_answers ⟨hb, hread⟩
        ⟨start, start + fence.opening.char.utf8Size⟩
      rw [hgroup]
      exact stands_ok hat'.cons fun _ more =>
        readGroup_answers (hstays (List.cons_ne_nil c rest) more) _
termination_by 4 * text.length + 2

theorem readScript_stands (marker : Marker) (start : Nat) (text : List Char)
    (hat : At source start (marker.char :: text)) :
    Stands source Closing (readScript marker ⟨start, start + marker.char.utf8Size⟩
        (start + marker.char.utf8Size) text) fun more =>
      readScript marker ⟨start, start + marker.char.utf8Size⟩ (start + marker.char.utf8Size)
        (text ++ more) := by
  have hplace := Span.Holds.first hat
  have hat := hat.cons
  cases text with
  | nil =>
    have hend : start + marker.char.utf8Size = byteSize source := hat.add_byteSize
    rw [readScript]
    refine stands_error (Or.inl ⟨⟨hplace, rfl, by rw [hend]⟩, ['x'], fun rest _ => ?_⟩)
    have hplain : Symbol.ofChar? 'x' = none := by decide
    dsimp only
    rw [List.nil_append, List.singleton_append, readScript, hplain]
    exact ⟨_, _, _, rfl⟩
  | cons c cs =>
    rcases hsymbol : Symbol.ofChar? c with _ | s
    · rw [readScript, hsymbol]
      refine stands_ok hat.cons fun _ more => ?_
      rw [List.cons_append, readScript, hsymbol]
      exact ⟨_, rfl⟩
    · obtain rfl := Symbol.ofChar?_eq_some_iff.mp hsymbol
      cases s with
      | leftBrace =>
        exact (readGroup_stands .braces _ cs hat).map (maps_readScript_leftBrace marker _ _ cs)
          fun more => maps_readScript_leftBrace marker _ _ (cs ++ more)
      | backslash =>
        exact (readCommand_stands _ cs hat).map (maps_readScript_backslash marker _ _ cs)
          fun more => maps_readScript_backslash marker _ _ (cs ++ more)
      | _ =>
        rw [readScript, ofChar?_char]
        refine stands_error (Or.inr ⟨⟨hplace, _, rfl, by decide, by decide, .first hat⟩,
          fun more => ?_⟩)
        rw [List.cons_append, readScript, ofChar?_char]
termination_by 4 * text.length + 3

theorem readCommand_stands (start : Nat) (text : List Char)
    (hat : At source start (Symbol.backslash.char :: text)) :
    Stands source Closing (readCommand ⟨start, start + Symbol.backslash.char.utf8Size⟩
        (start + Symbol.backslash.char.utf8Size) text) fun more =>
      readCommand ⟨start, start + Symbol.backslash.char.utf8Size⟩
        (start + Symbol.backslash.char.utf8Size) (text ++ more) := by
  cases text with
  | nil =>
    have hend : start + Symbol.backslash.char.utf8Size = byteSize source := hat.cons.add_byteSize
    rw [readCommand]
    refine stands_error (Or.inl ⟨⟨.first hat, hend⟩, [Symbol.backslash.char], fun rest _ => ?_⟩)
    dsimp only
    rw [List.nil_append, List.singleton_append, readCommand, if_pos (by simp)]
    exact ⟨_, _, _, rfl⟩
  | cons c cs =>
    by_cases hsymbol : (Symbol.ofChar? c).isSome = true
    · rw [readCommand, if_pos hsymbol]
      refine stands_ok hat.cons.cons fun _ more => ?_
      rw [List.cons_append, readCommand, if_pos hsymbol]
      exact ⟨_, rfl⟩
    · by_cases hmark : c ∈ punctuation
      · rw [readCommand, if_neg hsymbol, if_pos hmark]
        refine stands_ok hat.cons.cons fun _ more => ?_
        rw [List.cons_append, readCommand, if_neg hsymbol, if_pos hmark]
        exact ⟨_, rfl⟩
      · by_cases hletter : Text.isLetter c = true
        · have hmap := maps_readCommand hsymbol hmark hletter
            ⟨start, start + Symbol.backslash.char.utf8Size⟩ (start + Symbol.backslash.char.utf8Size)
            cs
          have hshorter : (cs.dropWhile Text.isLetter).length ≤ cs.length :=
            (List.dropWhile_suffix _).length_le
          by_cases hne : cs.dropWhile Text.isLetter = []
          · -- The name goes on up to the end of the text; more of it may follow.
            rw [hne] at hmap
            obtain ⟨_, hword⟩ := hmap.value (closing_nil.readParameters _)
            rw [hword]
            exact stands_ok (hne ▸ hat.cons.dropWhile Text.isLetter) fun hnil => absurd rfl hnil
          · exact (readParameters_stands _ _ (hat.cons.dropWhile Text.isLetter)).map hmap
              (maps_readCommand_append hsymbol hmark hletter _ _ hne)
        · rw [readCommand, if_neg hsymbol, if_neg hmark, if_neg hletter]
          refine stands_error (Or.inr ⟨⟨c, ?_, by simpa using hsymbol, hmark, by simpa using hletter⟩,
            fun more => ?_⟩)
          · have hboth : Span.Holds source _ [Symbol.backslash.char, c] := .of_at hat
            convert hboth using 1
            simp only [Span.union, Text.byteSize_cons, Text.byteSize_nil, Span.mk.injEq]
            omega
          · rw [List.cons_append, readCommand, if_neg hsymbol, if_neg hmark, if_neg hletter]
termination_by 4 * text.length + 3
decreasing_by
  all_goals subst_vars; simp only [List.length_cons]; omega

theorem readParameters_stands (offset : Nat) (text : List Char) (hat : At source offset text) :
    Stands source Closing (readParameters offset text) fun more =>
      readParameters offset (text ++ more) := by
  cases text with
  | nil =>
    rw [readParameters]
    exact stands_ok hat fun hne => absurd rfl hne
  | cons c cs =>
    by_cases hfence : ∃ fence : Fence, c = fence.opening.char
    · obtain ⟨fence, rfl⟩ := hfence
      have hgroup := readGroup_stands fence offset cs hat
      refine hgroup.bind (fun hx => ?_) closing_nil
        (fun hclosing => ⟨hclosing, fun offset => ⟨_, hclosing.readParameters offset⟩⟩)
        (binds_readParameters fence offset cs) fun more =>
          binds_readParameters fence offset (cs ++ more)
      obtain ⟨hb, hread⟩ := hx
      exact readParameters_stands _ _ (hgroup.value ⟨hb, hread⟩).1
    · have hc : ∀ d ∈ some c, ∀ fence : Fence, d ≠ fence.opening.char := by
        rintro d hd fence rfl
        exact hfence ⟨fence, Option.some.inj hd⟩
      obtain ⟨_, hended⟩ := @readParameters_ended (c :: cs) hc offset
      rw [hended]
      exact stands_ok hat fun _ more => @readParameters_ended (c :: (cs ++ more)) hc offset
termination_by 4 * text.length + 1
decreasing_by
  all_goals subst_vars; simp only [List.length_cons]; omega

end

end Element

/-! ## Formulas -/

/-- What can be said of a text and of all texts that start with it. -/
inductive Prospect where
  /-- The text is a formula. -/
  | formula
  /-- The text is none, but some text that starts with it is. -/
  | beginning
  /-- No text that starts with it is a formula. -/
  | hopeless
  deriving DecidableEq, Repr

/-- A text has a prospect, and reading it says so. -/
def Prospect.Of (s : String) : Prospect → Prop
  | .formula => ∃ t, Tree.parse s = .ok t
  | .beginning => ∃ e, Tree.parse s = .error e ∧ e.AtEnd s.toList ∧
    e.code ∈ [.unterminatedGroup, .emptyCommandName, .missingOperand] ∧
    ∃ more t, Tree.parse (s ++ more) = .ok t
  | .hopeless => ∃ e, Tree.parse s = .error e ∧ e.Offends s.toList ∧
    e.code ∈ [.unexpectedToken, .emptyCommandName, .missingOperand] ∧
    ∀ more, Tree.parse (s ++ more) = .error e

namespace Tree

variable {s : String}

theorem parse_eq_error_iff : parse s = .error e ↔ Element.readChain none 0 s.toList = .error e := by
  rw [parse, Element.readAll]
  rcases Element.readChain none 0 s.toList with e' | r <;> simp [Except.map]

theorem parse_eq_ok {es : List Element}
    (h : Element.Answers (Element.readChain none 0 s.toList) es offset rest) :
    parse s = .ok (ofElements es) := by
  obtain ⟨_, h⟩ := h
  rw [parse, Element.readAll, h]
  rfl

/-- No text has two prospects. -/
theorem Prospect.Of.unique {p q : Prospect} (hp : p.Of s) (hq : q.Of s) : p = q := by
  cases p <;> cases q
  case formula.formula | beginning.beginning | hopeless.hopeless => rfl
  case formula.beginning | formula.hopeless =>
    obtain ⟨t, ht⟩ := hp
    obtain ⟨e, he, -⟩ := hq
    cases ht.symm.trans he
  case beginning.formula | hopeless.formula =>
    obtain ⟨e, he, -⟩ := hp
    obtain ⟨t, ht⟩ := hq
    cases ht.symm.trans he
  case beginning.hopeless =>
    obtain ⟨e, he, hend, -⟩ := hp
    obtain ⟨e', he', hoffends, -⟩ := hq
    obtain rfl := Except.error.inj (he.symm.trans he')
    exact absurd hoffends hend.not_offends
  case hopeless.beginning =>
    obtain ⟨e, he, hoffends, -⟩ := hp
    obtain ⟨e', he', hend, -⟩ := hq
    obtain rfl := Except.error.inj (he.symm.trans he')
    exact absurd hoffends hend.not_offends

/-- A fault is found where nothing can help any more: a text is a formula, or it ends too early, or
what offends in it does so in all texts that start with it. -/
theorem prospect_unique (s : String) : ∃! p : Prospect, p.Of s := by
  refine existsUnique_of_exists_of_unique ?_ fun _ _ => Prospect.Of.unique
  rcases hparse : parse s with e | t
  · have hread := parse_eq_error_iff.mp hparse
    have hat := At.start s.toList
    have hcloser : Element.IsCloser none := fun _ hnone => by cases hnone
    have hstands := Element.readChain_stands hcloser 0 s.toList hat
    rcases hstands.fault hread with ⟨hend, more, hmore⟩ | ⟨hoffends, hstays⟩
    · obtain ⟨es, offset, hes⟩ := hmore [] fun _ hnil => by cases hnil
      dsimp only at hes
      rw [List.append_nil, ← String.toList_ofList (l := more), ← String.toList_append] at hes
      exact ⟨.beginning, e, hparse, hend, hend.code_mem, String.ofList more, _, parse_eq_ok hes⟩
    · refine ⟨.hopeless, e, hparse, hoffends, hoffends.code_mem, fun more => parse_eq_error_iff.mpr ?_⟩
      rw [String.toList_append]
      exact hstays more.toList
  · exact ⟨.formula, t, hparse⟩

end Tree

end Formulary
