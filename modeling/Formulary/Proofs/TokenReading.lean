import Formulary.Element.TokenReader
import Formulary.Proofs.Reading
import Formulary.Proofs.Tokenizing

/-!
# Reading tokens is reading text

A formula can be read from its tokens as well as from its text, and gives the same either way: the
same elements at the same places, or the same error. Reading tokens always ends.

* `tokensAt`: the tokens of what is left of a text. Using up a run in parts leaves such tokens again
  (`run_takeFront`), so no reader can tell that a run was once longer.
* `Reads`: a reader of tokens answers as a reader of the text does. Readers that call others do so in
  the same way (`Reads.maps`, `Reads.binds`).
* `Tree.parse_of_tokens`: the only cut of a text into tokens is read as the text is.
-/

namespace Formulary

open Shape (isPlain_iff isPlain_char ofChar?_char span_append)
open Text (byteSize)

/-- The tokens of what is left of a text at an offset. -/
def tokensAt (offset : Nat) (text : List Char) : List PlacedToken :=
  tokensFrom offset text ++ [⟨.eof, Span.point (offset + byteSize text)⟩]

theorem tokenize_eq (s : String) : tokenize s = tokensAt 0 s.toList := by
  rw [tokenize, tokensAt, Text.byteSize_toList, Nat.zero_add]

theorem tokensAt_nil (offset : Nat) : tokensAt offset [] = [⟨.eof, Span.point offset⟩] := by
  rw [tokensAt, tokensFrom_nil]
  rfl

theorem tokensAt_of_isFirst {l : Lexeme} (h : l.IsFirst) (offset : Nat) :
    tokensAt offset (l.taken ++ l.rest) = ⟨l.token, ⟨offset, offset + byteSize l.taken⟩⟩ ::
      tokensAt (offset + byteSize l.taken) l.rest := by
  rw [tokensAt, tokensFrom_of_first? offset h.first?, tokensAt, Text.byteSize_append, Nat.add_assoc]
  rfl

theorem tokensAt_symbol (offset : Nat) (s : Symbol) (cs : List Char) :
    tokensAt offset (s.char :: cs) = ⟨.symbol s, ⟨offset, offset + s.char.utf8Size⟩⟩ ::
      tokensAt (offset + s.char.utf8Size) cs := by
  have hfirst := tokensAt_of_isFirst (.symbol s cs) offset
  rwa [Text.byteSize_cons, Text.byteSize_nil, Nat.add_zero] at hfirst

theorem tokensAt_run {run rest : List Char} (hne : run ≠ []) (hrun : ∀ c ∈ run, isPlain c = true)
    (hrest : ∀ c ∈ rest.head?, isPlain c = false) (offset : Nat) :
    tokensAt offset (run ++ rest) = ⟨.text (String.ofList run), ⟨offset, offset + byteSize run⟩⟩ ::
      tokensAt (offset + byteSize run) rest := by
  have hfirst := tokensAt_of_isFirst (l := ⟨.text (String.ofList run), run, rest⟩)
    (by
      nth_rewrite 2 [← String.toList_ofList (l := run)]
      refine .text (isRun_iff.mpr ⟨by simpa using hne, by simpa using hrun⟩) fun c hc => ?_
      exact isPlain_eq_false_iff.mp (hrest c hc)) offset
  exact hfirst

namespace Element

open TokenReader (Rule)

variable {α β γ : Type} {n m offset : Nat} {text : List Char}

/-- A reader of tokens answers as a reader of what is left of a text did. -/
def Reads (x : TokenReader α) (offset : Nat) (text : List Char)
    (answer : Except SyntaxError (Read α n)) : Prop :=
  (x.run (tokensAt offset text)).run =
    some (answer.map fun r => (r.value, tokensAt r.offset r.rest))

section

variable {x : TokenReader α} {y : TokenReader β} {tokens tokens' : List PlacedToken} {a : α}

theorem run_bind_of_ok {k : α → TokenReader β} (h : (x.run tokens).run = some (.ok (a, tokens'))) :
    ((x >>= k).run tokens).run = ((k a).run tokens').run := by
  rw [StateT.run_bind, ExceptT.run_bind, h]
  rfl

theorem run_bind_of_error {k : α → TokenReader β} {e : SyntaxError}
    (h : (x.run tokens).run = some (.error e)) : ((x >>= k).run tokens).run = some (.error e) := by
  rw [StateT.run_bind, ExceptT.run_bind, h]
  rfl

theorem run_current_bind (k : PlacedToken → TokenReader β) (token : PlacedToken) :
    ((TokenReader.current >>= k).run (token :: tokens)).run =
      ((k token).run (token :: tokens)).run := rfl

/-- A reader that goes over from what was read to something else. -/
theorem Reads.maps {answer : Except SyntaxError (Read α n)} {answer' : Except SyntaxError (Read β m)}
    {f : α → β} (hx : Reads x offset text answer) (h : Maps f answer answer') :
    Reads (do return f (← x)) offset text answer' := by
  cases answer with
  | error e =>
    rw [Reads, h.fault rfl]
    exact run_bind_of_error hx
  | ok r =>
    obtain ⟨hb, hvalue⟩ := h.value ⟨r.bounded, rfl⟩
    rw [Reads, hvalue]
    exact run_bind_of_ok hx

/-- A reader that goes on where another one stopped. -/
theorem Reads.binds {answer : Except SyntaxError (Read α n)}
    {k : (offset : Nat) → (rest : List Char) → Except SyntaxError (Read β rest.length)}
    {answer' : Except SyntaxError (Read γ m)} {f : α → β → γ} (hx : Reads x offset text answer)
    (hy : ∀ r, answer = .ok r → Reads y r.offset r.rest (k r.offset r.rest))
    (h : Binds f answer k answer') :
    Reads (do let a ← x; return f a (← y)) offset text answer' := by
  cases answer with
  | error e =>
    rw [Reads, h.fault rfl]
    exact run_bind_of_error hx
  | ok r =>
    have hnext := hy r rfl
    rw [Reads, run_bind_of_ok hx]
    cases hk : k r.offset r.rest with
    | error e =>
      rw [h.later_fault ⟨r.bounded, rfl⟩ hk]
      rw [hk] at hnext
      exact run_bind_of_error hnext
    | ok r' =>
      obtain ⟨hb, hvalue⟩ := h.value ⟨r.bounded, rfl⟩ ⟨r'.bounded, hk⟩
      rw [hvalue]
      rw [hk] at hnext
      exact run_bind_of_ok hnext

theorem Reads.advance {answer : Except SyntaxError (Read α n)} {s : Symbol}
    (h : Reads x (offset + s.char.utf8Size) text answer) :
    Reads (do TokenReader.advance; x) offset (s.char :: text) answer := by
  rw [Reads, tokensAt_symbol]
  exact h

end

section

variable {c : Char}

/-- A run of text, as it stands at the front of a text. -/
theorem plain_run (hc : Symbol.ofChar? c = none) (cs : List Char) :
    (∀ d ∈ c :: cs.takeWhile isPlain, isPlain d = true) ∧
      ∀ d ∈ (cs.dropWhile isPlain).head?, isPlain d = false := by
  refine ⟨List.forall_mem_cons.mpr ⟨by rw [isPlain, hc]; rfl, fun d hd => ?_⟩, fun d hd => ?_⟩
  · exact List.mem_takeWhile_imp hd
  · have hnot := List.head?_dropWhile_not isPlain cs
    rw [Option.mem_def.mp hd] at hnot
    simpa using hnot

theorem tokensAt_plain (hc : Symbol.ofChar? c = none) (offset : Nat) (cs : List Char) :
    tokensAt offset (c :: cs) = ⟨.text (String.ofList (c :: cs.takeWhile isPlain)),
        ⟨offset, offset + byteSize (c :: cs.takeWhile isPlain)⟩⟩ ::
      tokensAt (offset + byteSize (c :: cs.takeWhile isPlain)) (cs.dropWhile isPlain) := by
  obtain ⟨hrun, hrest⟩ := plain_run hc cs
  rw [← tokensAt_run (List.cons_ne_nil _ _) hrun hrest, List.cons_append,
    List.takeWhile_append_dropWhile]

/-- What is left of a run is a run, and in front of what comes after it. -/
theorem run_takeFront {taken left rest : List Char} (hc : Symbol.ofChar? c = none) (cs : List Char)
    (hrun : taken ++ left = c :: cs.takeWhile isPlain) (hrest : left ++ cs.dropWhile isPlain = rest)
    (offset : Nat) :
    ((TokenReader.takeFront taken left
      ⟨offset, offset + byteSize (c :: cs.takeWhile isPlain)⟩).run (tokensAt offset (c :: cs))).run =
        some (.ok (⟨offset, offset + byteSize taken⟩, tokensAt (offset + byteSize taken) rest)) := by
  obtain ⟨hplain, hafter⟩ := plain_run hc cs
  rw [tokensAt_plain hc, ← hrun, ← hrest]
  cases left with
  | nil =>
    rw [List.append_nil, List.nil_append]
    rfl
  | cons d left =>
    rw [← hrun, List.forall_mem_append] at hplain
    rw [tokensAt_run (List.cons_ne_nil _ _) hplain.2 hafter, Text.byteSize_append, ← Nat.add_assoc]
    rfl

/-- The first character of a run is taken, and what comes after it is left. -/
theorem run_takeFront_char (hc : Symbol.ofChar? c = none) (offset : Nat) (cs : List Char) :
    ((TokenReader.takeFront [c] (cs.takeWhile isPlain)
      ⟨offset, offset + byteSize (c :: cs.takeWhile isPlain)⟩).run (tokensAt offset (c :: cs))).run =
        some (.ok (⟨offset, offset + c.utf8Size⟩, tokensAt (offset + c.utf8Size) cs)) :=
  run_takeFront hc cs rfl List.takeWhile_append_dropWhile offset

/-- The letters at the start of a text are in a run. -/
theorem letters_of_run (cs : List Char) :
    (cs.takeWhile isPlain).takeWhile Text.isLetter = cs.takeWhile Text.isLetter ∧
      (cs.takeWhile isPlain).dropWhile Text.isLetter ++ cs.dropWhile isPlain =
        cs.dropWhile Text.isLetter := by
  have hafter : ∀ d ∈ (cs.dropWhile isPlain).head?, Text.isLetter d = false := by
    intro d hd
    have hnot := List.head?_dropWhile_not isPlain cs
    rw [Option.mem_def.mp hd] at hnot
    obtain ⟨s, rfl⟩ := isPlain_eq_false_iff.mp (by simpa using hnot)
    exact Shape.isLetter_char s
  obtain ⟨htake, hdrop⟩ := span_append hafter (cs.takeWhile isPlain)
  rw [List.takeWhile_append_dropWhile] at htake hdrop
  exact ⟨htake.symm, hdrop.symm⟩

end

mutual

theorem reads_chain (closer : Option Symbol) (offset : Nat) (text : List Char) :
    Reads (Rule.chain closer).read offset text (readChain closer offset text) := by
  cases text with
  | nil =>
    rw [Reads, Rule.read, readChain]
    dsimp only [Except.map]
    rw [tokensAt_nil]
    rfl
  | cons c cs =>
    cases hc : Symbol.ofChar? c with
    | none =>
      have hnot : ¬((Symbol.ofChar? c).isSome && Symbol.ofChar? c == closer) = true := by simp [hc]
      have hrun : Reads (do
          TokenReader.advance
          return .literal (String.ofList (c :: cs.takeWhile isPlain))
            ⟨offset, offset + byteSize (c :: cs.takeWhile isPlain)⟩) offset (c :: cs)
          (readElement offset c cs) := by
        rw [Reads, readElement, hc, tokensAt_plain hc]
        rfl
      have hchain := hrun.binds (fun r _ => have := r.bounded; reads_chain closer r.offset r.rest)
        (binds_readChain hnot offset cs)
      rw [Reads, tokensAt_plain hc] at hchain ⊢
      rw [Rule.read]
      exact hchain
    | some s =>
      obtain rfl := Symbol.ofChar?_eq_some_iff.mp hc
      by_cases hs : closer = some s
      · rw [Reads, Rule.read, readChain, if_pos (by simp [hs])]
        dsimp only [Except.map]
        rw [tokensAt_symbol]
        exact congrArg (fun x : TokenReader _ => (x.run _).run) (if_pos hs)
      · have hnot : ¬((Symbol.ofChar? s.char).isSome && Symbol.ofChar? s.char == closer) = true := by
          simpa using fun h => hs h.symm
        have hchain := (reads_element s offset cs).advance.binds
          (fun r _ => have := r.bounded; reads_chain closer r.offset r.rest)
          (binds_readChain hnot offset cs)
        rw [Reads, tokensAt_symbol] at hchain ⊢
        rw [Rule.read]
        exact (congrArg (fun x : TokenReader _ => (x.run _).run) (if_neg hs)).trans hchain
termination_by 4 * text.length + 1

theorem reads_element (s : Symbol) (offset : Nat) (cs : List Char) :
    Reads (Rule.element s ⟨offset, offset + s.char.utf8Size⟩).read (offset + s.char.utf8Size) cs
      (readElement offset s.char cs) := by
  rw [Rule.read.eq_def, readElement, ofChar?_char]
  cases s with
  | leftBrace => exact reads_group .braces _ _ cs
  | rightBrace => rfl
  | leftBracket | rightBracket => rfl
  | subscript | superscript => exact reads_script _ _ _ cs
  | backslash => exact reads_command _ _ cs
termination_by 4 * cs.length + 4

theorem reads_group (fence : Fence) (opening : Span) (offset : Nat) (text : List Char) :
    Reads (Rule.group fence opening).read offset text (readGroup fence opening offset text) := by
  have hchain := reads_chain (some fence.closing) offset text
  rw [Reads, Rule.read, readGroup]
  cases hread : readChain (some fence.closing) offset text with
  | error e =>
    rw [hread] at hchain
    exact run_bind_of_error hchain
  | ok r =>
    rw [hread] at hchain
    rw [run_bind_of_ok hchain]
    have hended := (readChain_sound _ _ _ hread).1.ended
    obtain ⟨inner, offset', rest, hb⟩ := r
    cases rest with
    | nil =>
      dsimp only
      rw [tokensAt_nil]
      rfl
    | cons c rest =>
      obtain ⟨s, hs, rfl⟩ := hended c rfl
      obtain rfl := Option.some.inj hs
      dsimp only
      rw [tokensAt_symbol]
      exact congrArg (fun x : TokenReader _ => (x.run _).run) (if_pos rfl)
termination_by 4 * text.length + 2

theorem reads_script (marker : Marker) (place : Span) (offset : Nat) (text : List Char) :
    Reads (Rule.script marker place).read offset text (readScript marker place offset text) := by
  cases text with
  | nil =>
    rw [Reads, Rule.read, tokensAt_nil, readScript]
    rfl
  | cons c cs =>
    cases hc : Symbol.ofChar? c with
    | none =>
      have hfront := run_takeFront_char hc offset cs
      rw [Reads, Rule.read, readScript, hc]
      rw [tokensAt_plain hc] at hfront ⊢
      rw [run_current_bind]
      simp only [String.toList_ofList, List.take_succ_cons, List.take_zero, List.drop_succ_cons,
        List.drop_zero, pure_bind]
      exact run_bind_of_ok hfront
    | some s =>
      obtain rfl := Symbol.ofChar?_eq_some_iff.mp hc
      cases s with
      | leftBrace =>
        have hgroup := (reads_group .braces ⟨offset, offset + Symbol.leftBrace.char.utf8Size⟩ _ cs
          ).advance.maps (maps_readScript_leftBrace marker place offset cs)
        rw [Reads, tokensAt_symbol] at hgroup ⊢
        rw [Rule.read]
        exact hgroup
      | backslash =>
        have hcommand := (reads_command ⟨offset, offset + Symbol.backslash.char.utf8Size⟩ _ cs
          ).advance.maps (maps_readScript_backslash marker place offset cs)
        rw [Reads, tokensAt_symbol] at hcommand ⊢
        rw [Rule.read]
        exact hcommand
      | rightBrace | leftBracket | rightBracket | subscript | superscript =>
        rw [Reads, Rule.read, tokensAt_symbol, readScript, hc]
        rfl
termination_by 4 * text.length + 3

theorem reads_command (backslash : Span) (offset : Nat) (text : List Char) :
    Reads (Rule.command backslash).read offset text (readCommand backslash offset text) := by
  cases text with
  | nil =>
    rw [Reads, Rule.read, tokensAt_nil, readCommand]
    rfl
  | cons c cs =>
    cases hc : Symbol.ofChar? c with
    | none =>
      have hsymbol : ¬(Symbol.ofChar? c).isSome = true := by simp [hc]
      by_cases hmark : c ∈ punctuation
      · have hfront := run_takeFront_char hc offset cs
        rw [Reads, Rule.read, readCommand, if_neg hsymbol, if_pos hmark]
        rw [tokensAt_plain hc] at hfront ⊢
        rw [run_current_bind]
        simp only [String.toList_ofList, List.take_succ_cons, List.take_zero, List.drop_succ_cons,
          List.drop_zero, List.any_cons, List.any_nil, hmark, decide_true, Bool.true_or, if_true]
        exact run_bind_of_ok hfront
      · by_cases hletter : Text.isLetter c = true
        · obtain ⟨htake, hdrop⟩ := letters_of_run cs
          have hshorter := (List.dropWhile_suffix (l := cs) Text.isLetter).length_le
          have hrun : c :: (cs.takeWhile isPlain).takeWhile Text.isLetter ++
              (cs.takeWhile isPlain).dropWhile Text.isLetter = c :: cs.takeWhile isPlain :=
            congrArg (c :: ·) List.takeWhile_append_dropWhile
          have hfront := run_takeFront hc cs hrun hdrop offset
          have hcommand := (reads_parameters (offset + byteSize (c :: cs.takeWhile Text.isLetter))
            (cs.dropWhile Text.isLetter)).maps (maps_readCommand hsymbol hmark hletter backslash
              offset cs)
          rw [htake] at hfront
          rw [Reads, Rule.read]
          rw [tokensAt_plain hc] at hfront ⊢
          rw [run_current_bind]
          simp only [String.toList_ofList, List.take_succ_cons, List.take_zero, List.any_cons,
            List.any_nil, hmark, decide_false, Bool.or_false, Bool.false_eq_true, if_false,
            List.takeWhile_cons_of_pos hletter, List.dropWhile_cons_of_pos hletter, htake,
            List.isEmpty_cons]
          exact (run_bind_of_ok hfront).trans hcommand
        · rw [Reads, Rule.read, readCommand, if_neg hsymbol, if_neg hmark, if_neg hletter,
            tokensAt_plain hc, run_current_bind]
          simp only [String.toList_ofList, List.take_succ_cons, List.take_zero, List.any_cons,
            List.any_nil, hmark, decide_false, Bool.or_false, Bool.false_eq_true, if_false,
            List.takeWhile_cons_of_neg hletter, List.isEmpty_nil, if_true]
          rfl
    | some s =>
      obtain rfl := Symbol.ofChar?_eq_some_iff.mp hc
      rw [Reads, Rule.read, tokensAt_symbol, readCommand, hc]
      rfl
termination_by 4 * text.length + 3

theorem reads_parameters (offset : Nat) (text : List Char) :
    Reads Rule.parameters.read offset text (readParameters offset text) := by
  cases text with
  | nil =>
    rw [Reads, Rule.read, readParameters]
    dsimp only [Except.map]
    rw [tokensAt_nil]
    rfl
  | cons c cs =>
    cases hc : Symbol.ofChar? c with
    | none =>
      rw [Reads, Rule.read, readParameters, hc]
      dsimp only [Except.map]
      rw [tokensAt_plain hc]
      rfl
    | some s =>
      obtain rfl := Symbol.ofChar?_eq_some_iff.mp hc
      have hgroup : ∀ fence : Fence, Reads _ offset (fence.opening.char :: cs)
          (readParameters offset (fence.opening.char :: cs)) := fun fence =>
        (reads_group fence ⟨offset, offset + fence.opening.char.utf8Size⟩ _ cs).advance.binds
          (fun r _ => have := r.bounded; reads_parameters r.offset r.rest)
          (binds_readParameters fence offset cs)
      cases s with
      | leftBrace =>
        have hbraces := hgroup .braces
        rw [Reads, Fence.opening, tokensAt_symbol] at hbraces
        rw [Reads, Rule.read, tokensAt_symbol]
        exact hbraces
      | leftBracket =>
        have hbrackets := hgroup .brackets
        rw [Reads, Fence.opening, tokensAt_symbol] at hbrackets
        rw [Reads, Rule.read, tokensAt_symbol]
        exact hbrackets
      | backslash | rightBrace | rightBracket | subscript | superscript =>
        rw [Reads, Rule.read, readParameters, hc]
        dsimp only [Except.map]
        rw [tokensAt_symbol]
        rfl
termination_by 4 * text.length + 1

end

/-- Reading the tokens of a formula ends, and gives what reading its text gives. -/
theorem ofTokens_tokenize (s : String) : ofTokens (tokenize s) = some (readAll s) := by
  have hreads := reads_chain none 0 s.toList
  rw [Reads] at hreads
  rw [ofTokens, tokenize_eq, hreads, readAll]
  cases readChain none 0 s.toList <;> rfl

end Element

/-- Whatever cuts a text into its structural characters and the runs between them, the tokens are
read as the text is. -/
theorem Tree.parse_of_tokens {s : String} {tokens : List PlacedToken}
    (h : IsTokenization s 0 s.toList tokens) :
    (Element.ofTokens tokens).map (Except.map Tree.ofElements) = some (Tree.parse s) := by
  obtain rfl : tokens = tokenize s := (isTokenization_iff (At.start _)).mp h
  rw [Element.ofTokens_tokenize, Tree.parse]
  rfl

end Formulary
