import Formulary.Proofs.Stretches

/-!
# Tokens as a tiling

The tokens of a text stand side by side from its start to its end, and a run of text between them
goes on until a structural character comes. There is only one way to cut a text like this, and it is
the one that `tokenize` finds.

* `IsTokenization`: the cut, in terms of the bytes of the text and of what tokens display.
* `Lexeme.IsFirst.first?`: reading one token, `Lexeme.isSome_first?`: there always is one to read.
* `IsTokenization.cons`, `IsTokenization.uncons`: a cut from an offset on is a first token and a cut
  after it. Reading goes on in the same way (`tokensFrom_of_first?`), so the two agree by induction
  on the tokens (`isTokenization_iff`).
-/

namespace Formulary

open Shape (isPlain_iff isPlain_char span_append)
open Formulary.Span (Tile)
open Text (byteSize)

/-! ## What a tokenization is -/

/-- A run of text: it is not empty, and no character of it is structural. -/
def IsRun (run : String) : Prop := run ≠ "" ∧ ∀ x : Symbol, x.char ∉ run.toList

/-- Whether a token is a run of text. -/
def Token.IsText (token : Token) : Prop := ∃ run, token = .text run

theorem Token.toList_display_symbol (x : Symbol) : (Token.symbol x).display.toList = [x.char] :=
  String.toList_singleton x.char

/-- Tokens that cut what is left of a text at an offset into its structural characters and the runs
between them. -/
structure IsTokenization (s : String) (offset : Nat) (cs : List Char) (tokens : List PlacedToken) :
    Prop where
  /-- The end of the input comes last, at the end of the text, and nowhere else. -/
  ends : ∃ body, tokens = body ++ [⟨.eof, Span.point s.utf8ByteSize⟩] ∧ ∀ t ∈ body, t.token ≠ .eof
  /-- Together the tokens give what is left. -/
  displays : (tokens.flatMap fun t => t.token.display.toList) = cs
  /-- Their spans follow each other without gaps. -/
  tiles : Tile offset (tokens.map PlacedToken.span) s.utf8ByteSize
  /-- Each token gives the bytes at its span. -/
  slices : ∀ t ∈ tokens, s.toUTF8.extract t.span.start t.span.stop = t.token.display.toUTF8
  runs : ∀ t ∈ tokens, ∀ run, t.token = .text run → IsRun run
  /-- A run is never cut in two. -/
  apart : tokens.IsChain fun t u => ¬ (t.token.IsText ∧ u.token.IsText)

/-! ## Reading one token -/

theorem isPlain_eq_false_iff {c : Char} : isPlain c = false ↔ ∃ x : Symbol, x.char = c := by
  rw [← Bool.not_eq_true, isPlain_iff]
  simp only [ne_eq, not_forall, not_not]

theorem isRun_iff {run : String} : IsRun run ↔ run ≠ "" ∧ ∀ c ∈ run.toList, isPlain c = true := by
  refine and_congr_right fun _ => ⟨fun h c hc => ?_, fun h x hx => ?_⟩
  · rw [isPlain_iff]
    rintro x rfl
    exact h x hc
  · have hplain := h x.char hx
    rw [isPlain_char] at hplain
    exact Bool.false_ne_true hplain

namespace Lexeme

variable {cs : List Char} {l : Lexeme}

/-- A token at the front of a text as it should be read: a structural character, or a run of text
with nothing or a structural character after it. -/
inductive IsFirst : Lexeme → Prop where
  | symbol (x : Symbol) (rest : List Char) : IsFirst ⟨.symbol x, [x.char], rest⟩
  | text {run : String} {rest : List Char} (hrun : IsRun run)
    (hrest : ∀ c ∈ rest.head?, ∃ x : Symbol, x.char = c) : IsFirst ⟨.text run, run.toList, rest⟩

theorem IsFirst.ne_eof (h : l.IsFirst) : l.token ≠ .eof := by
  cases h <;> simp

theorem IsFirst.toList_display (h : l.IsFirst) : l.token.display.toList = l.taken := by
  cases h with
  | symbol x => exact Token.toList_display_symbol x
  | text => rfl

theorem IsFirst.first? (h : l.IsFirst) : first? (l.taken ++ l.rest) = some l := by
  cases h with
  | symbol x rest => simp [Lexeme.first?, symbol?]
  | @text run rest hrun hrest =>
    obtain ⟨hne, hplain⟩ := isRun_iff.mp hrun
    have hsymbol : symbol? (run.toList ++ rest) = none := by
      cases hchars : run.toList with
      | nil => exact absurd (String.toList_eq_nil_iff.mp hchars) hne
      | cons c cs =>
        have hc := hplain c (hchars ▸ List.mem_cons_self)
        rw [isPlain, Option.isNone_iff_eq_none] at hc
        rw [List.cons_append, symbol?, hc, Option.map_none]
    have hspan := span_append (p := isPlain) (fun c hc => isPlain_eq_false_iff.mpr (hrest c hc))
      run.toList
    rw [List.takeWhile_eq_self_iff.mpr hplain, List.dropWhile_eq_nil_iff.mpr hplain] at hspan
    rw [Lexeme.first?, hsymbol, Option.none_or, run?, hspan.1, hspan.2]
    simp [hne]

theorem isFirst_of_first? (h : first? cs = some l) : l.IsFirst ∧ cs = l.taken ++ l.rest := by
  rcases Option.or_eq_some_iff.mp h with hsymbol | ⟨-, hrun⟩
  · cases cs with
    | nil => cases hsymbol
    | cons c cs =>
      obtain ⟨x, hx, rfl⟩ := Option.map_eq_some_iff.mp hsymbol
      obtain rfl := Symbol.ofChar?_eq_some_iff.mp hx
      exact ⟨.symbol x cs, rfl⟩
  · rw [run?] at hrun
    split at hrun
    · cases hrun
    · rename_i hne
      obtain rfl := Option.some.inj hrun
      refine ⟨?_, List.takeWhile_append_dropWhile.symm⟩
      nth_rewrite 2 [← String.toList_ofList (l := cs.takeWhile isPlain)]
      refine .text (isRun_iff.mpr ⟨?_, fun c hc => ?_⟩) fun c hc => ?_
      · simpa using hne
      · rw [String.toList_ofList] at hc
        exact List.mem_takeWhile_imp hc
      · have hnot := List.head?_dropWhile_not isPlain cs
        rw [Option.mem_def.mp hc] at hnot
        exact isPlain_eq_false_iff.mp (by simpa using hnot)

/-- Any text that has a character left starts with a token. -/
theorem isSome_first? (c : Char) (cs : List Char) : (first? (c :: cs)).isSome = true := by
  rw [first?, Option.isSome_or, symbol?, Option.isSome_map, run?, List.takeWhile_cons, isPlain]
  cases Symbol.ofChar? c <;> simp

end Lexeme

/-! ## Reading on -/

variable {s : String} {offset : Nat} {cs : List Char} {t : PlacedToken} {ts : List PlacedToken}
  {l : Lexeme}

@[simp]
theorem tokensFrom_nil (offset : Nat) : tokensFrom offset [] = [] := by
  rw [tokensFrom]
  rfl

theorem tokensFrom_of_first? (offset : Nat) (h : Lexeme.first? cs = some l) :
    tokensFrom offset cs = ⟨l.token, ⟨offset, offset + byteSize l.taken⟩⟩ ::
      tokensFrom (offset + byteSize l.taken) l.rest := by
  have hne : cs.isEmpty = false := by
    cases cs with
    | nil => cases h
    | cons c cs => rfl
  rw [tokensFrom, hne, if_neg Bool.false_ne_true]
  split
  · rename_i l' h'
    obtain rfl := Option.some.inj (h.symm.trans h')
    rfl
  · rename_i h'
    cases h.symm.trans h'

namespace IsTokenization

/-- At the end of a text only the end of the input is left. -/
theorem nil (hat : At s.toList offset []) :
    IsTokenization s offset [] [⟨.eof, Span.point s.utf8ByteSize⟩] := by
  have hoffset := hat.add_byteSize
  rw [Text.byteSize_toList, Text.byteSize_nil, Nat.add_zero] at hoffset
  subst hoffset
  refine ⟨⟨[], rfl, by simp⟩, rfl, ⟨rfl, Nat.le_refl _, rfl⟩, ?_, by simp, .singleton _⟩
  rw [List.forall_mem_singleton]
  have hend : At s.toList s.utf8ByteSize ([] ++ []) := hat
  exact hend.extract

/-- The end of the input is the first token only if nothing is left. -/
theorem eof_or (h : IsTokenization s offset cs (t :: ts)) :
    (t = ⟨.eof, Span.point s.utf8ByteSize⟩ ∧ ts = [] ∧ cs = []) ∨
      (t.token ≠ .eof ∧ ∃ body, ts = body ++ [⟨.eof, Span.point s.utf8ByteSize⟩] ∧
        ∀ u ∈ body, u.token ≠ .eof) := by
  obtain ⟨body, htokens, hbody⟩ := h.ends
  cases body with
  | nil =>
    obtain ⟨rfl, rfl⟩ := List.cons.inj htokens
    exact .inl ⟨rfl, rfl, h.displays.symm⟩
  | cons u body =>
    obtain ⟨rfl, rfl⟩ := List.cons.inj htokens
    obtain ⟨ht, hbody⟩ := List.forall_mem_cons.mp hbody
    exact .inr ⟨ht, body, rfl, hbody⟩

/-- The first token is a run of text just if what is left starts with a plain character. -/
theorem isText_iff (h : IsTokenization s offset cs (t :: ts)) :
    t.token.IsText ↔ ∃ c ∈ cs.head?, ∀ x : Symbol, x.char ≠ c := by
  have hdisplays := h.displays
  rw [List.flatMap_cons] at hdisplays
  cases htoken : t.token with
  | eof =>
    rcases h.eof_or with ⟨-, -, rfl⟩ | ⟨hne, -⟩
    · simp [Token.IsText]
    · exact absurd htoken hne
  | symbol x =>
    rw [← hdisplays, htoken, Token.toList_display_symbol]
    simp [Token.IsText]
  | text run =>
    obtain ⟨hne, hrun⟩ := h.runs t List.mem_cons_self run htoken
    cases hchars : run.toList with
    | nil => exact absurd (String.toList_eq_nil_iff.mp hchars) hne
    | cons c rest =>
      refine ⟨fun _ => ⟨c, ?_, fun x hx => ?_⟩, fun _ => ⟨run, rfl⟩⟩
      · rw [← hdisplays, htoken, Token.display, hchars]
        rfl
      · exact hrun x (hchars ▸ hx ▸ List.mem_cons_self)

/-- A first token, as it should be read, in front of a cut of what comes after it. -/
theorem cons (hfirst : l.IsFirst) (hat : At s.toList offset (l.taken ++ l.rest))
    (h : IsTokenization s (offset + byteSize l.taken) l.rest ts) :
    IsTokenization s offset (l.taken ++ l.rest)
      (⟨l.token, ⟨offset, offset + byteSize l.taken⟩⟩ :: ts) := by
  refine ⟨?_, ?_, ⟨rfl, Nat.le_add_right _ _, h.tiles⟩, ?_, ?_, ?_⟩
  · obtain ⟨body, rfl, hbody⟩ := h.ends
    exact ⟨_ :: body, rfl, List.forall_mem_cons.mpr ⟨hfirst.ne_eof, hbody⟩⟩
  · rw [List.flatMap_cons, hfirst.toList_display, h.displays]
  · refine List.forall_mem_cons.mpr ⟨?_, h.slices⟩
    rw [hat.extract, ← hfirst.toList_display, String.ofList_toList]
  · refine List.forall_mem_cons.mpr ⟨fun run hrun => ?_, h.runs⟩
    cases hfirst with
    | symbol => cases hrun
    | text hisRun =>
      obtain rfl := Token.text.inj hrun
      exact hisRun
  · cases ts with
    | nil => exact .singleton _
    | cons u ts =>
      refine List.isChain_cons_cons.mpr ⟨?_, h.apart⟩
      rintro ⟨⟨run, hrun⟩, hu⟩
      obtain ⟨c, hc, hplain⟩ := h.isText_iff.mp hu
      cases hfirst with
      | symbol => cases hrun
      | text _ hrest =>
        obtain ⟨x, hx⟩ := hrest c hc
        exact hplain x hx

/-- A first token before the end is as it should be read, and the others cut what comes after it. -/
theorem uncons (h : IsTokenization s offset cs (t :: ts)) (hne : t.token ≠ .eof) :
    ∃ l : Lexeme, l.IsFirst ∧ cs = l.taken ++ l.rest ∧
      t = ⟨l.token, ⟨offset, offset + byteSize l.taken⟩⟩ ∧
      IsTokenization s (offset + byteSize l.taken) l.rest ts := by
  obtain ⟨token, start, stop⟩ := t
  obtain ⟨rfl : start = offset, hle : start ≤ stop, htiles : Tile stop _ _⟩ := h.tiles
  have hcs : token.display.toList ++ (ts.flatMap fun t => t.token.display.toList) = cs := h.displays
  obtain ⟨hslice, hslices⟩ := List.forall_mem_cons.mp h.slices
  -- The bytes at a span inside the text are as many as the span is wide.
  have hstop : stop = start + byteSize token.display.toList := by
    have hsize := congrArg ByteArray.size hslice
    simp only [ByteArray.size_extract, String.toUTF8_eq_toByteArray,
      String.size_toByteArray] at hsize
    have hend := htiles.le
    rw [Text.byteSize_toList]
    omega
  have hts : IsTokenization s stop (ts.flatMap fun t => t.token.display.toList) ts :=
    ⟨(h.eof_or.resolve_left fun heof => hne (congrArg PlacedToken.token heof.1)).2, rfl, htiles,
      hslices, (List.forall_mem_cons.mp h.runs).2, h.apart.tail⟩
  subst hstop hcs
  cases token with
  | eof => exact absurd rfl hne
  | symbol x =>
    rw [Token.toList_display_symbol] at hts ⊢
    exact ⟨_, .symbol x _, rfl, rfl, hts⟩
  | text run =>
    refine ⟨_, .text (h.runs _ List.mem_cons_self run rfl) fun c hc => ?_, rfl, rfl, hts⟩
    cases ts with
    | nil => cases hc
    | cons u ts =>
      have hu : ¬ u.token.IsText := fun hu => (List.isChain_cons_cons.mp h.apart).1 ⟨⟨run, rfl⟩, hu⟩
      rw [hts.isText_iff] at hu
      by_contra hnone
      exact hu ⟨c, hc, fun x hx => hnone ⟨x, hx⟩⟩

end IsTokenization

/-- Cuts from an offset on are what reading gives. -/
theorem isTokenization_iff (hat : At s.toList offset cs) : IsTokenization s offset cs ts ↔
    ts = tokensFrom offset cs ++ [⟨.eof, Span.point s.utf8ByteSize⟩] := by
  induction ts generalizing offset cs with
  | nil =>
    refine ⟨fun h => ?_, fun h => by simp at h⟩
    obtain ⟨body, hbody, -⟩ := h.ends
    simp at hbody
  | cons t ts ih =>
    constructor
    · intro h
      rcases h.eof_or with ⟨rfl, rfl, rfl⟩ | ⟨hne, -⟩
      · rw [tokensFrom_nil, List.nil_append]
      · obtain ⟨l, hfirst, rfl, rfl, hts⟩ := h.uncons hne
        rw [tokensFrom_of_first? offset hfirst.first?, List.cons_append, (ih hat.append).mp hts]
    · intro h
      cases cs with
      | nil =>
        rw [tokensFrom_nil, List.nil_append] at h
        rw [h]
        exact .nil hat
      | cons c cs =>
        obtain ⟨l, hl⟩ := Option.isSome_iff_exists.mp (Lexeme.isSome_first? c cs)
        rw [tokensFrom_of_first? offset hl] at h
        obtain ⟨rfl, hts⟩ := List.cons.inj h
        obtain ⟨hfirst, hcs⟩ := Lexeme.isFirst_of_first? hl
        rw [hcs] at hat ⊢
        exact .cons hfirst hat ((ih hat.append).mpr hts)

/-- There is one way to cut a text into its structural characters and the runs between them, and it
is the one that reading tokens finds. Reading never has to keep what is left as it is, since a token
can be read at the front of any text but the empty one. -/
theorem tokenize_unique (s : String) :
    (∀ tokens, IsTokenization s 0 s.toList tokens ↔ tokens = tokenize s) ∧
      ∀ c cs, (Lexeme.first? (c :: cs)).isSome = true :=
  ⟨fun _ => isTokenization_iff (At.start _), Lexeme.isSome_first?⟩

/-- Structural characters side by side, and letters of two and four bytes. -/
example : tokenize "é^_𝒫x" =
    [⟨.text "é", ⟨0, 2⟩⟩, ⟨.symbol .superscript, ⟨2, 3⟩⟩, ⟨.symbol .subscript, ⟨3, 4⟩⟩,
      ⟨.text "𝒫x", ⟨4, 9⟩⟩, ⟨.eof, ⟨9, 9⟩⟩] := by
  decide +kernel

end Formulary
