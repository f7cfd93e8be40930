import Formulary.Proofs.Provenance
import Formulary.Region

/-!
# Scanning documents

What the scanner reads as the content of a region is *sealed*: a dollar stands in it only after a
backslash, and each of its backslashes has a character to take out of consideration. Conversely, a
sealed text between two delimiters of one kind is read as the content of a region, unless it is
empty between single dollars or followed by another dollar.

* `Region.read?_sound`, `Region.read?_complete`: regions.
* `scanFrom_induction`: the steps of a scan, for what holds of a whole document.
* `chars_of_scanFrom`: a scan loses nothing.
* `exists_read?_of_mem`, `within_of_scanFrom`: a scan says where the formulas stand, or where the
  delimiters that do not match.
-/

namespace Formulary

open Text (byteSize)

variable {c : Char} {content cs source text : List Char} {r : Region}

/-! ## Sealed text -/

/-- Text in which no dollar is free to delimit anything, and no backslash to reach beyond it. -/
inductive Sealed : List Char → Prop
  | nil : Sealed []
  | cons {c : Char} {cs : List Char} : isScannerSign c = false → Sealed cs → Sealed (c :: cs)
  | escape (c : Char) {cs : List Char} : Sealed cs → Sealed ('\\' :: c :: cs)

theorem isScannerSign_eq_false_iff : isScannerSign c = false ↔ c ≠ '$' ∧ c ≠ '\\' := by
  simp [isScannerSign]

namespace Sealed

variable {cs ds : List Char}

theorem append (h : Sealed cs) (h' : Sealed ds) : Sealed (cs ++ ds) := by
  induction h with
  | nil => exact h'
  | cons hc _ ih => exact .cons hc ih
  | escape c _ ih => exact .escape c ih

theorem head?_ne (h : Sealed cs) : cs.head? ≠ some '$' := by
  intro hhead
  cases h with
  | nil => cases hhead
  | cons hc _ =>
    obtain rfl := Option.some.inj hhead
    cases hc
  | escape => simp at hhead

end Sealed

/-- Text in which no dollar is free, with or without a backslash at its end. -/
inductive Bare : List Char → Prop
  | nil : Bare []
  | backslash : Bare ['\\']
  | cons {c : Char} {cs : List Char} : isScannerSign c = false → Bare cs → Bare (c :: cs)
  | escape (c : Char) {cs : List Char} : Bare cs → Bare ('\\' :: c :: cs)

theorem Bare.dropWhile (h : Bare cs) : Bare (cs.dropWhile (!isScannerSign ·)) := by
  induction h with
  | nil => exact .nil
  | backslash => exact .backslash
  | cons hc _ ih =>
    rw [List.dropWhile_cons_of_pos (by rw [hc]; rfl)]
    exact ih
  | escape c h _ => exact .escape c h

/-- After sealed text, a dollar is free. -/
theorem Sealed.not_bare (h : Sealed content) (rest : List Char) :
    ¬Bare (content ++ '$' :: rest) := by
  induction h with
  | nil =>
    intro hbare
    cases hbare with
    | cons hc _ => cases hc
  | cons hc _ ih =>
    intro hbare
    rw [List.cons_append] at hbare
    generalize _ ++ '$' :: rest = more at ih hbare
    cases hbare with
    | backslash => cases hc
    | cons _ hbare => exact ih hbare
    | escape => cases hc
  | escape c _ ih =>
    intro hbare
    cases hbare with
    | cons hc _ => cases hc
    | escape _ hbare => exact ih hbare

/-! ## Regions -/

namespace Region

variable {text rest : List Char} {d : Delimiter}

/-- The content of a region ends where a dollar is free, or at the end of the text, at most a
backslash before it. -/
theorem inside_cases (text : List Char) : Sealed (inside text).1 ∧
    ((inside text).2 = [] ∨ (inside text).2 = ['\\'] ∨ ∃ rest, (inside text).2 = '$' :: rest) := by
  fun_induction inside text with
  | case1 => exact ⟨.nil, Or.inl rfl⟩
  | case2 c hc =>
    refine ⟨.nil, Or.inr ?_⟩
    rcases hc with rfl | rfl
    · exact Or.inr ⟨[], rfl⟩
    · exact Or.inl rfl
  | case3 c hc =>
    rw [not_or] at hc
    exact ⟨.cons (isScannerSign_eq_false_iff.mpr hc) .nil, Or.inl rfl⟩
  | case4 d rest content after hinside ih =>
    rw [hinside] at ih
    exact ⟨.escape d ih.1, ih.2⟩
  | case5 d rest hc => exact ⟨.nil, Or.inr (Or.inr ⟨_, rfl⟩)⟩
  | case6 c d rest hbackslash hdollar content after hinside ih =>
    rw [hinside] at ih
    exact ⟨.cons (isScannerSign_eq_false_iff.mpr ⟨hdollar, hbackslash⟩) ih.1, ih.2⟩

theorem bare_of_inside (h : (inside text).2.head? ≠ some '$') : Bare text := by
  fun_induction inside text with
  | case1 => exact .nil
  | case2 c hc =>
    rcases hc with rfl | rfl
    · exact absurd rfl h
    · exact .backslash
  | case3 c hc =>
    rw [not_or] at hc
    exact .cons (isScannerSign_eq_false_iff.mpr hc) .nil
  | case4 d rest content after hinside ih =>
    rw [hinside] at ih
    exact .escape d (ih h)
  | case5 d rest hc => exact absurd rfl h
  | case6 c d rest hbackslash hdollar content after hinside ih =>
    rw [hinside] at ih
    exact .cons (isScannerSign_eq_false_iff.mpr ⟨hdollar, hbackslash⟩) (ih h)

theorem inside_of_sealed (h : Sealed content) (rest : List Char) :
    inside (content ++ '$' :: rest) = (content, '$' :: rest) := by
  induction h with
  | nil => cases rest <;> rfl
  | @cons c cs hc _ ih =>
    obtain ⟨hdollar, hbackslash⟩ := isScannerSign_eq_false_iff.mp hc
    obtain ⟨d, more, hmore⟩ := List.exists_cons_of_ne_nil (List.append_ne_nil_of_right_ne_nil cs
      (List.cons_ne_nil '$' rest))
    rw [hmore] at ih
    rw [List.cons_append, hmore, inside, if_neg hbackslash, if_neg hdollar, ih]
  | escape c _ ih =>
    rw [List.cons_append, List.cons_append, inside, if_pos rfl, ih]

theorem delimiter?_sound (h : delimiter? text = some (d, rest)) :
    text = d.text.toList ++ rest ∧ (d = .inline → rest.head? ≠ some '$') := by
  unfold delimiter? at h
  split at h
  · cases h
    refine ⟨rfl, fun h => ?_⟩
    cases h
  · rename_i rest' hrest
    cases h
    refine ⟨rfl, fun _ hhead => ?_⟩
    cases rest with
    | nil => cases hhead
    | cons c rest =>
      obtain rfl := Option.some.inj hhead
      exact hrest rest rfl
  · cases h

theorem delimiter?_complete (h : d = .inline → rest.head? ≠ some '$') :
    delimiter? (d.text.toList ++ rest) = some (d, rest) := by
  cases d with
  | display => rfl
  | inline =>
    have hrest := h rfl
    cases rest with
    | nil => rfl
    | cons c rest =>
      change delimiter? ('$' :: c :: rest) = _
      unfold delimiter?
      split
      · rename_i heq
        cases heq
        exact absurd rfl hrest
      · rename_i heq
        cases heq
        rfl
      · rename_i hnone
        exact absurd rfl (hnone (c :: rest))

theorem delimiter?_eq_none (h : text.head? ≠ some '$') : delimiter? text = none := by
  cases hd : delimiter? text with
  | none => rfl
  | some out =>
    obtain ⟨d, rest⟩ := out
    obtain ⟨rfl, -⟩ := delimiter?_sound hd
    cases d <;> exact absurd rfl h

theorem exists_delimiter? (cs : List Char) :
    ∃ d inner, delimiter? ('$' :: cs) = some (d, inner) := by
  by_cases hhead : cs.head? = some '$'
  · obtain ⟨inner, rfl⟩ := List.head?_eq_some_iff.mp hhead
    exact ⟨.display, inner, rfl⟩
  · exact ⟨.inline, cs, delimiter?_complete (d := .inline) fun _ => hhead⟩

/-- A region is read as it is written, and has something in it if its delimiters are single. -/
theorem read?_sound (h : read? text = some r) :
    text = r.opening.text.toList ++ (r.content ++ (r.closing.text.toList ++ r.rest)) ∧
      Sealed r.content ∧ (r.opening = .inline → r.content ≠ []) ∧
      (r.closing = .inline → r.rest.head? ≠ some '$') := by
  simp only [read?, Option.bind_eq_bind, Option.pure_def, Option.bind_eq_some_iff] at h
  obtain ⟨⟨opening, inner⟩, hopening, ⟨closing, rest⟩, hclosing, hr⟩ := h
  obtain rfl := Option.some.inj hr
  obtain ⟨rfl, hinner⟩ := delimiter?_sound hopening
  obtain ⟨hafter, hrest⟩ := delimiter?_sound hclosing
  have hall := inside_append inner
  rw [hafter] at hall
  refine ⟨by rw [hall], (inside_cases inner).1, fun hinline hnil => hinner hinline ?_, hrest⟩
  -- What follows an empty content is the closing delimiter.
  rw [← hall]
  dsimp only at hnil
  rw [hnil]
  cases closing <;> rfl

/-- Sealed text between delimiters is the content of a region. -/
theorem read?_complete (h : Sealed content) (hcontent : d = .inline → content ≠ [])
    (hrest : d = .inline → rest.head? ≠ some '$') :
    read? (d.text.toList ++ (content ++ (d.text.toList ++ rest))) = some ⟨d, content, d, rest⟩ := by
  have hopening : delimiter? (d.text.toList ++ (content ++ (d.text.toList ++ rest))) =
      some (d, content ++ (d.text.toList ++ rest)) := by
    refine delimiter?_complete fun hinline hhead => h.head?_ne ?_
    rw [List.head?_append_of_ne_nil _ (hcontent hinline)] at hhead
    exact hhead
  have hinside : inside (content ++ (d.text.toList ++ rest)) = (content, d.text.toList ++ rest) := by
    cases d with
    | inline => exact inside_of_sealed h rest
    | display => exact inside_of_sealed h ('$' :: rest)
  rw [read?, hopening]
  dsimp only [Option.bind_eq_bind, Option.bind_some]
  rw [hinside, delimiter?_complete hrest]
  rfl

theorem read?_eq_none (cs : List Char) (h : c ≠ '$') : read? (c :: cs) = none := by
  have hnone : delimiter? (c :: cs) = none :=
    delimiter?_eq_none fun hhead => h (Option.some.inj hhead)
  rw [read?, hnone]
  rfl

/-- Where a region cannot be read, no dollar is free after the delimiter that would open it. -/
theorem bare_of_read? (h : read? ('$' :: cs) = none) :
    Bare cs ∨ ∃ inner, cs = '$' :: inner ∧ Bare inner := by
  obtain ⟨d, inner, hopening⟩ := exists_delimiter? cs
  have hbare : Bare inner := by
    refine bare_of_inside fun hhead => ?_
    obtain ⟨after, hafter⟩ := List.head?_eq_some_iff.mp hhead
    obtain ⟨closing, rest, hclosing⟩ := exists_delimiter? after
    rw [read?, hopening] at h
    dsimp only [Option.bind_eq_bind, Option.bind_some] at h
    rw [hafter, hclosing] at h
    cases h
  obtain ⟨htext, -⟩ := delimiter?_sound hopening
  cases d with
  | inline =>
    obtain ⟨-, rfl⟩ := List.cons.inj htext
    exact Or.inl hbare
  | display =>
    obtain ⟨-, rfl⟩ := List.cons.inj htext
    exact Or.inr ⟨inner, rfl, hbare⟩

end Region

/-- A region cannot be read where no dollar is free after the first one. -/
theorem Bare.read?_eq_none (h : Bare text ∨ ∃ inner, text = '$' :: inner ∧ Bare inner) :
    Region.read? text = none := by
  cases hr : Region.read? text with
  | none => rfl
  | some r =>
    obtain ⟨rfl, hcontent, -, -⟩ := Region.read?_sound hr
    exfalso
    rcases h with h | ⟨inner, htext, h⟩
    · cases hopening : r.opening <;> rw [hopening] at h <;> exact Sealed.nil.not_bare _ h
    · cases hopening : r.opening <;> rw [hopening] at htext <;>
        obtain ⟨-, rfl⟩ := List.cons.inj htext
      · cases hclosing : r.closing <;> rw [hclosing] at h <;> exact hcontent.not_bare _ h
      · exact Sealed.nil.not_bare _ h

/-! ## Pieces of text -/

theorem textPiece_append (c : Char) (cs : List Char) :
    (textPiece c cs).1 ++ (textPiece c cs).2 = c :: cs := by
  unfold textPiece
  split
  · split
    · split <;> rfl
    · rfl
  · rw [List.cons_append, List.takeWhile_append_dropWhile]

/-! ## Scans -/

theorem scanFrom_nil (offset : Nat) : scanFrom offset [] = .ok [] := by
  rw [scanFrom]

/-- One step of a scan that reads a region. -/
theorem scanFrom_of_read? (offset : Nat) (h : Region.read? text = some r) : scanFrom offset text =
      (let start := offset + r.opening.text.utf8ByteSize
      let stop := start + byteSize r.content
      let next := stop + r.closing.text.utf8ByteSize
      if r.opening = r.closing then
        (scanFrom next r.rest).map
          (.math r.opening (String.ofList r.content) ⟨start, stop⟩ :: ·)
      else .error ⟨r.opening, r.closing, ⟨offset, start⟩, ⟨stop, next⟩⟩) := by
  cases text with
  | nil => cases h
  | cons c cs =>
    rw [scanFrom]
    split
    · rename_i r' h'
      obtain rfl := Option.some.inj (h.symm.trans h')
      rfl
    · rename_i h'
      cases h.symm.trans h'

/-- One step of a scan that passes over text. -/
theorem scanFrom_of_none (offset : Nat) (h : Region.read? (c :: cs) = none) :
    scanFrom offset (c :: cs) =
      (scanFrom (offset + byteSize (textPiece c cs).1) (textPiece c cs).2).map
        (Segment.consText (textPiece c cs).1) := by
  rw [scanFrom]
  split
  · rename_i r h'
    cases h.symm.trans h'
  · rfl

/-- The places where the content of a region starts and stops, and where the text after it starts. -/
theorem At.region {offset : Nat} (hat : At source offset text) (h : Region.read? text = some r) :
    let start := offset + r.opening.text.utf8ByteSize
    let stop := start + byteSize r.content
    At source start (r.content ++ (r.closing.text.toList ++ r.rest)) ∧
      At source stop (r.closing.text.toList ++ r.rest) ∧
      At source (stop + r.closing.text.utf8ByteSize) r.rest := by
  obtain ⟨rfl, -⟩ := Region.read?_sound h
  rw [← Text.byteSize_toList, ← Text.byteSize_toList]
  exact ⟨hat.append, hat.append.append, hat.append.append.append⟩

/-- The steps of a scan: at the end of the text, at a region and at a piece of text. -/
theorem scanFrom_induction {P : Nat → List Char → Prop} (nil : ∀ offset, P offset [])
    (region : ∀ offset text r, Region.read? text = some r →
      P (offset + r.opening.text.utf8ByteSize + byteSize r.content + r.closing.text.utf8ByteSize)
        r.rest → P offset text)
    (piece : ∀ offset c cs, Region.read? (c :: cs) = none →
      P (offset + byteSize (textPiece c cs).1) (textPiece c cs).2 → P offset (c :: cs))
    (offset : Nat) (text : List Char) : P offset text := by
  induction hlength : text.length using Nat.strong_induction_on generalizing offset text with
  | h n ih =>
    subst hlength
    cases text with
    | nil => exact nil offset
    | cons c cs =>
      cases h : Region.read? (c :: cs) with
      | some r => exact region offset _ r h (ih _ (Region.length_of_read? h) _ _ rfl)
      | none =>
        have hshorter := length_textPiece c cs
        refine piece offset c cs h (ih _ ?_ _ _ rfl)
        rw [List.length_cons]
        omega

/-! ## Whole scans -/

section

variable {delimiter : Delimiter} {content document : String} {span : Span} {offset : Nat}
  {text : List Char} {segments : List Segment}

/-- How a scan that succeeds goes on from a region. -/
theorem scanFrom_eq_ok_of_read? (h : Region.read? text = some r)
    (hscan : scanFrom offset text = .ok segments) : r.closing = r.opening ∧
      ∃ span others, segments = .math r.opening (String.ofList r.content) span :: others ∧
        span = ⟨offset + r.opening.text.utf8ByteSize,
          offset + r.opening.text.utf8ByteSize + byteSize r.content⟩ ∧
        scanFrom (offset + r.opening.text.utf8ByteSize + byteSize r.content +
          r.closing.text.utf8ByteSize) r.rest = .ok others := by
  rw [scanFrom_of_read? offset h] at hscan
  dsimp only at hscan
  split at hscan
  · rename_i hsame
    rcases hothers : scanFrom _ r.rest with m | others
    · rw [hothers] at hscan
      cases hscan
    · rw [hothers] at hscan
      cases hscan
      exact ⟨hsame.symm, _, others, rfl, rfl, rfl⟩
  · cases hscan

/-- How a scan that succeeds goes on from a piece of text. -/
theorem scanFrom_eq_ok_of_none (h : Region.read? (c :: cs) = none)
    (hscan : scanFrom offset (c :: cs) = .ok segments) :
    ∃ others, segments = Segment.consText (textPiece c cs).1 others ∧
      scanFrom (offset + byteSize (textPiece c cs).1) (textPiece c cs).2 = .ok others := by
  rw [scanFrom_of_none offset h] at hscan
  rcases hothers : scanFrom _ (textPiece c cs).2 with m | others
  · rw [hothers] at hscan
    cases hscan
  · rw [hothers] at hscan
    cases hscan
    exact ⟨others, rfl, rfl⟩

/-- The text that segments stand for. -/
def Segment.chars (segments : List Segment) : List Char := segments.flatMap fun s => s.write.toList

theorem Segment.chars_consText (run : List Char) (segments : List Segment) :
    chars (consText run segments) = run ++ chars segments := by
  fun_cases consText run segments <;> simp [chars, write]

theorem Segment.mem_consText {run : List Char}
    (h : .math delimiter content span ∈ consText run segments) :
    .math delimiter content span ∈ segments := by
  revert h
  fun_cases consText run segments <;> simp

/-- A scan loses nothing. -/
theorem chars_of_scanFrom (hscan : scanFrom offset text = .ok segments) :
    Segment.chars segments = text := by
  induction offset, text using scanFrom_induction generalizing segments with
  | nil =>
    rw [scanFrom_nil] at hscan
    cases hscan
    rfl
  | region offset text r h ih =>
    obtain ⟨hclosing, span, others, rfl, -, hothers⟩ := scanFrom_eq_ok_of_read? h hscan
    obtain ⟨htext, -⟩ := Region.read?_sound h
    rw [htext, hclosing]
    simp [Segment.chars, Segment.write, ← ih hothers]
  | piece offset c cs h ih =>
    obtain ⟨others, rfl, hothers⟩ := scanFrom_eq_ok_of_none h hscan
    rw [Segment.chars_consText, ih hothers, textPiece_append]

/-- Each formula was read as a region somewhere in the document. -/
theorem exists_read?_of_mem (hat : At source offset text)
    (hscan : scanFrom offset text = .ok segments) (hmem : .math delimiter content span ∈ segments) :
    ∃ offset text r,
      At source offset text ∧ Region.read? text = some r ∧ r.opening = delimiter ∧
      content = String.ofList r.content ∧ span = ⟨offset + delimiter.text.utf8ByteSize,
        offset + delimiter.text.utf8ByteSize + byteSize r.content⟩ := by
  induction offset, text using scanFrom_induction generalizing segments with
  | nil =>
    rw [scanFrom_nil] at hscan
    cases hscan
    cases hmem
  | region offset text r h ih =>
    obtain ⟨-, span', others, rfl, hspan, hothers⟩ := scanFrom_eq_ok_of_read? h hscan
    rcases List.mem_cons.mp hmem with heq | hmem
    · obtain ⟨rfl, rfl, rfl⟩ := Segment.math.inj heq
      exact ⟨offset, text, r, hat, h, rfl, rfl, hspan⟩
    · exact ih (hat.region h).2.2 hothers hmem
  | piece offset c cs h ih =>
    obtain ⟨others, rfl, hothers⟩ := scanFrom_eq_ok_of_none h hscan
    rw [← textPiece_append c cs] at hat
    exact ih hat.append hothers (Segment.mem_consText hmem)

/-- The content of a formula is sealed. -/
theorem sealed_of_scan (hscan : scan document = .ok segments)
    (hmem : .math delimiter content span ∈ segments) : Sealed content.toList := by
  obtain ⟨_, _, r, -, hread, -, rfl, -⟩ :=
    exists_read?_of_mem (At.start document.toList) hscan hmem
  rw [String.toList_ofList]
  exact (Region.read?_sound hread).2.1

/-- Single dollars always have something between them. -/
theorem content_ne_of_scan (hscan : scan document = .ok segments)
    (hmem : .math .inline content span ∈ segments) : content ≠ "" := by
  obtain ⟨_, _, r, -, hread, hinline, rfl, -⟩ :=
    exists_read?_of_mem (At.start document.toList) hscan hmem
  simpa using (Region.read?_sound hread).2.2.1 hinline

/-- Delimiters that do not match stand in the document. -/
theorem within_of_scanFrom (hat : At source offset text) {m : DelimiterMismatch}
    (hscan : scanFrom offset text = .error m) :
    m.openingPlace.Within source ∧ m.closingPlace.Within source := by
  induction offset, text using scanFrom_induction with
  | nil =>
    rw [scanFrom_nil] at hscan
    cases hscan
  | region offset text r h ih =>
    rw [scanFrom_of_read? offset h] at hscan
    dsimp only at hscan
    split at hscan
    · rcases hothers : scanFrom _ r.rest with m' | others
      · rw [hothers] at hscan
        cases hscan
        exact ih (hat.region h).2.2 hothers
      · rw [hothers] at hscan
        cases hscan
    · cases hscan
      obtain ⟨hstart, hstop, hnext⟩ := hat.region h
      obtain ⟨rfl, -⟩ := Region.read?_sound h
      exact ⟨.of_at hat hstart (by simp), .of_at hstop hnext (by simp)⟩
  | piece offset c cs h ih =>
    rw [scanFrom_of_none offset h] at hscan
    rcases hothers : scanFrom _ (textPiece c cs).2 with m' | others
    · rw [hothers] at hscan
      cases hscan
      rw [← textPiece_append c cs] at hat
      exact ih hat.append hothers
    · rw [hothers] at hscan
      cases hscan

end

end Formulary
