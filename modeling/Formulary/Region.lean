import Formulary.Diagnostic
import Formulary.Text.Size

/-!
# Math regions of a document

A document is text with formulas in it, between single dollars in a line or between double dollars
on display. A backslash takes the next character out of consideration, in the text and in formulas.
A dollar that opens nothing that is ever closed is text; a region that is opened with one delimiter
and closed with the other is an error.

The scanner tries to read a region wherever a dollar stands; where there is none it passes over a
piece of text and goes on. The pieces between two regions make up one segment.
-/

namespace Formulary

/-- How a formula is delimited. -/
inductive Delimiter where
  | inline
  | display
  deriving DecidableEq, Repr

/-- The delimiter as it is written. -/
def Delimiter.text : Delimiter → String
  | .inline => "$"
  | .display => "$$"

/-- A piece of a document: text, or a formula with its delimiter and the place of its content. -/
inductive Segment where
  | text (text : String)
  | math (delimiter : Delimiter) (content : String) (span : Span)
  deriving DecidableEq, Repr

/-- The segment as it stands in the document. -/
def Segment.write : Segment → String
  | .text run => run
  | .math delimiter content _ => delimiter.text ++ content ++ delimiter.text

/-- A region that is not closed as it was opened. -/
structure DelimiterMismatch where
  opening : Delimiter
  closing : Delimiter
  openingPlace : Span
  closingPlace : Span
  deriving DecidableEq, Repr

/-- The mismatch as it is told. -/
def DelimiterMismatch.diagnostic (m : DelimiterMismatch) : Diagnostic :=
  (Diagnostic.error .mismatchedDelimiters "math delimiters do not match"
    [.primary m.closingPlace ("closed with `" ++ m.closing.text ++ "`"),
      .secondary m.openingPlace ("opened with `" ++ m.opening.text ++ "`")]).withHelp
    ("close the region with `" ++ m.opening.text ++ "`")

namespace Region

/-- The delimiter at the start of a text, double dollars before single ones, and what follows. -/
def delimiter? : List Char → Option (Delimiter × List Char)
  | '$' :: '$' :: rest => some (.display, rest)
  | '$' :: rest => some (.inline, rest)
  | _ => none

/-- The content of a region at the start of a text, up to a dollar that nothing escapes, and what
follows. -/
def inside : List Char → List Char × List Char
  | [] => ([], [])
  | [c] => if c = '$' ∨ c = '\\' then ([], [c]) else ([c], [])
  | c :: d :: rest =>
    if c = '\\' then
      let (content, after) := inside rest
      (c :: d :: content, after)
    else if c = '$' then ([], c :: d :: rest)
    else
      let (content, after) := inside (d :: rest)
      (c :: content, after)

end Region

/-- A region at the start of a text, and what follows it. -/
structure Region where
  opening : Delimiter
  content : List Char
  closing : Delimiter
  rest : List Char
  deriving DecidableEq, Repr

namespace Region

/-- The region at the start of a text. -/
def read? (text : List Char) : Option Region := do
  let (opening, inner) ← delimiter? text
  let (content, after) := inside inner
  let (closing, rest) ← delimiter? after
  return ⟨opening, content, closing, rest⟩

theorem inside_append (text : List Char) : (inside text).1 ++ (inside text).2 = text := by
  fun_induction inside text <;> simp_all

theorem length_of_delimiter? {text rest : List Char} {d : Delimiter}
    (h : delimiter? text = some (d, rest)) : rest.length < text.length := by
  unfold delimiter? at h
  split at h
  · obtain ⟨-, rfl⟩ := Prod.mk.inj (Option.some.inj h)
    simp only [List.length_cons]
    omega
  · obtain ⟨-, rfl⟩ := Prod.mk.inj (Option.some.inj h)
    exact Nat.lt_succ_self _
  · cases h

/-- Reading a region leaves less text. -/
theorem length_of_read? {text : List Char} {r : Region} (h : read? text = some r) :
    r.rest.length < text.length := by
  simp only [read?, Option.bind_eq_bind, Option.pure_def, Option.bind_eq_some_iff] at h
  obtain ⟨⟨opening, inner⟩, hopening, ⟨closing, rest⟩, hclosing, hr⟩ := h
  obtain rfl := Option.some.inj hr
  have houter := length_of_delimiter? hopening
  have hinner := length_of_delimiter? hclosing
  have hall := congrArg List.length (inside_append inner)
  simp only [List.length_append] at hall
  simp only at hinner ⊢
  omega

end Region

/-- Whether a character has a meaning in the text between regions. -/
def isScannerSign (c : Char) : Bool := c == '$' || c == '\\'

/-- The piece of text that starts with a character, and what follows: an escape, a run without
dollars and backslashes, or a single character. -/
def textPiece (c : Char) (cs : List Char) : List Char × List Char :=
  if isScannerSign c then
    match cs with
    | d :: rest => if c = '\\' then ([c, d], rest) else ([c], cs)
    | [] => ([c], [])
  else (c :: cs.takeWhile (!isScannerSign ·), cs.dropWhile (!isScannerSign ·))

theorem length_textPiece (c : Char) (cs : List Char) : (textPiece c cs).2.length ≤ cs.length := by
  unfold textPiece
  split
  · split
    · split
      · exact Nat.le_succ _
      · exact Nat.le_refl _
    · exact Nat.le_refl _
  · exact (List.dropWhile_suffix _).length_le

/-- Puts text in front of segments; it joins the text they start with. -/
def Segment.consText (run : List Char) : List Segment → List Segment
  | .text next :: segments => .text (String.ofList run ++ next) :: segments
  | segments => .text (String.ofList run) :: segments

/-- The segments of a text that starts at an offset. -/
def scanFrom (offset : Nat) (text : List Char) : Except DelimiterMismatch (List Segment) :=
  match text with
  | [] => .ok []
  | c :: cs =>
    match h : Region.read? (c :: cs) with
    | some region =>
      let start := offset + region.opening.text.utf8ByteSize
      let stop := start + Text.byteSize region.content
      let next := stop + region.closing.text.utf8ByteSize
      if region.opening = region.closing then
        have := Region.length_of_read? h
        (scanFrom next region.rest).map
          (.math region.opening (String.ofList region.content) ⟨start, stop⟩ :: ·)
      else .error ⟨region.opening, region.closing, ⟨offset, start⟩, ⟨stop, next⟩⟩
    | none =>
      let piece := textPiece c cs
      have := length_textPiece c cs
      (scanFrom (offset + Text.byteSize piece.1) piece.2).map (Segment.consText piece.1)
termination_by text.length
decreasing_by
  · assumption
  · exact Nat.lt_succ_of_le this

/-- Splits a document into text and formulas. -/
def scan (document : String) : Except DelimiterMismatch (List Segment) :=
  scanFrom 0 document.toList

end Formulary
