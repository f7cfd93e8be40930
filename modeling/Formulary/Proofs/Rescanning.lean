import Formulary.Proofs.Sealing

/-!
# Scanning fixed documents

The formulas of a document are fixed one by one, without a look at what stands around them. Still, a
scan finds them where they were: the same delimiters around the fixed formulas, and the same text
between them. This goes wrong in one case only, when nothing is left of a formula between single
dollars, which then are read as one pair of double dollars.

* `Segment.placed`: segments with the places that they have when they are written anew.
* `scanFrom_of_refits`: what the scan of a document becomes when sealed text is put in the place of
  its formulas.
* `scan_of_fixText`: what it becomes when the document is fixed.
-/

namespace Formulary

open Text (byteSize)

variable {c : Char} {content : String} {delimiter : Delimiter} {offset : Nat}
  {segments : List Segment} {span : Span} {text : List Char}

/-! ## Segments -/

namespace Segment

/-- The segments, written one after the other from an offset on, with the places that their formulas
then have. -/
def placed : Nat → List Segment → List Segment
  | _, [] => []
  | offset, .text run :: segments => .text run :: placed (offset + run.utf8ByteSize) segments
  | offset, .math delimiter content _ :: segments =>
    let start := offset + delimiter.text.utf8ByteSize
    let stop := start + content.utf8ByteSize
    .math delimiter content ⟨start, stop⟩ :: placed (stop + delimiter.text.utf8ByteSize) segments

/-- The same segment, but for a formula that can stand in the place of the old one. -/
inductive Refits : Segment → Segment → Prop
  | text (run : String) : Refits (.text run) (.text run)
  | math {delimiter : Delimiter} {content content' : String} {span span' : Span} :
      Sealed content'.toList → (delimiter = .inline → content' ≠ "") →
      Refits (.math delimiter content span) (.math delimiter content' span')

variable {segments segments' : List Segment} {run : List Char}

theorem placed_consText (offset : Nat) (run : List Char) (segments : List Segment) :
    placed offset (consText run segments) =
      consText run (placed (offset + byteSize run) segments) := by
  rcases segments with _ | ⟨next | ⟨delimiter, content, span⟩, segments⟩
  · rfl
  · simp only [consText, placed, String.utf8ByteSize_append, Text.utf8ByteSize_ofList, Nat.add_assoc]
  · simp only [consText, placed, Text.utf8ByteSize_ofList]

/-- Text at the front of segments stays there. -/
theorem exists_consText_of_refits (h : List.Forall₂ Refits (consText run segments) segments') :
    ∃ others, List.Forall₂ Refits segments others ∧ segments' = consText run others := by
  rcases segments with _ | ⟨next | ⟨delimiter, content, span⟩, segments⟩
  · rcases h with _ | ⟨⟨⟩, _ | _⟩
    exact ⟨[], .nil, rfl⟩
  · rcases h with _ | ⟨⟨⟩, hrest⟩
    exact ⟨_, .cons (.text next) hrest, rfl⟩
  · rcases h with _ | ⟨⟨⟩, _ | ⟨hmath, hrest⟩⟩
    refine ⟨_, .cons hmath hrest, ?_⟩
    cases hmath
    rfl

theorem chars_math (delimiter : Delimiter) (content : String) (span : Span)
    (segments : List Segment) : chars (.math delimiter content span :: segments) =
      delimiter.text.toList ++ (content.toList ++ (delimiter.text.toList ++ chars segments)) := by
  simp [chars, write]

theorem exists_math_of_refits
    (h : List.Forall₂ Refits (.math delimiter content span :: segments) segments') :
    ∃ content' span' others, Sealed content'.toList ∧ (delimiter = .inline → content' ≠ "") ∧
      List.Forall₂ Refits segments others ∧ segments' = .math delimiter content' span' :: others := by
  rcases h with _ | ⟨hfirst, hrest⟩
  cases hfirst with
  | math hsealed hne => exact ⟨_, _, _, hsealed, hne, hrest, rfl⟩

/-- Segments without formulas stay as they are. -/
theorem eq_of_refits (h : List.Forall₂ Refits segments segments')
    (htext : ∀ delimiter content span, .math delimiter content span ∉ segments) :
    segments' = segments := by
  induction h with
  | nil => rfl
  | cons hfirst _ ih =>
    have hrest := ih fun _ _ _ hmem => htext _ _ _ (List.mem_cons_of_mem _ hmem)
    cases hfirst with
    | text run => rw [hrest]
    | math => exact absurd List.mem_cons_self (htext _ _ _)

end Segment

/-! ## Text without formulas -/

/-- What is left after a piece of text in which no dollar is free, or one at its start only. -/
theorem bare_textPiece {cs : List Char}
    (h : Bare (c :: cs) ∨ ∃ inner, c :: cs = '$' :: inner ∧ Bare inner) :
    Bare (textPiece c cs).2 := by
  rcases h with h | ⟨inner, heq, h⟩
  · cases h with
    | backslash => exact .nil
    | cons hc h =>
      unfold textPiece
      rw [hc]
      exact h.dropWhile
    | escape d h => exact h
  · obtain ⟨rfl, rfl⟩ := List.cons.inj heq
    cases cs with
    | nil => exact .nil
    | cons d cs => exact h

theorem text_of_bare (h : Bare text ∨ ∃ inner, text = '$' :: inner ∧ Bare inner)
    (hscan : scanFrom offset text = .ok segments) (delimiter : Delimiter) (content : String)
    (span : Span) : .math delimiter content span ∉ segments := by
  induction offset, text using scanFrom_induction generalizing segments with
  | nil =>
    rw [scanFrom_nil] at hscan
    cases hscan
    exact List.not_mem_nil
  | region offset text r hread ih =>
    rw [Bare.read?_eq_none h] at hread
    cases hread
  | piece offset c cs hread ih =>
    obtain ⟨others, rfl, hothers⟩ := scanFrom_eq_ok_of_none hread hscan
    intro hmem
    exact ih (Or.inl (bare_textPiece h)) hothers (Segment.mem_consText hmem)

/-! ## Scanning again -/

theorem textPiece_dollar (cs : List Char) : textPiece '$' cs = (['$'], cs) := by
  cases cs <;> rfl

theorem exists_textPiece (c : Char) (cs : List Char) :
    ∃ tail rest, textPiece c cs = (c :: tail, rest) := by
  fun_cases textPiece c cs
  all_goals exact ⟨_, _, rfl⟩

/-- A piece of text ends where it did, if the same character follows or none. -/
theorem textPiece_of_head? {cs tail rest rest' : List Char} (h : textPiece c cs = (c :: tail, rest))
    (hrest : rest'.head? = rest.head?) : textPiece c (tail ++ rest') = (c :: tail, rest') := by
  unfold textPiece at h ⊢
  split
  · rename_i hsign
    rw [if_pos hsign] at h
    cases cs with
    | nil =>
      cases h
      obtain rfl := List.head?_eq_none_iff.mp hrest
      rfl
    | cons d cs =>
      dsimp only at h
      split at h
      · rename_i hc
        cases h
        dsimp only [List.cons_append, List.nil_append]
        rw [if_pos hc]
      · rename_i hc
        cases h
        obtain ⟨more, rfl⟩ := List.head?_eq_some_iff.mp hrest
        dsimp only [List.nil_append]
        rw [if_neg hc]
  · rename_i hsign
    rw [if_neg hsign] at h
    cases h
    have hstop : ∀ y ∈ rest'.head?, (!isScannerSign y) = false := by
      intro y hy
      have hnot := List.head?_dropWhile_not (!isScannerSign ·) cs
      rw [← hrest, Option.mem_def.mp hy] at hnot
      exact hnot
    have hall : ∀ y ∈ cs.takeWhile (!isScannerSign ·), (!isScannerSign y) = true :=
      fun y hy => List.mem_takeWhile_imp (p := (!isScannerSign ·)) hy
    obtain ⟨htake, hdrop⟩ := Shape.span_append hstop (cs.takeWhile (!isScannerSign ·))
    rw [htake, hdrop, List.takeWhile_eq_self_iff.mpr hall, List.dropWhile_eq_nil_iff.mpr hall,
      List.nil_append]

/-- Sealed text in the place of formulas is scanned as formulas, and everything else as it was. -/
theorem scanFrom_of_refits {segments' : List Segment} (hscan : scanFrom offset text = .ok segments)
    (h : List.Forall₂ Segment.Refits segments segments') :
    (Segment.chars segments').head? = text.head? ∧ ∀ offset',
      scanFrom offset' (Segment.chars segments') = .ok (Segment.placed offset' segments') := by
  induction offset, text using scanFrom_induction generalizing segments segments' with
  | nil =>
    rw [scanFrom_nil] at hscan
    cases hscan
    cases h
    exact ⟨rfl, scanFrom_nil⟩
  | region offset text r hread ih =>
    obtain ⟨hclosing, span, others, rfl, -, hothers⟩ := scanFrom_eq_ok_of_read? hread hscan
    obtain ⟨rfl, -, -, hrest⟩ := Region.read?_sound hread
    obtain ⟨content', span', others', hsealed, hne, htail, rfl⟩ := Segment.exists_math_of_refits h
    obtain ⟨hhead, hscan'⟩ := ih hothers htail
    rw [Segment.chars_math]
    refine ⟨by cases r.opening <;> rfl, fun offset' => ?_⟩
    -- What follows the region starts with the same character, so its delimiter is read as it was.
    rw [hclosing] at hrest
    have hread' := Region.read?_complete hsealed (fun hinline => by simpa using hne hinline)
      (hhead ▸ hrest)
    rw [scanFrom_of_read? offset' hread', Segment.placed]
    dsimp only
    rw [if_pos rfl, hscan', Text.byteSize_toList, String.ofList_toList]
    rfl
  | piece offset c cs hread ih =>
    obtain ⟨others, rfl, hothers⟩ := scanFrom_eq_ok_of_none hread hscan
    obtain ⟨others', hrefits, rfl⟩ := Segment.exists_consText_of_refits h
    obtain ⟨hhead, hscan'⟩ := ih hothers hrefits
    obtain ⟨tail, rest, hpiece⟩ := exists_textPiece c cs
    rw [hpiece] at hothers hhead
    have hread' : Region.read? (c :: (tail ++ Segment.chars others')) = none := by
      by_cases hc : c = '$'
      · -- After a dollar that opens nothing no formula follows, so all that follows is as it was.
        subst hc
        obtain ⟨hpiece, hcs⟩ := Prod.mk.inj ((textPiece_dollar cs).symm.trans hpiece)
        obtain ⟨-, rfl⟩ := List.cons.inj hpiece
        rw [← hcs] at hothers
        rw [Segment.eq_of_refits hrefits (text_of_bare (Region.bare_of_read? hread) hothers),
          chars_of_scanFrom hothers]
        exact hread
      · exact Region.read?_eq_none _ hc
    rw [Segment.chars_consText, hpiece, List.cons_append]
    refine ⟨rfl, fun offset' => ?_⟩
    rw [scanFrom_of_none offset' hread', textPiece_of_head? hpiece hhead, hscan',
      Segment.placed_consText]
    rfl

/-! ## Documents -/

namespace Outcome

/-- The segment that stands in the place of the old one. -/
def result : Outcome → Segment
  | .text run => .text run
  | .math delimiter _ span (.ok fixed) => .math delimiter fixed span
  | .math delimiter content span (.error _) => .math delimiter content span

theorem write_result (o : Outcome) : o.result.write = o.write := by
  rcases o with run | ⟨delimiter, content, span, x | fixed⟩ <;> rfl

theorem chars_result (outcomes : List Outcome) :
    Segment.chars (outcomes.map result) = (String.join (outcomes.map write)).toList := by
  induction outcomes with
  | nil => rfl
  | cons o outcomes ih =>
    rw [List.map_cons, List.map_cons, String.join_cons, String.toList_append, ← ih, ← write_result]
    rfl

end Outcome

theorem Segment.exists_mem_placed (hmem : .math delimiter content span ∈ segments) (offset : Nat) :
    ∃ span', .math delimiter content span' ∈ placed offset segments := by
  induction segments generalizing offset with
  | nil => cases hmem
  | cons s segments ih =>
    rcases List.mem_cons.mp hmem with rfl | hrest
    · exact ⟨_, List.mem_cons_self⟩
    · cases s with
      | text | math =>
        obtain ⟨span', hplaced⟩ := ih hrest _
        exact ⟨span', List.mem_cons_of_mem _ hplaced⟩

/-- What comes of sealed formulas can stand in their place, unless nothing is left of one between
single dollars. -/
theorem Fixer.Yields.refits {steps : Nat} {c : Config} {ds ds' : Definitions}
    {outcomes : List Outcome} (h : (Fixer.ofConfig steps c).Yields ds outcomes ds')
    (hc : ∀ x ∈ c.fixes.renames.toList, ∀ e ∈ x.2.toList, isScannerSign e = false)
    (hsealed : ∀ delimiter content span,
      .math delimiter content span ∈ outcomes.map Outcome.segment → Sealed content.toList)
    (hds : Trait.ofSealed.OfDefinitions ds)
    (hne : ∀ span, .math .inline "" span ∉ outcomes.map Outcome.result) :
    List.Forall₂ Segment.Refits (outcomes.map Outcome.segment) (outcomes.map Outcome.result) := by
  induction h with
  | nil => exact .nil
  | text run _ ih =>
    refine .cons (.text run) (ih (fun _ _ _ hmem => ?_) hds fun _ hmem => ?_)
    · exact hsealed _ _ _ (List.mem_cons_of_mem _ hmem)
    · exact hne _ (List.mem_cons_of_mem _ hmem)
  | fixed delimiter span hfix _ ih =>
    have hcontent := hsealed _ _ _ List.mem_cons_self
    refine .cons (.math (sealed_of_fixExpression hc hcontent hds hfix) ?_)
      (ih (fun _ _ _ hmem => ?_) ?_ fun _ hmem => ?_)
    · rintro rfl rfl
      exact hne span List.mem_cons_self
    · exact hsealed _ _ _ (List.mem_cons_of_mem _ hmem)
    · exact Trait.ofDefinitions_fixExpression (admits_ofSealed hcontent) hds hfix
    · exact hne _ (List.mem_cons_of_mem _ hmem)
  | kept delimiter span _ _ ih =>
    refine .cons (.math (hsealed _ _ _ List.mem_cons_self) ?_)
      (ih (fun _ _ _ hmem => ?_) hds fun _ hmem => ?_)
    · rintro rfl rfl
      exact hne span List.mem_cons_self
    · exact hsealed _ _ _ (List.mem_cons_of_mem _ hmem)
    · exact hne _ (List.mem_cons_of_mem _ hmem)

/-- A document that was fixed is scanned as it was before, with the fixed formulas in the place of
the old ones and the places where they now stand, exactly if something is left of every formula
between single dollars. This is so with definitions from any documents, and with any settings that
give environments names of letters and stars. -/
theorem scan_of_fixText {steps : Nat} {c : Config} {document : String} {segments : List Segment}
    {ds ds' : Definitions} {fixed : Fixed} (hscan : scan document = .ok segments)
    (hnames : ∀ x ∈ c.fixes.renames.toList, ∀ e ∈ x.2.toList, e.isAlpha = true ∨ e = '*')
    (hds : ds.Gathered)
    (hrun : ((Fixer.ofConfig steps c).fixText document).run.run ds = some (.ok fixed, ds')) :
    ∃ outcomes : List Outcome, outcomes.map Outcome.segment = segments ∧
      (Fixer.ofConfig steps c).Yields ds outcomes ds' ∧
      (c.content.onError = .skip ∨ ∀ o ∈ outcomes, o.isFailure = false) ∧
      fixed.text = String.join (outcomes.map fun o => o.result.write) ∧
      (scan fixed.text = .ok (Segment.placed 0 (outcomes.map Outcome.result)) ↔
        ∀ span, .math .inline "" span ∉ outcomes.map Outcome.result) := by
  have hc : ∀ x ∈ c.fixes.renames.toList, ∀ e ∈ x.2.toList, isScannerSign e = false := by
    intro x hx e he
    rcases hnames x hx e he with hletter | rfl
    · exact isScannerSign_of_isLetter (Text.isLetter_of_isAlpha hletter)
    · rfl
  rw [Fixer.fixText, hscan] at hrun
  rcases Fixer.run_fixSegments_cases hrun with ⟨outcomes, rfl, hyields, hpolicy⟩ |
    ⟨_, _, _, _, _, _, _, -, -, -, -, -, herror⟩
  · have hput := hyields.run_fixSegments hpolicy
    obtain rfl : fixed = _ := Except.ok.inj (Prod.mk.inj (Option.some.inj (hrun.symm.trans hput))).1
    refine ⟨outcomes, rfl, hyields, hpolicy, ?_, fun hscan' span hmem => ?_, fun hne => ?_⟩
    · simp only [Outcome.write_result]
    · obtain ⟨span', hmem⟩ := Segment.exists_mem_placed hmem 0
      exact content_ne_of_scan hscan' hmem rfl
    · have hrefits := hyields.refits hc (fun _ _ _ hmem => sealed_of_scan hscan hmem) hds.ofSealed hne
      rw [scan, ← Outcome.chars_result]
      exact (scanFrom_of_refits hscan hrefits).2 0
  · cases herror

/-- Nothing is left of a definition between single dollars, and the document cannot be scanned any
more. -/
theorem scan_of_fixText_definition :
    let document := r"$\newcommand\m{x}$ y $\m$"
    ∃ segments fixed ds', ∃ outcomes : List Outcome, scan document = .ok segments ∧
      ((Fixer.ofConfig 40 .standard).fixText document).run.run .empty = some (.ok fixed, ds') ∧
      fixed.text = "$$ y $x$" ∧ (scan fixed.text).toOption = none ∧
      outcomes.map Outcome.segment = segments ∧
      (scan fixed.text = .ok (Segment.placed 0 (outcomes.map Outcome.result)) ↔
        ∀ span, .math .inline "" span ∉ outcomes.map Outcome.result) ∧
      ∃ span, .math .inline "" span ∈ outcomes.map Outcome.result := by
  intro document
  have hran : ((scan document).toOption.bind fun _ =>
      (((Fixer.ofConfig 40 .standard).fixText document).run.run .empty).bind fun out =>
        out.1.toOption.map fun fixed => (fixed.text, (scan fixed.text).toOption)) =
      some ("$$ y $x$", none) := by
    decide +kernel
  obtain ⟨segments, hscan, hran⟩ := Option.bind_eq_some_iff.mp hran
  obtain ⟨⟨r, ds'⟩, hrun, hran⟩ := Option.bind_eq_some_iff.mp hran
  obtain ⟨fixed, hfixed, hout⟩ := Option.map_eq_some_iff.mp hran
  obtain ⟨htext, hnone⟩ := Prod.mk.inj hout
  obtain rfl := Tree.eq_ok_of_toOption hfixed
  replace hscan := Tree.eq_ok_of_toOption hscan
  have hnames : ∀ x ∈ Config.standard.fixes.renames.toList, ∀ e ∈ x.2.toList,
      e.isAlpha = true ∨ e = '*' := by
    have hall : Config.standard.fixes.renames.toList.all
        (·.2.toList.all fun e => e.isAlpha || e == '*') = true := rfl
    simpa only [List.all_eq_true, Bool.or_eq_true, beq_iff_eq] using hall
  obtain ⟨outcomes, hsegments, -, -, -, hiff⟩ := scan_of_fixText hscan hnames .empty hrun
  refine ⟨segments, fixed, ds', outcomes, hscan, hrun, htext, hnone, hsegments, hiff, ?_⟩
  by_contra hall
  have hplaced := hiff.mpr fun span hmem => hall ⟨span, hmem⟩
  rw [hplaced] at hnone
  cases hnone

end Formulary
