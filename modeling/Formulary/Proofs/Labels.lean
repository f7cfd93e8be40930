import Formulary.Proofs.Scanning
import Formulary.Proofs.Skipping

/-!
# Where labels point

Every node of a formula stands for a stretch of the text that the formula was read from, also the
nodes that came from the body of a macro: a copy stands for the use that it replaces. So the labels
of a fault point into the formula, whatever the definitions are and wherever they come from, and in
the document they point between the delimiters of that formula.

`Trait.ofPlaces` is the trait that says so of a formula, and `labels_of_fixText` says it of a
document.
-/

namespace Formulary

open Text (byteSize)

variable {content document s : String} {ds ds' : Definitions} {segments : List Segment}
  {r : Except Diagnosis Fixed} {d : Diagnostic} {c : Config} {f : Fixer} {p span : Span}
  {steps : Nat}

/-! ## Formulas -/

namespace Trait

/-- Nodes that stand for stretches of a source. -/
def ofPlaces (source : List Char) : Trait where
  text _ := True
  command _ := True
  block _ := True
  place := Span.Within source
  text_piece _ _ := trivial
  text_afterDigit _ _ _ := trivial
  text_trimLeft _ := trivial
  text_trimRight _ := trivial
  text_lineBreak := trivial
  text_lineBreak_append _ := trivial
  text_append_lineBreak _ := trivial
  block_of_isName _ := trivial
  place_zero := .point (At.start source)
  place_union := Span.Within.union
  place_start := Span.Within.start
  place_stop := Span.Within.stop
  place_take := Span.Within.take

variable (source : List Char)

theorem follows_ofPlaces : (ofPlaces source).Follows source fun _ => True where
  place h := h
  text_append _ _ := trivial
  text_plain _ _ := trivial
  text_bracket _ := trivial
  text_escape _ := trivial
  command_mark _ := trivial
  command_word _ := trivial
  fine_cons _ _ := trivial
  fine_escape _ := trivial

/-- Definitions may come from anywhere. -/
theorem ofDefinitions_ofPlaces (ds : Definitions) : (ofPlaces source).OfDefinitions ds := by
  intro d _ id
  cases d.body.node id <;> exact trivial

end Trait

/-- The labels of a fault point into the formula. -/
theorem within_of_fixExpression {x : Fault}
    (hrun : ((Fixer.ofConfig steps c).fixExpression content).run.run ds = some (.error x, ds')) :
    ∀ label ∈ x.diagnostic.labels, label.span.Within content.toList := by
  have hsource := (Trait.follows_ofPlaces content.toList).admits trivial
  obtain ⟨hfault, -⟩ := Trait.inherits_fixExpression (fun _ _ => trivial) hsource
    (Trait.ofDefinitions_ofPlaces _ ds) hrun
  exact hfault x rfl

/-! ## Documents -/

/-- Where reading comes to, a character starts or the text ends. -/
theorem At.isValid {offset : Nat} {text : List Char} (h : At s.toList offset text) :
    String.Pos.Raw.IsValid s ⟨offset⟩ ∧ offset ≤ s.utf8ByteSize := by
  obtain ⟨before, hs, rfl⟩ := h
  have hs' : s = String.ofList before ++ String.ofList text := by
    rw [← String.ofList_append, ← hs, String.ofList_toList]
  rw [← Text.utf8ByteSize_ofList]
  constructor
  · exact String.Pos.Raw.isValid_iff_exists_append.mpr ⟨_, _, hs', rfl⟩
  · rw [hs', String.utf8ByteSize_append]
    exact Nat.le_add_right _ _

theorem Span.Within.isValid (h : p.Within s.toList) :
    p.start ≤ p.stop ∧ String.Pos.Raw.IsValid s ⟨p.start⟩ ∧ String.Pos.Raw.IsValid s ⟨p.stop⟩ ∧
      p.stop ≤ s.utf8ByteSize := by
  obtain ⟨hle, ⟨text, hstart⟩, ⟨text', hstop⟩⟩ := h
  exact ⟨hle, hstart.isValid.1, hstop.isValid.1, hstop.isValid.2⟩

/-- A stretch of a text seen from a text around it. -/
theorem Span.Within.shift {before content after : List Char} (h : p.Within content) :
    (p.shift (byteSize before)).Within (before ++ (content ++ after)) ∧
      byteSize before ≤ (p.shift (byteSize before)).start ∧
      (p.shift (byteSize before)).stop ≤ byteSize before + byteSize content := by
  obtain ⟨hle, ⟨text, hstart⟩, ⟨text', hstop⟩⟩ := h
  have hshift : ∀ {offset : Nat} {text : List Char}, At content offset text →
      At (before ++ (content ++ after)) (offset + byteSize before) (text ++ after) := by
    rintro offset text ⟨first, rfl, rfl⟩
    refine ⟨before ++ first, ?_, ?_⟩
    · simp only [List.append_assoc]
    · rw [Text.byteSize_append, Nat.add_comm]
  have hbound : p.stop ≤ byteSize content := by
    obtain ⟨first, rfl, hfirst⟩ := hstop
    rw [hfirst, Text.byteSize_append]
    exact Nat.le_add_right _ _
  rw [Span.shift]
  refine ⟨⟨?_, ⟨_, hshift hstart⟩, ⟨_, hshift hstop⟩⟩, ?_, ?_⟩
  all_goals dsimp only; omega

/-- What a document says at the place of one of its formulas. -/
theorem exists_append_of_scan (hscan : scan document = .ok segments) {delimiter : Delimiter}
    (hmem : .math delimiter content span ∈ segments) :
    ∃ before after : String,
      document = before ++ (content ++ after) ∧
      span = ⟨before.utf8ByteSize, before.utf8ByteSize + content.utf8ByteSize⟩ := by
  obtain ⟨offset, text, r, hat, hread, rfl, rfl, rfl⟩ :=
    exists_read?_of_mem (At.start document.toList) hscan hmem
  obtain ⟨hstart, -, -⟩ := hat.region hread
  obtain ⟨before, hdocument, hoffset⟩ := hstart
  refine ⟨String.ofList before, String.ofList (r.closing.text.toList ++ r.rest), ?_, ?_⟩
  · rw [← String.ofList_append, ← String.ofList_append, ← hdocument, String.ofList_toList]
  · rw [Text.utf8ByteSize_ofList, Text.utf8ByteSize_ofList, hoffset]

/-- What is told about a document: why it cannot be fixed, or what was skipped in it. -/
def told : Except Diagnosis Fixed → List Diagnostic
  | .error diagnosis => diagnosis.diagnostics
  | .ok fixed => fixed.skipped

/-- A diagnostic about a formula of a document. The formulas before it were passed, it cannot be
fixed with the definitions that are known then, and the diagnostic is that of the fault, with the
labels moved to where the formula stands; a warning, if the document goes on. -/
structure Fixer.Blames (f : Fixer) (segments : List Segment) (ds : Definitions)
    (r : Except Diagnosis Fixed) (d : Diagnostic) (content : String) (span : Span) : Prop where
  reached : ∃ before delimiter after fixed ds₁ x learned,
    segments = before ++ .math delimiter content span :: after ∧
    (f.fixSegments before).run.run ds = some (.ok fixed, ds₁) ∧
    (f.fixExpression content).run.run ds₁ = some (.error x, learned) ∧
    d = if r.isOk then (x.diagnostic.shift span.start).toWarning
      else x.diagnostic.shift span.start

/-- Whatever is told about a document that can be scanned is told about one of its formulas. -/
theorem exists_blames (hrun : (f.fixSegments segments).run.run ds = some (r, ds')) (hd : d ∈ told r) :
    ∃ content span, f.Blames segments ds r d content span := by
  rcases Fixer.run_fixSegments_cases hrun with ⟨outcomes, rfl, hyields, hpolicy⟩ |
    ⟨before, delimiter, content, span, after, ds₁, x, rfl, -, hbefore, hfixed, hfix, rfl⟩
  · obtain rfl : r = _ :=
      (Prod.mk.inj (Option.some.inj (hrun.symm.trans (hyields.run_fixSegments hpolicy)))).1
    obtain ⟨o, ho, hd⟩ := List.mem_flatMap.mp hd
    -- Only a formula that fails has warnings, so the policy lets it pass.
    obtain ⟨delimiter, content, span, x, rfl, rfl⟩ : ∃ delimiter content span x,
        o = .math delimiter content span (.error x) ∧
          d = (x.diagnostic.shift span.start).toWarning := by
      rcases o with run | ⟨delimiter, content, span, x | fixed⟩
      · cases hd
      · exact ⟨delimiter, content, span, x, rfl, List.mem_singleton.mp hd⟩
      · cases hd
    have hskip : f.config.content.onError = .skip := by
      refine hpolicy.resolve_right fun hall => ?_
      cases hall _ ho
    obtain ⟨before, after, rfl⟩ := List.append_of_mem ho
    obtain ⟨ds₁, hbefore, hafter⟩ := hyields.of_append
    obtain ⟨learned, hfix, -⟩ := hafter.math
    rw [List.map_append]
    exact ⟨content, span, _, delimiter, _, _, ds₁, x, learned, rfl,
      hbefore.run_fixSegments (Or.inl hskip), hfix, rfl⟩
  · have hd := List.mem_singleton.mp hd
    exact ⟨content, span, _, delimiter, after, _, ds₁, x, ds', rfl,
      hbefore.run_fixSegments (Or.inr hfixed), hfix, hd⟩

/-- What the document says at the place of the formula. -/
theorem Fixer.Blames.exists_append (h : f.Blames segments ds r d content span)
    (hscan : scan document = .ok segments) :
    ∃ left right : String, document = left ++ (content ++ right) ∧
      span = ⟨left.utf8ByteSize, left.utf8ByteSize + content.utf8ByteSize⟩ := by
  obtain ⟨_, _, _, _, _, _, _, rfl, -⟩ := h.reached
  exact exists_append_of_scan hscan (List.mem_append_cons_self ..)

/-- A diagnostic about a formula points between the delimiters of the formula. -/
theorem Fixer.Blames.within {left : String}
    (h : (Fixer.ofConfig steps c).Blames segments ds r d content
      ⟨left.utf8ByteSize, left.utf8ByteSize + content.utf8ByteSize⟩) (right : String) :
    ∀ label ∈ d.labels, label.span.Within (left ++ (content ++ right)).toList ∧
      left.utf8ByteSize ≤ label.span.start ∧
      label.span.stop ≤ left.utf8ByteSize + content.utf8ByteSize := by
  obtain ⟨_, _, _, _, _, x, _, -, -, hfix, hd⟩ := h.reached
  have hlabels : d.labels = x.diagnostic.labels.map (·.shift left.utf8ByteSize) := by
    rw [hd]
    split <;> rfl
  rw [hlabels, List.forall_mem_map]
  intro label hlabel
  rw [← Text.byteSize_toList, ← Text.byteSize_toList, String.toList_append, String.toList_append]
  exact (within_of_fixExpression hfix label hlabel).shift

/-- The labels of what is told about a document point into it: each stretch starts where it stops or
before that, and both are boundaries of characters. If the document can be scanned, then it is told
about a formula, and its labels point to what stands between the delimiters of that formula, whatever
the definitions are with which the document was started. -/
theorem labels_of_fixText {steps : Nat} {c : Config} {document : String} {ds ds' : Definitions}
    {r : Except Diagnosis Fixed}
    (hrun : ((Fixer.ofConfig steps c).fixText document).run.run ds = some (r, ds')) :
    (∀ d ∈ told r, ∀ label ∈ d.labels, label.span.start ≤ label.span.stop ∧
      String.Pos.Raw.IsValid document ⟨label.span.start⟩ ∧
      String.Pos.Raw.IsValid document ⟨label.span.stop⟩ ∧
      label.span.stop ≤ document.utf8ByteSize) ∧
    ∀ segments, scan document = .ok segments → ∀ d ∈ told r, ∃ content span,
      (Fixer.ofConfig steps c).Blames segments ds r d content span ∧
      (∃ left right : String, document = left ++ (content ++ right) ∧
        span = ⟨left.utf8ByteSize, left.utf8ByteSize + content.utf8ByteSize⟩) ∧
      ∀ label ∈ d.labels, span.start ≤ label.span.start ∧ label.span.stop ≤ span.stop := by
  cases hscan : scan document with
  | error m =>
    rw [Fixer.fixText, hscan] at hrun
    cases hrun
    obtain ⟨hopening, hclosing⟩ := within_of_scanFrom (At.start document.toList) hscan
    refine ⟨fun d hd => ?_, fun segments hsegments => ?_⟩
    · obtain rfl := List.mem_singleton.mp hd
      rw [DelimiterMismatch.diagnostic, Diagnostic.withHelp, Diagnostic.error]
      dsimp only
      rw [List.forall_mem_cons, List.forall_mem_singleton]
      exact ⟨hclosing.isValid, hopening.isValid⟩
    · cases hsegments
  | ok segments =>
    rw [Fixer.fixText, hscan] at hrun
    refine ⟨fun d hd label hlabel => ?_, fun segments' hsegments d hd => ?_⟩
    · obtain ⟨content, span, hblames⟩ := exists_blames hrun hd
      obtain ⟨left, right, rfl, rfl⟩ := hblames.exists_append hscan
      exact (hblames.within right label hlabel).1.isValid
    · cases hsegments
      obtain ⟨content, span, hblames⟩ := exists_blames hrun hd
      obtain ⟨left, right, rfl, rfl⟩ := hblames.exists_append hscan
      exact ⟨content, _, hblames, ⟨left, right, rfl, rfl⟩,
        fun label hlabel => (hblames.within right label hlabel).2⟩

/-- A macro from another document has a placeholder too many. The fault is reported where the macro is
used, in a document with characters of two bytes. -/
theorem labels_of_fixText_foreign :
    let first := r"$\newcommand\m[1]{é#2}$"
    let second := r"ü $x + \m{y}$"
    let fixer := Fixer.ofConfig 40 .standard
    ∃ ds r ds', (((fixer.fixText first).run.run .empty).map Prod.snd = some ds) ∧
      (fixer.fixText second).run.run ds = some (r, ds') ∧
      ((told r).map fun d => (d.code, d.labels.map Label.span)) =
        [(some .placeholderOutOfRange, [⟨8, 13⟩])] ∧
      (∀ d ∈ told r, ∀ label ∈ d.labels, label.span.start ≤ label.span.stop ∧
        String.Pos.Raw.IsValid second ⟨label.span.start⟩ ∧
        String.Pos.Raw.IsValid second ⟨label.span.stop⟩ ∧
        label.span.stop ≤ second.utf8ByteSize) ∧
      ∀ segments, scan second = .ok segments → ∀ d ∈ told r, ∃ content span,
        fixer.Blames segments ds r d content span ∧
        ∀ label ∈ d.labels, span.start ≤ label.span.start ∧ label.span.stop ≤ span.stop := by
  intro first second fixer
  have hran : (((fixer.fixText first).run.run .empty).bind fun out₀ =>
      ((fixer.fixText second).run.run out₀.2).map fun out =>
        (told out.1).map fun d => (d.code, d.labels.map Label.span)) =
      some [(some .placeholderOutOfRange, [⟨8, 13⟩])] := by
    decide +kernel
  obtain ⟨⟨r₀, ds⟩, hrun₀, hran⟩ := Option.bind_eq_some_iff.mp hran
  obtain ⟨⟨r, ds'⟩, hrun, hout⟩ := Option.map_eq_some_iff.mp hran
  obtain ⟨hvalid, hblames⟩ := labels_of_fixText hrun
  refine ⟨ds, r, ds', by rw [hrun₀]; rfl, hrun, hout, hvalid, fun segments hscan d hd => ?_⟩
  obtain ⟨content, span, hcontent, -, hlabels⟩ := hblames segments hscan d hd
  exact ⟨content, span, hcontent, hlabels⟩

end Formulary
