import Formulary.Proofs.Legibility
import Formulary.Proofs.Pipeline
import Formulary.Proofs.Renaming
import Mathlib.Data.List.DropRight

/-!
# Margins that are set twice

A formula that was read is a text alone, or it has a core that neither starts nor ends with text,
with some text or none on either side (`Shape.AsRead.exists_edges`). Setting margins changes
these texts and leaves the core as it is. What it makes of them can be read again
(`Shape.AsRead.edges`), and it makes the same of them the second time: line breaks that were added
are blanks, and go before they are added again.

`Shape.AsRead.exists_margins` puts this together.
-/

namespace Formulary

open BlockMarker (isName)

/-! ## Trimming -/

namespace Text

variable {text : String}

theorem trimRight_eq (text : String) :
    trimRight text = String.ofList (text.toList.rdropWhile isBlank) := rfl

theorem trimLeft_of_startsBlank (h : startsBlank text = false) : trimLeft text = text := by
  rw [startsBlank] at h
  rw [trimLeft, ← String.toList_inj, String.toList_ofList]
  cases hcs : text.toList with
  | nil => rfl
  | cons c cs =>
    rw [hcs] at h
    exact List.dropWhile_cons_of_neg (Bool.not_eq_true _ ▸ h)

theorem trimRight_of_endsBlank (h : endsBlank text = false) : trimRight text = text := by
  rw [endsBlank] at h
  rw [trimRight_eq, ← String.toList_inj, String.toList_ofList]
  rcases List.eq_nil_or_concat text.toList with hcs | ⟨cs, c, hcs⟩
  · rw [hcs]
    rfl
  · rw [hcs, List.concat_eq_append] at h ⊢
    rw [List.getLast?_concat] at h
    exact List.rdropWhile_concat_neg _ _ _ (Bool.not_eq_true _ ▸ h)

@[simp] theorem trimLeft_trimLeft (text : String) : trimLeft (trimLeft text) = trimLeft text := by
  rw [trimLeft, trimLeft, String.toList_ofList, List.dropWhile_idempotent]

@[simp] theorem trimRight_trimRight (text : String) :
    trimRight (trimRight text) = trimRight text := by
  rw [trimRight_eq, trimRight_eq, String.toList_ofList, List.rdropWhile_idempotent]

@[simp] theorem trimLeft_lineBreak (text : String) : trimLeft ("\n" ++ text) = trimLeft text := by
  rw [trimLeft, trimLeft, String.toList_append]
  rfl

@[simp] theorem trimRight_lineBreak (text : String) :
    trimRight (text ++ "\n") = trimRight text := by
  rw [trimRight_eq, trimRight_eq, String.toList_append]
  exact congrArg String.ofList (List.rdropWhile_concat_pos _ _ _ rfl)

theorem head?_trimRight {c : Char} (h : c ∈ (trimRight text).toList.head?) :
    c ∈ text.toList.head? := by
  rw [trimRight_eq, String.toList_ofList] at h
  obtain ⟨cs, hcs⟩ := List.rdropWhile_prefix isBlank text.toList
  rw [← hcs, List.head?_append]
  rw [Option.mem_def.mp h]
  rfl

/-- Trimming twice is trimming once. -/
theorem trim_trim (text : String) : trim (trim text) = trim text := by
  have hstarts : startsBlank (trim text) = false := by
    rw [startsBlank, Option.any_eq_false]
    intro c hc
    have hhead := head?_trimRight hc
    rw [trimLeft, String.toList_ofList] at hhead
    have := List.head?_dropWhile_not isBlank text.toList
    rw [Option.mem_def.mp hhead] at this
    simpa using this
  rw [trim, trimLeft_of_startsBlank hstarts, trim, trimRight_trimRight]

end Text

namespace Shape

variable {fs : List Shape}

/-! ## Texts and cores -/

/-- A text as elements of a chain: a literal, or nothing. -/
def ofText (text : String) : List Shape := if text = "" then [] else [.literal text]

/-- Some elements of which the first and the last are neither text nor empty. -/
structure Core (fs : List Shape) : Prop where
  head : ∃ f rest, fs = f :: rest ∧ f.isSolid = true
  last : ∃ rest f, fs = rest ++ [f] ∧ f.isSolid = true

section

variable {a b : String}

@[simp] theorem ofText_empty : ofText "" = [] := rfl

theorem ofText_of_ne (h : a ≠ "") : ofText a = [.literal a] := if_neg h

@[simp] theorem charsOf_ofText (a : String) : charsOf (ofText a) = a.toList := by
  by_cases ha : a = ""
  · simp [ha]
  · simp [ofText_of_ne ha, chars]

@[simp] theorem commandsOf_ofText (a : String) : commandsOf (ofText a) = [] := by
  by_cases ha : a = ""
  · simp [ha]
  · simp [ofText_of_ne ha, commands]

@[simp] theorem renamedRow_ofText (new : String → String) (a : String) :
    renamedRow new (ofText a) = ofText a := by
  by_cases ha : a = ""
  · simp [ha]
  · simp [ofText_of_ne ha, renamed]

theorem regularRow_ofText {kind : String → Prop} (a : String) : RegularRow kind (ofText a) := by
  by_cases ha : a = ""
  · simp [ha]
  · simp [ofText_of_ne ha, Regular]

theorem eq_of_mem_head?_ofText {f : Shape} (h : f ∈ (ofText a).head?) :
    a ≠ "" ∧ f = .literal a := by
  by_cases ha : a = ""
  · simp [ha] at h
  · rw [ofText_of_ne ha] at h
    exact ⟨ha, (Option.some.inj h).symm⟩

theorem spreadRow_ofText_append (a : String) (fs : List Shape) :
    spreadRow (ofText a ++ fs) = ofText a ++ spreadRow fs := by
  by_cases ha : a = ""
  · rw [ha, ofText_empty, List.nil_append, List.nil_append]
  · rw [ofText_of_ne ha, List.singleton_append, spreadRow_cons, spreadOnto, List.singleton_append]

theorem spreadRow_append_ofText (fs : List Shape) (b : String) :
    spreadRow (fs ++ ofText b) = spreadRow fs ++ ofText b := by
  have hhead : ∀ g ∈ (ofText b).head?, g.isGroup = false := by
    intro g hg
    rw [(eq_of_mem_head?_ofText hg).2]
    rfl
  have htext := spreadRow_ofText_append b []
  rw [List.append_nil, spreadRow_nil, List.append_nil] at htext
  rw [spreadRow_append hhead, htext]

end

theorem isSolid_eq_false {f : Shape} (h : f.isSolid = false) :
    f = .empty ∨ ∃ text, f = .literal text := by
  cases f with
  | literal text => exact Or.inr ⟨text, rfl⟩
  | empty => exact Or.inl rfl
  | group | script | command | block => cases h

/-- Texts stay where they are when blocks are spread out. -/
theorem spreadRow_split {f : Shape} (h : f.isSolid = false) (fs gs : List Shape) :
    spreadRow (fs ++ f :: gs) = spreadRow fs ++ f :: spreadRow gs := by
  have hgroup : ∀ g ∈ (f :: gs).head?, g.isGroup = false := by
    intro g hg
    obtain rfl := Option.some.inj hg
    rcases isSolid_eq_false h with rfl | ⟨text, rfl⟩ <;> rfl
  rw [spreadRow_append hgroup, spreadRow_cons]
  rcases isSolid_eq_false h with rfl | ⟨text, rfl⟩ <;> rw [spreadOnto]

/-- The text at the start of a chain stands apart from the elements after it. -/
theorem exists_ofText_append (htext : .literal "" ∉ fs) (hchain : fs.IsChain Unlike) :
    ∃ a rest, fs = ofText a ++ rest ∧ ∀ f ∈ rest.head?, f.isLiteral = false := by
  cases fs with
  | nil => exact ⟨"", [], rfl, by simp⟩
  | cons f fs =>
    cases f with
    | literal a =>
      have ha : a ≠ "" := by
        rintro rfl
        exact htext List.mem_cons_self
      refine ⟨a, fs, by rw [ofText_of_ne ha]; rfl, fun g hg => ?_⟩
      simpa using fun hliteral => (List.isChain_cons.mp hchain).1 g hg ⟨rfl, hliteral⟩
    | empty | group | script | command | block =>
      refine ⟨"", _, rfl, fun g hg => ?_⟩
      obtain rfl := Option.some.inj hg
      rfl

/-- The text at the end of a chain stands apart from the elements before it. -/
theorem exists_append_ofText (htext : .literal "" ∉ fs) (hchain : fs.IsChain Unlike) :
    ∃ core b, fs = core ++ ofText b ∧ ∀ f ∈ core.getLast?, f.isLiteral = false := by
  rcases List.eq_nil_or_concat fs with rfl | ⟨core, f, rfl⟩
  · exact ⟨[], "", rfl, by simp⟩
  · rw [List.concat_eq_append] at *
    cases f with
    | literal b =>
      have hb : b ≠ "" := by
        rintro rfl
        exact htext (by simp)
      refine ⟨core, b, by rw [ofText_of_ne hb], fun g hg => ?_⟩
      simpa using fun hliteral =>
        (List.isChain_append.mp hchain).2.2 g hg (.literal b) rfl ⟨hliteral, rfl⟩
    | empty | group | script | command | block =>
      refine ⟨core ++ [_], "", by rw [ofText_empty, List.append_nil], fun g hg => ?_⟩
      rw [List.getLast?_concat] at hg
      obtain rfl := Option.some.inj hg
      rfl

/-- Elements that have text or nothing at their ends, and a core between. -/
theorem exists_core (hempty : ∀ f ∈ fs, f.isEmpty = false) (htext : .literal "" ∉ fs)
    (hchain : fs.IsChain Unlike) :
    (∃ a, fs = ofText a) ∨ ∃ a core b, Core core ∧ fs = ofText a ++ (core ++ ofText b) := by
  obtain ⟨a, rest, rfl, hrest⟩ := exists_ofText_append htext hchain
  obtain ⟨core, b, rfl, hlast⟩ := exists_append_ofText
    (fun hmem => htext (List.mem_append_right _ hmem)) (List.isChain_append.mp hchain).2.1
  have hsolid : ∀ f ∈ core, f.isLiteral = false → f.isSolid = true := by
    intro f hf hliteral
    rw [isSolid, hliteral, hempty f (by simp [hf])]
    rfl
  cases hcore : core with
  | nil =>
    -- Nothing stands between the two texts, so that the second one would be next to the first.
    subst hcore
    refine Or.inl ⟨a, ?_⟩
    by_cases hb : b = ""
    · rw [hb, ofText_empty, List.append_nil, List.append_nil]
    · rw [List.nil_append, ofText_of_ne hb] at hrest
      cases hrest _ rfl
  | cons f rest =>
    refine Or.inr ⟨a, core, b, ⟨⟨f, rest, hcore, ?_⟩, ?_⟩, by rw [hcore]⟩
    · exact hsolid f (hcore ▸ List.mem_cons_self) (hrest f (by rw [hcore]; rfl))
    · rcases List.eq_nil_or_concat core with hnil | ⟨before, g, hconcat⟩
      · rw [hnil] at hcore
        cases hcore
      · rw [List.concat_eq_append] at hconcat
        refine ⟨before, g, hconcat, hsolid g (by simp [hconcat]) (hlast g ?_)⟩
        rw [hconcat, List.getLast?_concat]
        rfl

/-- A formula that was read is a text, or it has a core. -/
theorem AsRead.exists_edges (h : AsRead fs) :
    (∃ a, fs = chain (ofText a)) ∨
      ∃ a core b, Core core ∧ fs = ofText a ++ (core ++ ofText b) := by
  rcases h.canonical with hempty | ⟨hne, hall, hchain⟩
  · exact Or.inl ⟨"", eq_empty_of_spreadRow hempty⟩
  · -- What the spread formula cannot hold, the formula does not hold.
    have hcanonical : ∀ f ∈ fs, f.isSolid = false → Canonical (.chain none) f := by
      intro f hf hsolid
      obtain ⟨pre, post, rfl⟩ := List.append_of_mem hf
      rw [spreadRow_split hsolid] at hall
      exact allCanonical_iff.mp hall f (by simp)
    have hempty : ∀ f ∈ fs, f.isEmpty = false := by
      intro f hf
      cases f with
      | empty => simpa [Canonical] using hcanonical _ hf rfl
      | literal | group | script | command | block => rfl
    have htext : Shape.literal "" ∉ fs :=
      fun hmem => (canonical_literal.mp (hcanonical _ hmem rfl)).1 rfl
    have hunlike : fs.IsChain Unlike := by
      rw [List.isChain_iff_forall_rel_of_append_cons_cons]
      rintro f g pre post rfl ⟨hf, hg⟩
      obtain ⟨text, rfl⟩ := exists_of_isLiteral hf
      obtain ⟨text', rfl⟩ := exists_of_isLiteral hg
      rw [spreadRow_split rfl, spreadRow_cons, spreadOnto, List.isChain_append_cons_cons] at hchain
      exact hchain.2.1.1 ⟨rfl, rfl⟩
    have hfs : fs ≠ [] := by
      rintro rfl
      exact hne spreadRow_nil
    refine (exists_core hempty htext hunlike).imp_left ?_
    rintro ⟨a, rfl⟩
    exact ⟨a, (chain_of_ne_nil hfs).symm⟩

/-! ## Blanks at the ends -/

/-- What stands at the end of a chain when the blanks there went: a text, or an empty element in the
place of a text that went altogether. -/
def IsEnd (b : String) (fs : List Shape) : Prop := fs = ofText b ∨ b = "" ∧ fs = [.empty]

/-- Blanks go from a text before elements that have none at their start. -/
theorem startTrimmed_ofText (h : startTrimmed fs = chain fs) (a : String) :
    startTrimmed (chain (ofText a ++ fs)) = chain (ofText (Text.trimLeft a) ++ fs) := by
  by_cases ha : a = ""
  · subst ha
    cases fs with
    | nil => rfl
    | cons => exact h
  · rw [ofText_of_ne ha, List.singleton_append, chain_cons, startTrimmed]
    split
    · split
      · rename_i hsome
        rw [ofText_of_ne fun hnil => by simp [hnil] at hsome, List.singleton_append, chain_cons]
      · rename_i hnone
        rw [show Text.trimLeft a = "" by simpa using hnone, h]
        rfl
    · rename_i hblank
      rw [Text.trimLeft_of_startsBlank (by simpa using hblank), ofText_of_ne ha,
        List.singleton_append, chain_cons]

/-- Blanks go from a text after elements that have none at their end. -/
theorem endTrimmed_ofText (h : ∀ after, endTrimmed fs.reverse after = fs ++ after) (b : String) :
    ∃ after, IsEnd (Text.trimRight b) after ∧
      endTrimmed (fs ++ ofText b).reverse [] = fs ++ after := by
  by_cases hb : b = ""
  · refine ⟨[], Or.inl (by rw [hb]; rfl), ?_⟩
    rw [hb, ofText_empty, List.append_nil, h, List.append_nil]
  · rw [ofText_of_ne hb, List.reverse_append, List.reverse_singleton, List.singleton_append,
      endTrimmed, List.reverse_reverse]
    split
    · split
      · rename_i hsome
        exact ⟨_, Or.inl (ofText_of_ne fun hnil => by simp [hnil] at hsome).symm, rfl⟩
      · rename_i hnone
        exact ⟨[.empty], Or.inr ⟨by simpa using hnone, rfl⟩, h _⟩
    · rename_i hblank
      refine ⟨[.literal b], Or.inl ?_, rfl⟩
      rw [Text.trimRight_of_endsBlank (by simpa using hblank), ofText_of_ne hb]

@[simp] theorem anyHoldsBlock_append (fs gs : List Shape) :
    anyHoldsBlock (fs ++ gs) = (anyHoldsBlock fs || anyHoldsBlock gs) := by
  induction fs with
  | nil => rw [anyHoldsBlock, List.nil_append, Bool.false_or]
  | cons f fs ih => rw [List.cons_append, anyHoldsBlock, ih, anyHoldsBlock, Bool.or_assoc]

theorem anyHoldsBlock_ofText (a : String) : anyHoldsBlock (ofText a) = false := by
  by_cases ha : a = ""
  · rw [ha, ofText_empty, anyHoldsBlock]
  · simp [ofText_of_ne ha, anyHoldsBlock, holdsBlock]

theorem IsEnd.anyHoldsBlock {b : String} (h : IsEnd b fs) : anyHoldsBlock fs = false := by
  rcases h with rfl | ⟨-, rfl⟩
  · exact anyHoldsBlock_ofText b
  · simp [Shape.anyHoldsBlock, holdsBlock]

theorem IsEnd.charsOf {b : String} (h : IsEnd b fs) : charsOf fs = b.toList := by
  rcases h with rfl | ⟨rfl, rfl⟩
  · exact charsOf_ofText b
  · simp [chars]

/-- A formula that is a text loses the blanks at both ends of the text. -/
theorem charsOf_withMargins_ofText (padBlocks : Bool) (a : String) :
    charsOf (withMargins padBlocks (chain (ofText a))) = (Text.trim a).toList := by
  have hleft : startTrimmed [] = chain [] := rfl
  have hright : ∀ after, endTrimmed ([] : List Shape).reverse after = [] ++ after := fun _ => rfl
  have hstart := startTrimmed_ofText hleft a
  rw [List.append_nil, List.append_nil] at hstart
  obtain ⟨after, hafter, hend⟩ : ∃ after, IsEnd (Text.trim a) after ∧
      endTrimmed (chain (ofText (Text.trimLeft a))).reverse [] = after := by
    by_cases ha : Text.trimLeft a = ""
    · exact ⟨[.empty], Or.inr ⟨by rw [Text.trim, ha]; rfl, rfl⟩, by rw [ha]; rfl⟩
    · rw [ofText_of_ne ha, chain_cons, ← ofText_of_ne ha]
      exact endTrimmed_ofText hright _
  rw [withMargins, hstart, hend, hafter.anyHoldsBlock, Bool.and_false, if_neg Bool.false_ne_true,
    hafter.charsOf]

/-! ## Margins around a core -/

section

variable {b a : String} {core : List Shape}

/-- Trimming stops at the core from the start. -/
theorem Core.startTrimmed (h : Core core) (fs : List Shape) :
    startTrimmed (core ++ fs) = chain (core ++ fs) := by
  obtain ⟨f, rest, rfl, hf⟩ := h.head
  cases f with
  | literal | empty => cases hf
  | group | script | command | block =>
    rw [List.cons_append, Shape.startTrimmed, chain_cons] <;> simp

/-- Trimming stops at the core from the end. -/
theorem Core.endTrimmed (h : Core core) (fs after : List Shape) :
    endTrimmed (fs ++ core).reverse after = fs ++ core ++ after := by
  obtain ⟨rest, f, rfl, hf⟩ := h.last
  rw [← List.append_assoc, List.reverse_append, List.reverse_singleton, List.singleton_append]
  cases f with
  | literal | empty => cases hf
  | group | script | command | block => rw [Shape.endTrimmed, List.reverse_reverse] <;> simp

theorem startPadded_core (h : Core core) (a : String) (fs : List Shape) :
    startPadded (ofText a ++ (core ++ fs)) = ofText ("\n" ++ a) ++ (core ++ fs) := by
  obtain ⟨f, rest, rfl, hf⟩ := h.head
  rw [ofText_of_ne (a := "\n" ++ a) (by simp)]
  by_cases ha : a = ""
  · rw [ha, ofText_empty, List.nil_append, List.cons_append, startPadded]
    cases f with
    | literal | empty => cases hf
    | group | script | command | block => rfl
  · rw [ofText_of_ne ha]
    rfl

theorem endPadded_core (h : Core core) (fs : List Shape) {after : List Shape}
    (hafter : IsEnd b after) :
    endPadded (fs ++ (core ++ after)) = fs ++ (core ++ ofText (b ++ "\n")) := by
  obtain ⟨rest, f, rfl, hf⟩ := h.last
  rw [ofText_of_ne (a := b ++ "\n") (by simp)]
  rcases hafter with rfl | ⟨rfl, rfl⟩
  · by_cases hb : b = ""
    · rw [hb, ofText_empty, List.append_nil, ← List.append_assoc, endPadded_concat]
      cases f with
      | literal | empty => cases hf
      | group | script | command | block => simp [lineBroken]
    · rw [ofText_of_ne hb, ← List.append_assoc, endPadded_concat, List.append_assoc]
      rfl
  · rw [← List.append_assoc, endPadded_concat, List.append_assoc]
    rfl

/-- The text at the start of a formula with margins. -/
def startMargin (padded : Bool) (a : String) : String :=
  if padded then "\n" ++ Text.trimLeft a else Text.trimLeft a

/-- The text at the end of a formula with margins. -/
def endMargin (padded : Bool) (b : String) : String :=
  if padded then Text.trimRight b ++ "\n" else Text.trimRight b

theorem startMargin_startMargin (padded : Bool) (a : String) :
    startMargin padded (startMargin padded a) = startMargin padded a := by
  cases padded <;> simp [startMargin]

theorem endMargin_endMargin (padded : Bool) (b : String) :
    endMargin padded (endMargin padded b) = endMargin padded b := by
  cases padded <;> simp [endMargin]

/-- Setting margins changes the texts around a core and nothing else. -/
theorem charsOf_withMargins (h : Core core) (padBlocks : Bool) (a b : String) :
    charsOf (withMargins padBlocks (ofText a ++ (core ++ ofText b))) =
      charsOf (ofText (startMargin (padBlocks && anyHoldsBlock core) a) ++
        (core ++ ofText (endMargin (padBlocks && anyHoldsBlock core) b))) := by
  have hstart := startTrimmed_ofText (h.startTrimmed (ofText b)) a
  obtain ⟨f, rest, hhead, -⟩ := h.head
  have hne : ∀ text, ofText text ++ (core ++ ofText b) ≠ [] := by
    intro text
    rw [hhead]
    simp
  rw [chain_of_ne_nil (hne a), chain_of_ne_nil (hne _)] at hstart
  obtain ⟨after, hafter, hend⟩ := endTrimmed_ofText (h.endTrimmed (ofText (Text.trimLeft a))) b
  rw [List.append_assoc, List.append_assoc] at hend
  have hblock :
      anyHoldsBlock (ofText (Text.trimLeft a) ++ (core ++ after)) = anyHoldsBlock core := by
    simp [anyHoldsBlock_ofText, hafter.anyHoldsBlock]
  rw [withMargins, hstart, hend, hblock, startMargin, endMargin]
  split
  · rw [startPadded_core h, endPadded_core h _ hafter]
  · simp [hafter.charsOf]

/-! ## Reading what has margins -/

/-- A text that may stand at the end of a chain in the place of another one. -/
def Replaces (b' b : String) : Prop := ∀ c ∈ b'.toList.head?, c ∈ b.toList.head? ∨ c = '\n'

theorem replaces_endMargin (padded : Bool) (b : String) : Replaces (endMargin padded b) b := by
  intro c hc
  rw [endMargin] at hc
  split at hc
  · rw [String.toList_append, List.head?_append] at hc
    cases hhead : (Text.trimRight b).toList.head? with
    | none =>
      rw [hhead] at hc
      exact Or.inr (Option.some.inj hc).symm
    | some d =>
      rw [hhead] at hc
      obtain rfl := Option.some.inj hc
      exact Or.inl (Text.head?_trimRight hhead)
  · exact Or.inl (Text.head?_trimRight hc)

theorem written_startMargin (h : Written none a.toList) (padded : Bool) :
    Written none (startMargin padded a).toList := by
  rw [startMargin]
  split
  · rw [String.toList_append]
    exact Written.plain rfl h.trimLeft
  · exact h.trimLeft

theorem written_endMargin (h : Written none b.toList) (padded : Bool) :
    Written none (endMargin padded b).toList := by
  rw [endMargin]
  split
  · rw [String.toList_append]
    exact h.trimRight.append (Written.plain rfl .nil)
  · exact h.trimRight

theorem allCanonical_ofText {closer : Option Symbol} :
    AllCanonical (.chain closer) (ofText a) ↔ Written closer a.toList := by
  by_cases ha : a = ""
  · rw [ha]
    exact iff_of_true (allCanonical_nil _) .nil
  · rw [ofText_of_ne ha, allCanonical_cons, canonical_literal]
    simp [ha]

theorem allCanonical_append {place : Place} {gs : List Shape} :
    AllCanonical place (fs ++ gs) ↔ AllCanonical place fs ∧ AllCanonical place gs := by
  simp only [allCanonical_iff, List.forall_mem_append]

theorem spreadRow_edges (a b : String) (core : List Shape) :
    spreadRow (ofText a ++ (core ++ ofText b)) = ofText a ++ (spreadRow core ++ ofText b) := by
  rw [spreadRow_ofText_append, spreadRow_append_ofText]

/-- Whatever a core ends with is still no text when its blocks are spread out. -/
theorem exists_of_getLast?_spreadRow {text : String}
    (h : (spreadRow fs).getLast? = some (.literal text)) : fs.getLast? = some (.literal text) := by
  induction fs with
  | nil =>
    rw [spreadRow_nil] at h
    cases h
  | cons f fs ih =>
    rw [spreadRow_cons] at h
    have hrest : (spreadRow fs).getLast? = some (.literal text) →
        (f :: fs).getLast? = some (.literal text) := by
      intro hlast
      rw [List.getLast?_cons, ih hlast]
      rfl
    by_cases hf : f.isBlock = true
    · cases f with
      | block name parameters body =>
        -- The end of a block is a command, and the groups after it became its parameters.
        rw [spreadOnto, ← List.cons_append, List.getLast?_append_cons, List.getLast?_cons] at h
        obtain ⟨groups, hgroups⟩ := List.dropWhile_suffix (l := spreadRow fs) isGroup
        cases hlast : ((spreadRow fs).dropWhile isGroup).getLast? with
        | none =>
          rw [hlast] at h
          cases h
        | some g =>
          rw [hlast] at h
          refine hrest ?_
          rw [← hgroups, List.getLast?_append, hlast]
          exact h
      | literal | empty | group | script | command => cases hf
    · rw [Bool.not_eq_true] at hf
      rw [spreadOnto_eq hf, List.getLast?_cons] at h
      cases hlast : (spreadRow fs).getLast? with
      | none =>
        obtain rfl := eq_nil_of_spreadRow (List.getLast?_eq_none_iff.mp hlast)
        rw [hlast] at h
        have hsingle : spreadRow [f] = .literal text :: [] := by
          rw [spreadRow_cons, spreadRow_nil, spreadOnto_eq hf, ← Option.some.inj h]
          rfl
        obtain ⟨_, heq⟩ := exists_of_spreadRow hsingle
        rw [(List.cons.inj heq).1]
        rfl
      | some g =>
        rw [hlast] at h
        exact hrest (hlast.trans h)

theorem Core.spreadRow_head (h : Core core) :
    ∀ f ∈ (spreadRow core).head?, f.isLiteral = false := by
  intro f hf
  obtain ⟨g, rest, rfl, hg⟩ := h.head
  cases f with
  | literal text =>
    obtain ⟨gs, hgs⟩ := List.head?_eq_some_iff.mp hf
    obtain ⟨_, heq⟩ := exists_of_spreadRow hgs
    rw [(List.cons.inj heq).1] at hg
    cases hg
  | empty | group | script | command | block => rfl

theorem Core.spreadRow_last (h : Core core) :
    ∀ f ∈ (spreadRow core).getLast?, f.isLiteral = false := by
  intro f hf
  obtain ⟨rest, g, rfl, hg⟩ := h.last
  cases f with
  | literal text =>
    have hlast := exists_of_getLast?_spreadRow hf
    rw [List.getLast?_concat] at hlast
    rw [Option.some.inj hlast] at hg
    cases hg
  | empty | group | script | command | block => rfl

theorem Core.spreadRow_ne_nil (h : Core core) : spreadRow core ≠ [] := by
  obtain ⟨f, rest, rfl, -⟩ := h.head
  exact fun hnil => List.cons_ne_nil f rest (eq_nil_of_spreadRow hnil)

/-- What is known of the parts of a formula with a core. -/
theorem AsRead.parts (h : AsRead (ofText a ++ (core ++ ofText b))) (hcore : Core core) :
    Written none a.toList ∧ AllCanonical (.chain none) (spreadRow core) ∧
      Written none b.toList ∧ (ofText a ++ (spreadRow core ++ ofText b)).IsChain MayFollow := by
  rcases h.canonical with hempty | ⟨-, hall, hchain⟩
  · have hempty := eq_empty_of_spreadRow hempty
    obtain ⟨f, rest, rfl, hf⟩ := hcore.head
    by_cases ha : a = ""
    · rw [ha] at hempty
      rw [(List.cons.inj hempty).1] at hf
      cases hf
    · rw [ofText_of_ne ha] at hempty
      cases (List.cons.inj hempty).1
  · rw [spreadRow_edges] at hall hchain
    rw [allCanonical_append, allCanonical_append, allCanonical_ofText, allCanonical_ofText] at hall
    exact ⟨hall.1, hall.2.1, hall.2.2, hchain⟩

theorem isChain_ofText (a : String) : (ofText a).IsChain MayFollow := by
  by_cases ha : a = ""
  · rw [ha]
    exact .nil
  · rw [ofText_of_ne ha]
    exact .singleton _

/-- After a text there may be anything but a text. -/
theorem mayFollow_of_ofText {f g : Shape} (hf : f ∈ (ofText a).getLast?)
    (hg : g.isLiteral = false) : MayFollow f g := by
  have htrailing : f.trailing = none := by
    by_cases ha : a = ""
    · rw [ha] at hf
      cases hf
    · rw [ofText_of_ne ha] at hf
      rw [← Option.some.inj hf]
      rfl
  refine ⟨fun hboth => ?_, fun parameters hsome => ?_⟩
  · rw [hg] at hboth
    cases hboth.2
  · rw [htrailing] at hsome
    cases hsome

/-- What starts as a text that may follow starts, or with a line break, may follow too. -/
theorem mayFollow_ofText {b' : String} {f g : Shape} (hf : f.isLiteral = false)
    (hfollow : ∀ k ∈ (ofText b).head?, MayFollow f k) (hreplaces : Replaces b' b)
    (hg : g ∈ (ofText b').head?) : MayFollow f g := by
  obtain ⟨-, rfl⟩ := eq_of_mem_head?_ofText hg
  refine ⟨fun hboth => ?_, fun parameters htrailing => ⟨rfl, ?_⟩⟩
  · rw [hf] at hboth
    cases hboth.1
  · rintro text htext c hc
    obtain rfl := Shape.literal.inj htext
    rcases hreplaces c hc with hc | rfl
    · have hb : b ≠ "" := by
        rintro rfl
        cases hc
      have hliteral := hfollow (.literal b) (by rw [ofText_of_ne hb]; rfl)
      exact (hliteral.2 parameters htrailing).2 b rfl c hc
    · exact ⟨by decide, fun _ => by decide⟩

/-- A formula with a core can be read with other texts around the core. -/
theorem AsRead.edges {a' b' : String} (h : AsRead (ofText a ++ (core ++ ofText b)))
    (hcore : Core core) (ha' : Written none a'.toList) (hb' : Written none b'.toList)
    (hreplaces : Replaces b' b) : AsRead (ofText a' ++ (core ++ ofText b')) := by
  have hresolved := h.resolved
  rw [Resolved, regularRow_append, regularRow_append] at hresolved
  obtain ⟨-, hall, -, hchain⟩ := h.parts hcore
  rw [List.isChain_append, List.isChain_append] at hchain
  obtain ⟨-, ⟨hspread, -, hbefore⟩, -⟩ := hchain
  refine ⟨?_, ?_⟩
  · rw [Resolved, regularRow_append, regularRow_append]
    exact ⟨regularRow_ofText a', hresolved.2.1, regularRow_ofText b'⟩
  · rw [spreadRow_edges]
    refine Or.inr ⟨?_, ?_, ?_⟩
    · simp [hcore.spreadRow_ne_nil]
    · rw [allCanonical_append, allCanonical_append, allCanonical_ofText, allCanonical_ofText]
      exact ⟨ha', hall, hb'⟩
    · -- Only at the two ends of the core do elements get another neighbour.
      rw [List.isChain_append, List.isChain_append]
      refine ⟨isChain_ofText a', ⟨hspread, isChain_ofText b', ?_⟩, ?_⟩
      · intro f hf g hg
        exact mayFollow_ofText (hcore.spreadRow_last f hf) (hbefore f hf) hreplaces hg
      · intro f hf g hg
        obtain ⟨k, ks, hks⟩ := List.exists_cons_of_ne_nil hcore.spreadRow_ne_nil
        refine mayFollow_of_ofText hf (hcore.spreadRow_head g ?_)
        rw [hks] at hg ⊢
        exact hg

end

theorem asRead_ofText {a : String} : AsRead (chain (ofText a)) ↔ Written none a.toList := by
  by_cases ha : a = ""
  · subst ha
    refine iff_of_true ⟨?_, Or.inl ?_⟩ .nil
    · simp [Resolved, Regular]
    · simp [spreadOnto]
  · rw [ofText_of_ne ha, chain_cons]
    refine ⟨fun h => ?_, fun h => ⟨?_, Or.inr ⟨?_, ?_, ?_⟩⟩⟩
    · rcases h.canonical with hempty | ⟨-, hall, -⟩
      · simp [spreadOnto] at hempty
      · rw [spreadRow_cons, spreadRow_nil, spreadOnto, allCanonical_cons, canonical_literal] at hall
        exact hall.1.2
    · simp [Resolved, Regular]
    · simp [spreadOnto]
    · rw [spreadRow_cons, spreadRow_nil, spreadOnto, allCanonical_cons, canonical_literal]
      exact ⟨⟨ha, h⟩, allCanonical_nil _⟩
    · rw [spreadRow_cons, spreadRow_nil, spreadOnto]
      exact .singleton _

/-- Margins can be set so that the text can be read, and then they stay as they are. -/
theorem AsRead.exists_margins (h : AsRead fs) (padBlocks : Bool) :
    ∃ gs, AsRead gs ∧ charsOf (withMargins padBlocks fs) = charsOf gs ∧
      charsOf (withMargins padBlocks gs) = charsOf gs ∧ commandsOf gs = commandsOf fs ∧
      ∀ new, Shape.renamedRow new fs = fs → Shape.renamedRow new gs = gs := by
  rcases h.exists_edges with ⟨a, rfl⟩ | ⟨a, core, b, hcore, rfl⟩
  · refine ⟨chain (ofText (Text.trim a)), ?_, ?_, ?_, by simp, fun new _ => by simp⟩
    · exact asRead_ofText.mpr (asRead_ofText.mp h).trimLeft.trimRight
    · rw [charsOf_withMargins_ofText, charsOf_chain, charsOf_ofText]
    · rw [charsOf_withMargins_ofText, Text.trim_trim, charsOf_chain, charsOf_ofText]
  · obtain ⟨ha, -, hb, -⟩ := h.parts hcore
    refine ⟨_, h.edges hcore (written_startMargin ha _) (written_endMargin hb _)
      (replaces_endMargin _ b), charsOf_withMargins hcore padBlocks a b, ?_, by simp, ?_⟩
    · rw [charsOf_withMargins hcore, startMargin_startMargin, endMargin_endMargin]
    · intro new hnew
      rw [renamedRow_append, renamedRow_append, renamedRow_ofText, renamedRow_ofText,
        List.append_cancel_left_eq, List.append_cancel_right_eq] at hnew
      rw [renamedRow_append, renamedRow_append, renamedRow_ofText, renamedRow_ofText, hnew]

end Shape

end Formulary
