import Formulary.Proofs.Edges

/-!
# Trimmed texts

What setting margins does to the text of a formula. Blanks go from both ends, and what is left, the
core, does not start with a blank. It ends with one only where the blank belongs to its last element:
the command that is a backslash and a blank, or a script of it or of a blank. A line break comes to
either end of a core that holds a block. All elements that are neither text nor empty stay as they
are, with everything under them (`Tree.Trims`), and so do the empty elements between them. Those
before and after all others come and go (`Tree.trimming_changes_empty`).

This holds of every formula on its way through the passes (`Tree.trims_trimSpaces`). Renaming need
not leave it tidy, since the names that it brings are not looked at; `Shape.Sturdy` is what remains
and what trimming rests on.
-/

namespace Formulary

/-! ## Blanks -/

/-- The code points of the blanks. -/
def Text.blankCodes : List Nat :=
  [0x09, 0x0A, 0x0B, 0x0C, 0x0D, 0x20, 0x85, 0xA0, 0x1680, 0x2000, 0x2001, 0x2002, 0x2003, 0x2004,
    0x2005, 0x2006, 0x2007, 0x2008, 0x2009, 0x200A, 0x2028, 0x2029, 0x202F, 0x205F, 0x3000]

theorem Text.mem_blankCodes {c : Char} (h : isBlank c = true) : c.toNat ∈ blankCodes := by
  simp only [isBlank, Bool.or_eq_true, Bool.and_eq_true, decide_eq_true_eq, beq_iff_eq] at h
  simp only [blankCodes, List.mem_cons, List.not_mem_nil, or_false]
  omega

theorem Text.isLetter_of_isBlank {c : Char} (h : isBlank c = true) : isLetter c = false := by
  have hnone : blankCodes.all (fun n => !isLetter (Char.ofNat n)) = true := by decide +kernel
  have hletter := List.all_eq_true.mp hnone _ (mem_blankCodes h)
  rwa [Char.ofNat_toNat, Bool.not_eq_true'] at hletter

theorem Text.startsBlank_trimLeft (text : String) : startsBlank (trimLeft text) = false := by
  rw [startsBlank, Option.any_eq_false, trimLeft, String.toList_ofList]
  intro c hc
  have hnot := List.head?_dropWhile_not isBlank text.toList
  rw [Option.mem_def.mp hc] at hnot
  simpa using hnot

theorem Text.endsBlank_trimRight (text : String) : endsBlank (trimRight text) = false := by
  rw [endsBlank, Option.any_eq_false, trimRight, String.toList_ofList, List.getLast?_reverse]
  intro c hc
  have hnot := List.head?_dropWhile_not isBlank text.toList.reverse
  rw [Option.mem_def.mp hc] at hnot
  simpa using hnot

theorem Text.isBlank_char (s : Symbol) : isBlank s.char = false := by
  cases s <;> rfl

namespace Shape

open Text (isBlank)

variable {after before : List Shape} {f : Shape} {fs : List Shape} {c : Char}

/-! ## Elements that end in a blank -/

/-- An element that ends in a blank and is not text: a backslash and a blank, or a script of that or
of a blank. -/
def EndsInBlank : Shape → Prop
  | .command name parameters => name = " " ∧ parameters = []
  | .script _ operand =>
    operand = .command " " [] ∨ ∃ c, isBlank c = true ∧ operand = .literal (String.ofList [c])
  | _ => False

/-- What is known of an element whose blocks may have any names. -/
def Sturdy : Shape → Prop
  | .literal text => text ≠ "" ∧ Written none text.toList
  | .script _ operand => operand.isAtomic = true ∧ operand.Sturdy
  | .command name parameters => isCommandName name = true ∧ ∀ p ∈ parameters, p.isGroup = true
  | .empty | .group .. | .block .. => True

theorem Neat.sturdy : ∀ {f : Shape}, f.Neat → f.Sturdy
  | .literal text, h => by
    rw [Neat] at h
    exact h
  | .script marker operand, h => by
    rw [Neat] at h
    exact ⟨h.1, h.2.sturdy⟩
  | .command name parameters, h => by
    rw [Neat] at h
    exact ⟨h.1, h.2.2.1⟩
  | .empty, _ | .group .., _ | .block .., _ => trivial

theorem Sturdy.renamed {new : String → String} : ∀ {f : Shape}, f.Sturdy → (f.renamed new).Sturdy
  | .literal text, h => by
    rw [Shape.renamed]
    exact h
  | .script marker operand, h => by
    rw [Shape.renamed]
    exact ⟨(isAtomic_renamed operand).trans h.1, h.2.renamed⟩
  | .command name parameters, h => by
    rw [Shape.renamed]
    exact ⟨h.1, isGroup_renamedRow h.2⟩
  | .empty, _ | .group .., _ | .block .., _ => by
    rw [Shape.renamed]
    trivial

/-- A group ends with what closes it. -/
theorem getLast?_group (fence : Fence) (inner : List Shape) :
    (group fence inner).chars.getLast? = some fence.closing.char := by
  rw [chars, ← List.cons_append, List.getLast?_concat]

theorem getLast?_delimiter (side : Delimiting) (name : String) :
    (delimiterChars side name).getLast? = some Fence.braces.closing.char := by
  rw [delimiterChars, ← List.cons_append, ← List.cons_append, ← List.append_assoc,
    List.getLast?_concat]

/-- A command that ends in a blank is a backslash and a blank. -/
theorem eq_blank_of_command {name : String} {parameters : List Shape}
    (h : (command name parameters).Sturdy) (hc : c ∈ (command name parameters).chars.getLast?)
    (hblank : isBlank c = true) : name = " " ∧ parameters = [] := by
  obtain ⟨hname, hgroups⟩ := h
  rw [chars, ← List.cons_append] at hc
  rcases List.eq_nil_or_concat parameters with rfl | ⟨before, p, rfl⟩
  · refine ⟨?_, rfl⟩
    rw [charsOf_nil, List.append_nil] at hc
    rw [isCommandName, Bool.and_eq_true, Bool.or_eq_true] at hname
    rcases hname.1 with hmark | hword
    · obtain ⟨d, hd, rfl⟩ := isMark_iff.mp hmark
      have hmarks : punctuation.all (fun d => !isBlank d || d == ' ') = true := by decide
      have hspace := List.all_eq_true.mp hmarks d hd
      rw [String.toList_ofList] at hc
      obtain rfl : d = c := Option.some.inj hc
      rw [hblank, Bool.not_true, Bool.false_or, beq_iff_eq] at hspace
      rw [hspace]
    · obtain ⟨d, ds, rfl, hd, hds⟩ := isWord_iff.mp hword
      rw [String.toList_ofList, List.getLast?_cons_cons] at hc
      have hletter : Text.isLetter c = true := by
        rcases List.mem_cons.mp (List.mem_of_getLast? hc) with rfl | hmem
        · exact hd
        · exact hds c hmem
      rw [Text.isLetter_of_isBlank hblank] at hletter
      cases hletter
  · rw [List.concat_eq_append] at hc hgroups
    have hp := hgroups p (by simp)
    cases p with
    | group fence inner =>
      rw [charsOf_append, charsOf_cons, charsOf_nil, List.append_nil, ← List.append_assoc,
        List.getLast?_append, getLast?_group] at hc
      obtain rfl := Option.some.inj hc
      rw [Text.isBlank_char] at hblank
      cases hblank
    | literal | empty | script | command | block => cases hp

/-- The text after a marker ends in a blank only if it is one, or a backslash and a blank. -/
theorem eq_blank_of_operand (h : f.Sturdy) (hatomic : f.isAtomic = true) (hc : c ∈ f.chars.getLast?)
    (hblank : isBlank c = true) :
    f = .command " " [] ∨ ∃ c, isBlank c = true ∧ f = .literal (String.ofList [c]) := by
  cases f with
  | literal text =>
    rw [chars] at hc
    have hbracket : text ≠ "[" ∧ text ≠ "]" := by
      constructor <;> rintro rfl <;> obtain rfl := Option.some.inj hc <;> cases hblank
    have hoperand := (canonical_operand_literal h.2 hatomic).mpr hbracket
    rw [Canonical] at hoperand
    rcases hoperand with ⟨d, -, htext⟩ | ⟨s, htext⟩
    · rw [htext] at hc
      obtain rfl : d = c := Option.some.inj hc
      exact Or.inr ⟨d, hblank, by rw [← htext, String.ofList_toList]⟩
    · -- What is escaped is a symbol.
      rw [htext] at hc
      obtain rfl : s.char = c := Option.some.inj hc
      rw [Text.isBlank_char] at hblank
      cases hblank
  | group fence inner =>
    rw [getLast?_group] at hc
    obtain rfl := Option.some.inj hc
    rw [Text.isBlank_char] at hblank
    cases hblank
  | command name parameters =>
    obtain ⟨rfl, rfl⟩ := eq_blank_of_command h hc hblank
    exact Or.inl rfl
  | empty | script | block => cases hatomic

theorem Sturdy.endsInBlank (h : f.Sturdy) (hsolid : f.isSolid = true) (hc : c ∈ f.chars.getLast?)
    (hblank : isBlank c = true) : f.EndsInBlank := by
  cases f with
  | literal | empty => cases hsolid
  | group fence inner =>
    rw [getLast?_group] at hc
    obtain rfl := Option.some.inj hc
    rw [Text.isBlank_char] at hblank
    cases hblank
  | block name parameters body =>
    rw [chars, ← List.append_assoc, ← List.append_assoc, List.getLast?_append,
      getLast?_delimiter] at hc
    obtain rfl := Option.some.inj hc
    rw [Text.isBlank_char] at hblank
    cases hblank
  | command name parameters => exact eq_blank_of_command h hc hblank
  | script marker operand =>
    obtain ⟨hatomic, hoperand⟩ := h
    refine eq_blank_of_operand (c := c) hoperand hatomic ?_ hblank
    rw [chars, List.getLast?_cons] at hc
    cases hlast : operand.chars.getLast? with
    | some d =>
      rw [hlast] at hc
      exact hc
    | none =>
      -- A marker alone is no blank.
      rw [hlast] at hc
      obtain rfl := Option.some.inj hc
      cases marker <;> cases hblank

/-! ## Texts without blanks at their ends -/

theorem head?_chars (h : f.isSolid = true) (hc : c ∈ f.chars.head?) : isBlank c = false := by
  cases f with
  | literal | empty => cases h
  | group | command | block =>
    rw [chars] at hc
    obtain rfl := Option.some.inj hc
    exact Text.isBlank_char _
  | script marker operand =>
    rw [chars] at hc
    obtain rfl := Option.some.inj hc
    cases marker <;> rfl

theorem chars_ne_nil (h : f.Sturdy) (hempty : f ≠ .empty) : f.chars ≠ [] := by
  cases f with
  | empty => exact absurd rfl hempty
  | literal text =>
    rw [chars]
    exact fun hnil => h.1 (String.toList_eq_nil_iff.mp hnil)
  | group | script | command | block =>
    rw [chars]
    exact List.cons_ne_nil _ _

theorem sturdy_startTrimmed (h : ∀ f ∈ fs, f.Sturdy) : ∀ f ∈ startTrimmed fs, f.Sturdy :=
  forall_startTrimmed trivial (fun _ hf hne => ⟨hne, Written.trimLeft hf.2⟩) h

/-- Only blanks go at the start. -/
theorem exists_startTrimmed (fs : List Shape) :
    ∃ blanks, blanks.all isBlank = true ∧ charsOf fs = blanks ++ charsOf (startTrimmed fs) := by
  fun_induction startTrimmed fs with
  | case1 => exact ⟨[], rfl, by simp [chars]⟩
  | case2 fs ih =>
    rw [charsOf_cons, chars, List.nil_append]
    exact ih
  | case3 text fs =>
    refine ⟨text.toList.takeWhile isBlank, List.all_takeWhile, ?_⟩
    rw [charsOf_cons, charsOf_cons, chars, chars, Text.trimLeft, String.toList_ofList,
      ← List.append_assoc, List.takeWhile_append_dropWhile]
  | case4 text fs _ hnone ih =>
    obtain ⟨blanks, hblanks, heq⟩ := ih
    have hall : text.toList.all isBlank = true := by
      simpa [Text.trimLeft] using hnone
    exact ⟨text.toList ++ blanks, by rw [List.all_append, hall, hblanks]; rfl,
      by rw [charsOf_cons, chars, heq, List.append_assoc]⟩
  | case5 | case6 => exact ⟨[], rfl, rfl⟩

/-- The first character of a formula whose first element has one that is no blank. -/
theorem head?_charsOf (hne : f.chars ≠ []) (hf : ∀ c ∈ f.chars.head?, isBlank c = false)
    (hc : c ∈ (charsOf (f :: fs)).head?) : isBlank c = false := by
  rw [charsOf_cons, List.head?_append_of_ne_nil _ hne] at hc
  exact hf c hc

theorem isSolid_of_ne (hempty : f ≠ .empty) (htext : ∀ text, f ≠ .literal text) :
    f.isSolid = true := by
  cases f with
  | empty => exact absurd rfl hempty
  | literal text => exact absurd rfl (htext text)
  | group | script | command | block => rfl

/-- No blank is left at the start. -/
theorem head?_startTrimmed (h : ∀ f ∈ fs, f.Sturdy) :
    ∀ c ∈ (charsOf (startTrimmed fs)).head?, isBlank c = false := by
  fun_induction startTrimmed fs with
  | case1 => simp [chars]
  | case2 fs ih | case4 text fs _ _ ih => exact ih (List.forall_mem_cons.mp h).2
  | case3 text fs _ hsome =>
    have hnot := Text.startsBlank_trimLeft text
    rw [Text.startsBlank, Option.any_eq_false] at hnot
    exact fun c => head?_charsOf (by simpa [chars] using hsome) (by rwa [chars])
  | case5 text fs hblank =>
    rw [Bool.not_eq_true, Text.startsBlank, Option.any_eq_false] at hblank
    exact fun c => head?_charsOf (chars_ne_nil (List.forall_mem_cons.mp h).1 (by simp))
      (by rwa [chars])
  | case6 f fs hempty htext =>
    exact fun c => head?_charsOf (chars_ne_nil (List.forall_mem_cons.mp h).1 hempty)
      fun c => head?_chars (isSolid_of_ne hempty htext)

/-- Only blanks go at the end. -/
theorem exists_endTrimmed (before : List Shape) (hafter : charsOf after = []) :
    ∃ blanks, blanks.all isBlank = true ∧
      charsOf before.reverse = charsOf (endTrimmed before after) ++ blanks := by
  fun_induction endTrimmed before after with
  | case1 after => exact ⟨[], rfl, by rw [hafter]; rfl⟩
  | case2 before after ih =>
    obtain ⟨blanks, hblanks, heq⟩ := ih (by rw [charsOf_cons, chars, hafter]; rfl)
    exact ⟨blanks, hblanks, by rw [← heq]; simp [chars]⟩
  | case3 text before after =>
    refine ⟨text.toList.rtakeWhile isBlank, ?_, ?_⟩
    · rw [List.all_eq_true]
      exact fun c hc => List.mem_rtakeWhile_imp hc
    · simp only [List.reverse_cons, charsOf_append, charsOf_cons, charsOf_nil, chars, hafter,
        List.append_nil, List.append_assoc, Text.trimRight_eq, String.toList_ofList,
        List.rdropWhile_append_rtakeWhile]
  | case4 text before after _ hnone ih =>
    obtain ⟨blanks, hblanks, heq⟩ := ih ((charsOf_chain after).trans hafter)
    have hall : text.toList.all isBlank = true := by
      simpa [Text.trimRight] using hnone
    refine ⟨blanks ++ text.toList, by rw [List.all_append, hall, hblanks]; rfl, ?_⟩
    rw [List.reverse_cons, charsOf_append, charsOf_cons, charsOf_nil, chars, List.append_nil, heq,
      List.append_assoc]
  | case5 | case6 => exact ⟨[], rfl, by simp [hafter]⟩

theorem charsOf_eq_nil_of_empty (h : ∀ f ∈ fs, f = .empty) : charsOf fs = [] := by
  induction fs with
  | nil => rfl
  | cons f fs ih =>
    rw [List.forall_mem_cons] at h
    rw [charsOf_cons, h.1, chars, ih h.2]
    rfl

/-- The last character of a formula in which nothing is written after an element. -/
theorem getLast?_charsOf (hafter : ∀ g ∈ after, g = .empty) (hne : f.chars ≠ []) :
    (charsOf (before ++ f :: after)).getLast? = f.chars.getLast? := by
  rw [charsOf_append, charsOf_cons, charsOf_eq_nil_of_empty hafter, List.append_nil,
    List.getLast?_append_of_ne_nil _ hne]

/-- A blank that is left at the end belongs to the last element that is not empty. -/
theorem exists_getLast?_endTrimmed (h : ∀ f ∈ before, f.Sturdy) (hafter : ∀ f ∈ after, f = .empty)
    (hc : c ∈ (charsOf (endTrimmed before after)).getLast?) (hblank : isBlank c = true) :
    ∃ pre f post, endTrimmed before after = pre ++ f :: post ∧ f.isSolid = true ∧ f.EndsInBlank ∧
      ∀ g ∈ post, g = .empty := by
  fun_induction endTrimmed before after with
  | case1 after =>
    rw [charsOf_eq_nil_of_empty hafter] at hc
    cases hc
  | case2 before after ih =>
    exact ih (List.forall_mem_cons.mp h).2 (List.forall_mem_cons.mpr ⟨rfl, hafter⟩) hc
  | case3 text before after _ hsome =>
    -- A text that was trimmed does not end in a blank.
    rw [getLast?_charsOf hafter (by simpa [chars] using hsome), chars] at hc
    have hnot := Text.endsBlank_trimRight text
    rw [Text.endsBlank, Option.any_eq_false] at hnot
    exact absurd hblank (by simp [hnot c hc])
  | case4 text before after _ _ ih =>
    refine ih (List.forall_mem_cons.mp h).2 (fun g hg => ?_) hc
    cases after with
    | nil => exact List.mem_singleton.mp hg
    | cons => exact hafter g hg
  | case5 text before after hnot =>
    rw [getLast?_charsOf hafter (chars_ne_nil (List.forall_mem_cons.mp h).1 (by simp)), chars] at hc
    rw [Bool.not_eq_true, Text.endsBlank, Option.any_eq_false] at hnot
    exact absurd hblank (by simp [hnot c hc])
  | case6 f before after hempty htext =>
    have hsolid := isSolid_of_ne hempty htext
    have hf := (List.forall_mem_cons.mp h).1
    rw [getLast?_charsOf hafter (chars_ne_nil hf hempty)] at hc
    exact ⟨before.reverse, f, after, rfl, hsolid, hf.endsInBlank hsolid hc hblank, hafter⟩

/-! ## Line breaks around a text -/

theorem startTrimmed_ne_nil (fs : List Shape) : startTrimmed fs ≠ [] := by
  fun_induction startTrimmed fs with
  | case2 fs ih | case4 text fs _ _ ih => exact ih
  | case1 | case3 | case5 | case6 => exact List.cons_ne_nil _ _

theorem endTrimmed_ne_nil (h : before ≠ [] ∨ after ≠ []) : endTrimmed before after ≠ [] := by
  fun_induction endTrimmed before after with
  | case1 => simpa using h
  | case2 before after ih => exact ih (Or.inr (List.cons_ne_nil _ _))
  | case4 text before after _ _ ih => exact ih (Or.inr (chain_ne_nil after))
  | case3 | case5 | case6 => simp

theorem charsOf_startPadded (h : fs ≠ []) : charsOf (startPadded fs) = '\n' :: charsOf fs := by
  cases fs with
  | nil => exact absurd rfl h
  | cons f fs =>
    cases f with
    | literal | empty | group | script | command | block =>
      simp [startPadded, lineBroken, chars]

theorem charsOf_endPadded (h : fs ≠ []) : charsOf (endPadded fs) = charsOf fs ++ ['\n'] := by
  rcases List.eq_nil_or_concat fs with rfl | ⟨fs, f, rfl⟩
  · exact absurd rfl h
  · rw [List.concat_eq_append, endPadded_concat]
    cases f with
    | literal | empty | group | script | command | block => simp [lineBroken, chars]

/-- An element that is neither text nor empty is still there behind a line break. -/
theorem exists_startPadded (hf : f.isSolid = true) (pre post : List Shape) :
    ∃ pre', startPadded (pre ++ f :: post) = pre' ++ f :: post := by
  cases pre with
  | nil =>
    cases f with
    | literal | empty => cases hf
    | group | script | command | block => exact ⟨[.literal "\n"], rfl⟩
  | cons g pre => exact ⟨_, (List.append_assoc _ pre (f :: post)).symm⟩

/-- A line break after the last element that is not empty is all that is written there. -/
theorem exists_endPadded (hf : f.isSolid = true) (pre : List Shape) {post : List Shape}
    (hpost : ∀ g ∈ post, g = .empty) :
    ∃ post', endPadded (pre ++ f :: post) = pre ++ f :: post' ∧
      ∀ g ∈ post', g = .empty ∨ g = .literal "\n" := by
  rcases List.eq_nil_or_concat post with rfl | ⟨post, g, rfl⟩
  · refine ⟨[.literal "\n"], ?_, by simp⟩
    rw [endPadded_concat]
    cases f with
    | literal | empty => cases hf
    | group | script | command | block => rfl
  · rw [List.concat_eq_append] at hpost ⊢
    obtain rfl := hpost g (by simp)
    refine ⟨post ++ [.literal "\n"], ?_, fun g hg => ?_⟩
    · rw [← List.cons_append, ← List.append_assoc, endPadded_concat, List.append_assoc]
      rfl
    · rcases List.mem_append.mp hg with hg | hg
      · exact Or.inl (hpost g (List.mem_append_left _ hg))
      · exact Or.inr (List.mem_singleton.mp hg)

/-! ## Blocks stay -/

theorem anyHoldsBlock_startTrimmed (fs : List Shape) :
    anyHoldsBlock (startTrimmed fs) = anyHoldsBlock fs := by
  fun_induction startTrimmed fs with
  | case1 | case3 => simp [anyHoldsBlock, holdsBlock]
  | case2 fs ih | case4 text fs _ _ ih => rw [ih, anyHoldsBlock, holdsBlock, Bool.false_or]
  | case5 | case6 => rfl

theorem anyHoldsBlock_chain (fs : List Shape) : anyHoldsBlock (chain fs) = anyHoldsBlock fs := by
  cases fs <;> simp [anyHoldsBlock, holdsBlock]

theorem anyHoldsBlock_endTrimmed (before after : List Shape) :
    anyHoldsBlock (endTrimmed before after) = anyHoldsBlock (before.reverse ++ after) := by
  fun_induction endTrimmed before after with
  | case1 => rfl
  | case2 before after ih => rw [ih, List.reverse_cons, List.append_assoc, List.singleton_append]
  | case4 text before after _ _ ih => simp [ih, anyHoldsBlock, holdsBlock, anyHoldsBlock_chain]
  | case3 | case5 | case6 => simp [anyHoldsBlock, holdsBlock]

/-! ## Elements between others stay -/

/-- The elements of a chain that are no text, without the empty ones before and after all others. -/
def trunk (fs : List Shape) : List Shape :=
  ((fs.filter fun f => !f.isLiteral).dropWhile isEmpty).rdropWhile isEmpty

theorem trunk_literal (text : String) (before after : List Shape) :
    trunk (before ++ .literal text :: after) = trunk (before ++ after) := by
  simp [trunk, isLiteral]

theorem trunk_empty_cons (fs : List Shape) : trunk (.empty :: fs) = trunk fs := rfl

theorem trunk_concat_empty (fs : List Shape) : trunk (fs ++ [.empty]) = trunk fs := by
  rw [trunk, trunk, List.filter_append, List.dropWhile_append]
  split
  · rename_i hnil
    rw [List.isEmpty_iff.mp hnil]
    rfl
  · exact List.rdropWhile_concat_pos _ _ _ rfl

theorem trunk_startTrimmed (fs : List Shape) : trunk (startTrimmed fs) = trunk fs := by
  fun_induction startTrimmed fs with
  | case1 => rfl
  | case2 fs ih => rw [ih, trunk_empty_cons]
  | case3 text fs => exact (trunk_literal _ [] fs).trans (trunk_literal _ [] fs).symm
  | case4 text fs _ _ ih => exact ih.trans (trunk_literal _ [] fs).symm
  | case5 | case6 => rfl

theorem trunk_append_chain (before after : List Shape) :
    trunk (before ++ chain after) = trunk (before ++ after) := by
  cases after with
  | nil => exact (trunk_concat_empty before).trans (by rw [List.append_nil])
  | cons => rfl

theorem trunk_endTrimmed (before after : List Shape) :
    trunk (endTrimmed before after) = trunk (before.reverse ++ after) := by
  fun_induction endTrimmed before after with
  | case1 => rfl
  | case2 before after ih => rw [ih, List.reverse_cons, List.append_assoc, List.singleton_append]
  | case3 text before after => rw [trunk_literal, List.reverse_cons, List.append_assoc,
      List.singleton_append, trunk_literal]
  | case4 text before after _ _ ih =>
    rw [ih, trunk_append_chain, List.reverse_cons, List.append_assoc, List.singleton_append,
      trunk_literal]
  | case5 | case6 => simp

theorem trunk_startPadded (fs : List Shape) : trunk (startPadded fs) = trunk fs := by
  cases fs with
  | nil => rfl
  | cons f fs =>
    cases f with
    | literal text => exact (trunk_literal _ [] fs).trans (trunk_literal _ [] fs).symm
    | empty => exact (trunk_literal _ [] fs).trans (trunk_empty_cons fs).symm
    | group | script | command | block => exact trunk_literal _ [] _

theorem trunk_endPadded (fs : List Shape) : trunk (endPadded fs) = trunk fs := by
  rcases List.eq_nil_or_concat fs with rfl | ⟨fs, f, rfl⟩
  · rfl
  · have hbroken : trunk (fs ++ [f, .literal "\n"]) = trunk (fs ++ [f]) := by
      simpa using trunk_literal "\n" (fs ++ [f]) []
    rw [List.concat_eq_append, endPadded_concat]
    cases f with
    | literal text => exact (trunk_literal _ fs []).trans (trunk_literal _ fs []).symm
    | empty =>
      rw [trunk_concat_empty]
      exact (trunk_literal _ fs []).trans (by rw [List.append_nil])
    | group | script | command | block => exact hbroken

theorem trunk_withMargins (padBlocks : Bool) (fs : List Shape) :
    trunk (withMargins padBlocks fs) = trunk fs := by
  have htrimmed : trunk (endTrimmed (startTrimmed fs).reverse []) = trunk fs := by
    rw [trunk_endTrimmed, List.reverse_reverse, List.append_nil, trunk_startTrimmed]
  rw [withMargins]
  split
  · rw [trunk_endPadded, trunk_startPadded, htrimmed]
  · exact htrimmed

/-! ## Texts with margins -/

/-- What is written around a formula with margins. -/
def lineBreak (padBlocks : Bool) (fs : List Shape) : List Char :=
  if padBlocks && anyHoldsBlock fs then ['\n'] else []

/-- The text of a formula and of the same formula with margins. -/
structure TextTrims (fs gs : List Shape) (margin before core after : List Char) : Prop where
  charsOf_old : charsOf fs = before ++ core ++ after
  charsOf_new : charsOf gs = margin ++ core ++ margin
  before_blank : before.all isBlank = true
  after_blank : after.all isBlank = true
  starts : ∀ c ∈ core.head?, isBlank c = false
  ends : ∀ c ∈ core.getLast?, isBlank c = true →
    ∃ pre f post, gs = pre ++ f :: post ∧ f.EndsInBlank ∧
      ∀ g ∈ post, g = .empty ∨ margin = ['\n'] ∧ g = .literal "\n"

theorem textTrims_withMargins (h : ∀ f ∈ fs, f.Sturdy) (padBlocks : Bool) :
    ∃ before core after,
      TextTrims fs (withMargins padBlocks fs) (lineBreak padBlocks fs) before core after := by
  obtain ⟨before, hbefore, hstart⟩ := exists_startTrimmed fs
  obtain ⟨after, hafter, hend⟩ := exists_endTrimmed (startTrimmed fs).reverse charsOf_nil
  rw [List.reverse_reverse] at hend
  have hsturdy : ∀ f ∈ (startTrimmed fs).reverse, f.Sturdy :=
    fun f hf => sturdy_startTrimmed h f (List.mem_reverse.mp hf)
  have hlast := fun c hc => exists_getLast?_endTrimmed (c := c) hsturdy (List.forall_mem_nil _) hc
  have hne : endTrimmed (startTrimmed fs).reverse [] ≠ [] :=
    endTrimmed_ne_nil (Or.inl (by simpa using startTrimmed_ne_nil fs))
  have hblock : anyHoldsBlock (endTrimmed (startTrimmed fs).reverse []) = anyHoldsBlock fs := by
    rw [anyHoldsBlock_endTrimmed, List.reverse_reverse, List.append_nil, anyHoldsBlock_startTrimmed]
  rw [withMargins, lineBreak, hblock]
  generalize endTrimmed (startTrimmed fs).reverse [] = trimmed at *
  have hstarts : ∀ c ∈ (charsOf trimmed).head?, isBlank c = false := by
    intro c hc
    apply head?_startTrimmed h c
    rw [hend, List.head?_append, Option.mem_def.mp hc]
    rfl
  have hold : charsOf fs = before ++ charsOf trimmed ++ after := by
    rw [hstart, hend, List.append_assoc]
  refine ⟨before, charsOf trimmed, after, hold, ?_, hbefore, hafter, hstarts, fun c hc hblank => ?_⟩
  · split
    · have hpadded : startPadded trimmed ≠ [] := by
        intro hnil
        have := charsOf_startPadded hne
        rw [hnil] at this
        cases this
      rw [charsOf_endPadded hpadded, charsOf_startPadded hne]
      rfl
    · rw [List.nil_append, List.append_nil]
  · obtain ⟨pre, f, post, rfl, hf, hends, hpost⟩ := hlast c hc hblank
    split
    · obtain ⟨pre', hpre'⟩ := exists_startPadded hf pre post
      obtain ⟨post', hpost', hbreak⟩ := exists_endPadded hf pre' hpost
      refine ⟨pre', f, post', by rw [hpre', hpost'], hends, fun g hg => ?_⟩
      exact (hbreak g hg).imp_right fun heq => ⟨rfl, heq⟩
    · exact ⟨pre, f, post, rfl, hends, fun g hg => Or.inl (hpost g hg)⟩

end Shape

open Plan

/-! ## Blocks that are reached -/

namespace Part

variable {t t' : Tree} {up up' : Option NodeId} {x y : Part}

/-- Whether a part is a block or has one in it. -/
def holdsBlock : Part → Bool
  | .element p => p.shape.holdsBlock
  | .chain cell p rest => Shape.anyHoldsBlock (rowShapes ((cell, p) :: rest))

theorem any_ofRow (row : Row) : (ofRow row).any holdsBlock = Shape.anyHoldsBlock (rowShapes row) := by
  cases row with
  | nil => rw [rowShapes_nil, Shape.anyHoldsBlock]; rfl
  | cons x row => exact Bool.or_false _

theorem any_elements (ps : List Plan) :
    (ps.map element).any holdsBlock = Shape.anyHoldsBlock (Plan.shapes ps) := by
  induction ps with
  | nil => rw [shapes_nil, Shape.anyHoldsBlock]; rfl
  | cons p ps ih => rw [List.map_cons, List.any_cons, ih, shapes_cons, Shape.anyHoldsBlock]; rfl

/-- A part holds a block if it is one or something under it holds one. -/
theorem holdsBlock_eq (x : Part) : x.holdsBlock = (x.node.isBlock || x.children.any holdsBlock) := by
  cases x with
  | chain cell p rest =>
    have hchain : (chain cell p rest).holdsBlock =
        (p.shape.holdsBlock || Shape.anyHoldsBlock (rowShapes rest)) := by
      rw [holdsBlock, rowShapes_cons, Shape.anyHoldsBlock]
    rw [hchain, children, List.any_cons, any_ofRow]
    rfl
  | element p =>
    rw [holdsBlock]
    cases p with
    | literal | empty =>
      rw [shape, Shape.holdsBlock]
      rfl
    | group n fence inner =>
      rw [shape, Shape.holdsBlock, children, any_ofRow]
      rfl
    | script n marker operand =>
      rw [shape, Shape.holdsBlock, children, List.any_cons, List.any_nil, Bool.or_false]
      rfl
    | command n name ps =>
      rw [shape, Shape.holdsBlock, children, any_elements]
      rfl
    | block n name ps body =>
      rw [shape, Shape.holdsBlock]
      rfl

theorem holdsBlock_of_down {path : List Nat} (hy : x.down path = some y)
    (h : y.node.isBlock = true) : x.holdsBlock = true := by
  induction path generalizing x with
  | nil =>
    obtain rfl := Option.some.inj hy
    rw [holdsBlock_eq, h, Bool.true_or]
  | cons k path ih =>
    rw [Part.down] at hy
    obtain ⟨z, hz, hy⟩ := Option.bind_eq_some_iff.mp hy
    rw [holdsBlock_eq, List.any_eq_true.mpr ⟨z, List.mem_of_getElem? hz, ih hy⟩, Bool.or_true]

theorem Fits.exists_block (h : x.Fits t up) (hx : x.holdsBlock = true) :
    ∃ id, t.Reaches x.id id ∧ (t.node id).isBlock = true := by
  induction hcard : Multiset.card x.ids using Nat.strong_induction_on generalizing x up with
  | _ n ih =>
    rw [holdsBlock_eq, Bool.or_eq_true, List.any_eq_true] at hx
    rcases hx with hblock | ⟨y, hy, hblock⟩
    · exact ⟨x.id, Tree.Reaches.refl _, by rw [h.node, hblock]⟩
    · obtain ⟨id, hreaches, hid⟩ :=
        ih _ (hcard ▸ card_lt_of_mem_children hy) (h.children y hy) hblock rfl
      refine ⟨id, (Tree.reaches_child ?_).trans hreaches, hid⟩
      rw [h.node, h.node_children]
      exact List.mem_map_of_mem hy

/-- A part holds a block exactly if it reaches one. -/
theorem Fits.holdsBlock_iff (h : x.Fits t up) :
    x.holdsBlock = true ↔ ∃ id, t.Reaches x.id id ∧ (t.node id).isBlock = true := by
  refine ⟨h.exists_block, ?_⟩
  rintro ⟨id, hreaches, hid⟩
  obtain ⟨path, y, up', hy, rfl, hfits⟩ := h.exists_of_reaches hreaches
  rw [hfits.node] at hid
  exact holdsBlock_of_down hy hid

/-- What is under a part in two stores hangs at the same place in both. -/
theorem Fits.down_both {path : List Nat} (h : x.Fits t up) (h' : x.Fits t' up)
    (hy : x.down path = some y) : ∃ up', y.Fits t up' ∧ y.Fits t' up' := by
  induction path generalizing x up with
  | nil =>
    obtain rfl := Option.some.inj hy
    exact ⟨up, h, h'⟩
  | cons k path ih =>
    rw [Part.down] at hy
    obtain ⟨z, hz, hy⟩ := Option.bind_eq_some_iff.mp hy
    have hmem := List.mem_of_getElem? hz
    exact ih (h.children z hmem) (h'.children z hmem) hy

end Part

namespace Tree

variable {fs : List Shape} {p : Plan} {row : Row} {t t' : Tree} {up up' : Option NodeId}

/-- A block is reached from the root. -/
def HoldsBlock (t : Tree) : Prop := ∃ id, t.Reaches t.root id ∧ (t.node id).isBlock = true

theorem Depicts.holdsBlock_iff (h : t.Depicts fs) :
    t.HoldsBlock ↔ Shape.anyHoldsBlock fs = true := by
  obtain ⟨cell, p, rest, hroot, hx, -, rfl⟩ := h.exists_part
  rw [HoldsBlock, hroot]
  exact hx.holdsBlock_iff.symm

/-! ## Elements that stay -/

/-- Whether a node is neither text nor empty. -/
def isSolid (t : Tree) (id : NodeId) : Bool :=
  match t.node id with
  | .literal _ | .empty => false
  | _ => true

/-- The elements of the chain of a formula that are neither text nor empty. -/
def solidElements (t : Tree) : List NodeId := (t.elements t.root).filter t.isSolid

/-- An element and everything under it are the same in another store, where it may stand in another
cell. -/
def SameBelow (t t' : Tree) (top : NodeId) : Prop :=
  ∀ id, t.Reaches top id → t'.node id = t.node id ∧ t'.span id = t.span id ∧
    (id ≠ top → t'.parent id = t.parent id)

/-- An element that ends in a blank and is not text: a backslash and a blank, or a script of that or
of a blank. -/
def EndsInBlank (t : Tree) (id : NodeId) : Prop :=
  t.node id = .command " " [] ∨ ∃ marker operand, t.node id = .script marker operand ∧
    (t.node operand = .command " " [] ∨
      ∃ c, Text.isBlank c = true ∧ t.node operand = .literal (String.ofList [c]))

/-- Whether an element is solid can be told from its node. -/
theorem isSolid_of_fits (h : p.Fits t up) : t.isSolid p.id = p.shape.isSolid := by
  rw [isSolid, h.node]
  cases p <;> rfl

theorem node_of_literal {text : String} (h : p.Fits t up) (hshape : p.shape = .literal text) :
    t.node p.id = .literal text := by
  obtain ⟨n, rfl⟩ := eq_literal_of_shape hshape
  exact h.node

theorem node_of_empty (h : p.Fits t up) (hshape : p.shape = .empty) : t.node p.id = .empty := by
  rw [h.node]
  cases p with
  | empty n => rfl
  | literal | group | script | command | block => simp [shape] at hshape

theorem node_of_command {name : String} (h : p.Fits t up) (hshape : p.shape = .command name []) :
    t.node p.id = .command name [] := by
  rw [h.node]
  cases p with
  | command n name' ps =>
    rw [shape, shapes_eq_map, Shape.command.injEq, List.map_eq_nil_iff] at hshape
    obtain ⟨rfl, rfl⟩ := hshape
    rfl
  | literal | empty | group | script | block => simp [shape] at hshape

theorem endsInBlank_of_fits (h : p.Fits t up) (hp : p.shape.EndsInBlank) : t.EndsInBlank p.id := by
  cases hshape : p.shape with
  | command name parameters =>
    rw [hshape] at hp
    obtain ⟨rfl, rfl⟩ := hp
    exact Or.inl (node_of_command h hshape)
  | script marker f =>
    rw [hshape] at hp
    obtain ⟨n, operand, rfl, rfl⟩ := eq_script_of_shape hshape
    refine Or.inr ⟨marker, operand.id, h.node, ?_⟩
    rw [Plan.Fits] at h
    rcases hp with hspace | ⟨c, hblank, hliteral⟩
    · exact Or.inl (node_of_command h.2 hspace)
    · exact Or.inr ⟨c, hblank, node_of_literal h.2 hliteral⟩
  | literal | empty | group | block =>
    rw [hshape] at hp
    exact hp.elim

theorem sameBelow_of_fits (h : p.Fits t up) (h' : p.Fits t' up')
    (hspan : ∀ i < t.size, t'.span i = t.span i) : t.SameBelow t' p.id := by
  intro id hid
  have hpart : (Part.element p).Fits t up := h
  have hpart' : (Part.element p).Fits t' up' := h'
  obtain ⟨path, y, -, hy, rfl, -⟩ := hpart.exists_of_reaches hid
  have hlt : y.id < t.size := hpart.lt_size _ (hpart.reaches_iff.mp hid)
  cases path with
  | nil =>
    obtain rfl := Option.some.inj hy
    exact ⟨hpart'.node.trans hpart.node.symm, hspan _ hlt, fun hne => absurd rfl hne⟩
  | cons k path =>
    rw [Part.down] at hy
    obtain ⟨z, hz, hy⟩ := Option.bind_eq_some_iff.mp hy
    have hmem := List.mem_of_getElem? hz
    obtain ⟨up'', hyt, hyt'⟩ := (hpart.children z hmem).down_both (hpart'.children z hmem) hy
    exact ⟨hyt'.node.trans hyt.node.symm, hspan _ hlt, fun _ => hyt'.parent.trans hyt.parent.symm⟩

/-! ## Trimmed formulas -/

/-- What is written around a formula that is trimmed: a line break if blocks are to stand on lines of
their own and there is one, and else nothing. -/
def IsMargin (t : Tree) (pad : Bool) (margin : String) : Prop :=
  (pad = true ∧ t.HoldsBlock ∧ margin = "\n") ∨ (¬(pad = true ∧ t.HoldsBlock) ∧ margin = "")

/-- A formula and what trimming makes of it. The blanks `before` and `after` go, the `core` stays,
and the `margin` comes to both of its ends. -/
structure Trims (t t' : Tree) (margin before core after : String) : Prop where
  text_old : t.text = before ++ core ++ after
  text_new : t'.text = margin ++ core ++ margin
  before_blank : before.toList.all Text.isBlank = true
  after_blank : after.toList.all Text.isBlank = true
  starts : Text.startsBlank core = false
  ends : Text.endsBlank core = true → ∃ pre last post, t'.elements t'.root = pre ++ last :: post ∧
    t'.EndsInBlank last ∧
      ∀ id ∈ post, t'.node id = .empty ∨ margin = "\n" ∧ t'.node id = .literal margin
  solidElements_eq : t'.solidElements = t.solidElements
  sameBelow : ∀ id ∈ t.solidElements, t.SameBelow t' id
  trunk_eq : ∀ fs gs, t.Depicts fs → t'.Depicts gs → Shape.trunk gs = Shape.trunk fs

theorem solidElements_of_fits (h : RowFits t up row) (hn : (rowIds row).Nodup)
    (hroot : nextCell row = some t.root) : t.solidElements = (solids row).map Plan.id := by
  rw [solidElements, h.elements hn hroot, solids]
  clear hn hroot
  induction row generalizing up with
  | nil => rfl
  | cons x row ih =>
    obtain ⟨cell, p⟩ := x
    obtain ⟨-, hp, hrow⟩ := rowFits_pair.mp h
    simp only [List.map_cons, List.filter_cons, isSolid_of_fits hp, ih hrow]
    split <;> rfl

theorem exists_fits_of_mem (h : RowFits t up row) (hp : p ∈ row.map Prod.snd) :
    ∃ cell, p.Fits t (some cell) := by
  obtain ⟨x, hx, rfl⟩ := List.mem_map.mp hp
  obtain ⟨pre, post, rfl⟩ := List.append_of_mem hx
  obtain ⟨up', hpost⟩ := h.of_append
  exact ⟨x.1, (rowFits_pair.mp hpost).2.1⟩

theorem Depicts.isMargin (h : t.Depicts fs) (pad : Bool) :
    t.IsMargin pad (String.ofList (Shape.lineBreak pad fs)) := by
  rw [IsMargin, h.holdsBlock_iff, Shape.lineBreak]
  cases pad <;> cases Shape.anyHoldsBlock fs <;> simp

/-- An element at the end of a text, in the store. -/
theorem exists_last_of_shapes {pre post : List Shape} {f : Shape} {margin : List Char}
    (h : RowFits t up row) (hshapes : rowShapes row = pre ++ f :: post) (hf : f.EndsInBlank)
    (hpost : ∀ g ∈ post, g = .empty ∨ margin = ['\n'] ∧ g = .literal "\n") :
    ∃ pre last post, row.map (fun x => x.2.id) = pre ++ last :: post ∧ t.EndsInBlank last ∧
      ∀ id ∈ post, t.node id = .empty ∨
        String.ofList margin = "\n" ∧ t.node id = .literal (String.ofList margin) := by
  obtain ⟨row₁, row₂, rfl, -, hrow₂⟩ := exists_of_rowShapes_eq_append hshapes
  obtain ⟨cell, p, row₃, rfl, rfl, rfl⟩ := exists_of_rowShapes_eq_cons hrow₂
  obtain ⟨up', hfits⟩ := h.of_append
  obtain ⟨-, hp, hrow₃⟩ := rowFits_pair.mp hfits
  refine ⟨_, p.id, _, List.map_append, endsInBlank_of_fits hp hf, ?_⟩
  rw [List.forall_mem_map]
  intro x hx
  obtain ⟨cell', hfits'⟩ := exists_fits_of_mem hrow₃ (List.mem_map_of_mem hx)
  have hmem : x.2.shape ∈ rowShapes row₃ := by
    rw [rowShapes_eq_map]
    exact List.mem_map_of_mem hx
  rcases hpost _ hmem with hempty | ⟨rfl, hbreak⟩
  · exact Or.inl (node_of_empty hfits' hempty)
  · exact Or.inr ⟨rfl, node_of_literal hfits' hbreak⟩

/-- Every formula with sturdy elements can be trimmed. -/
theorem Depicts.trims_setMargins (h : t.Depicts fs) (hsturdy : ∀ f ∈ fs, f.Sturdy) (pad : Bool) :
    ∃ t' margin before core after, (setMargins pad).run.run t = (.ok (), t') ∧
      t.IsMargin pad margin ∧ t.Trims t' margin before core after := by
  obtain ⟨before, core, after, htrims⟩ := Shape.textTrims_withMargins hsturdy pad
  have hmargin := h.isMargin pad
  have htext := h.text
  generalize Shape.lineBreak pad fs = margin at htrims hmargin
  obtain ⟨row, hfirst, hfits, hn, rfl⟩ := h
  have hheld : RowHeld t none row := ⟨hfits, hn, hfits.lt_size t.root (nextCell_mem_rowIds hfirst)⟩
  obtain ⟨t', row', hrun, hbecomes, hkeeps, hshapes⟩ := reshapes_setMargins pad hheld hfirst
  have hfirst' : nextCell row' = some t'.root := by
    rw [hbecomes.next_eq, hfirst, hbecomes.trades.keeps.root_eq]
  have hfits' := hbecomes.fits
  have hn' := hbecomes.trades.nodup
  have hdepicts' : t'.Depicts (Shape.withMargins pad (rowShapes row)) :=
    ⟨row', hfirst', hfits', hn', hshapes⟩
  have htext' := hdepicts'.text
  have hsolids := solidElements_of_fits hfits hn hfirst
  refine ⟨t', String.ofList margin, String.ofList before, String.ofList core, String.ofList after,
    hrun, hmargin, ?_⟩
  constructor
  case text_old => rw [← String.toList_inj, htext, htrims.charsOf_old]; simp
  case text_new => rw [← String.toList_inj, htext', htrims.charsOf_new]; simp
  case before_blank => rw [String.toList_ofList, htrims.before_blank]
  case after_blank => rw [String.toList_ofList, htrims.after_blank]
  case starts =>
    rw [Text.startsBlank, String.toList_ofList, Option.any_eq_false]
    exact htrims.starts
  case ends =>
    intro hends
    rw [Text.endsBlank, String.toList_ofList, Option.any_eq_true] at hends
    obtain ⟨c, hc, hblank⟩ := hends
    obtain ⟨pre, f, post, hsplit, hf, hpost⟩ := htrims.ends c hc hblank
    rw [hfits'.elements hn' hfirst']
    exact exists_last_of_shapes hfits' (hshapes.trans hsplit) hf hpost
  case solidElements_eq =>
    rw [solidElements_of_fits hfits' hn' hfirst', hkeeps.solids_eq, hsolids]
  case sameBelow =>
    rw [hsolids, List.forall_mem_map]
    intro p hp
    obtain ⟨cell, hpt⟩ := exists_fits_of_mem hfits (List.mem_of_mem_filter hp)
    rw [← hkeeps.solids_eq] at hp
    obtain ⟨cell', hpt'⟩ := exists_fits_of_mem hfits' (List.mem_of_mem_filter hp)
    exact sameBelow_of_fits hpt hpt' hkeeps.span_eq
  case trunk_eq =>
    intro fs gs hfs hgs
    rw [hgs.unique hdepicts', Shape.trunk_withMargins,
      hfs.unique ⟨row, hfirst, hfits, hn, rfl⟩]

/-! ## Formulas on their way through the passes -/

/-- A formula whose elements are sturdy. -/
def IsSturdy (t : Tree) : Prop := ∃ fs, t.Depicts fs ∧ ∀ f ∈ fs, f.Sturdy

theorem Tidy.isSturdy (h : t.Tidy) : t.IsSturdy := by
  obtain ⟨fs, hfs, hneat⟩ := tidy_iff.mp h
  exact ⟨fs, hfs, fun f hf => (Shape.neatRow_iff.mp hneat f hf).sturdy⟩

/-- Renaming brings any names. -/
theorem IsSturdy.renames (h : t.IsSturdy) (r : Renames) : (r.apply t).IsSturdy := by
  obtain ⟨fs, hfs, hsturdy⟩ := h
  refine ⟨_, hfs.renames r, ?_⟩
  rw [Shape.renamedRow_eq_map, List.forall_mem_map]
  exact fun f hf => (hsturdy f hf).renamed

theorem isSturdy_of_runPasses {source : String} {steps : Nat} {s : FixSettings}
    {ds ds' : Definitions} {r : Except Fault Unit} (hparse : parseMath source = .ok t)
    (hds : ds.Learned)
    (hrun : (Fixer.runPasses (Fixer.passesOf steps { s with trimSpaces := false })).run.run (t, ds) =
      some (r, t', ds')) : t'.IsSturdy := by
  have htidy : t.Tidy := tidy_iff.mpr (isNeat_parseMath hparse)
  -- Without expansion, nothing but renaming is left.
  have hrenames : ∀ p ∈ Fixer.passesOf steps { s with expandMacros := false, trimSpaces := false },
      Maintains (fun t _ => t.IsSturdy) p.run := by
    intro p hp t₁ ds₁ r₁ t₂ ds₂ hsturdy hrun
    rcases mem_passesOf.mp hp with ⟨h, -⟩ | ⟨-, rfl⟩ | ⟨h, -⟩
    · cases h
    · cases hrun
      exact hsturdy.renames s.renames
    · cases h
  cases hs : s.expandMacros with
  | false =>
    have heq : ({ s with trimSpaces := false } : FixSettings) =
        { s with expandMacros := false, trimSpaces := false } := by rw [← hs]
    rw [heq] at hrun
    exact maintains_runPasses hrenames _ _ _ _ _ htidy.isSturdy hrun
  | true =>
    rw [passesOf_expandMacros (s := { s with trimSpaces := false }) hs, runPasses_cons] at hrun
    have hsettled := settled_expandMacros steps t ds
    rcases run_bind_eq_some hrun with ⟨⟨⟩, ⟨t₁, ds₁⟩, hfirst, hrest⟩ | ⟨x, ⟨t₁, ds₁⟩, hfirst, hout⟩
    · have htidy₁ := (hsettled _ _ _ ⟨htidy, hds.reached.standFor⟩ hfirst).1
      exact maintains_runPasses hrenames _ _ _ _ _ htidy₁.isSturdy hrest
    · cases hout
      exact (hsettled _ _ _ ⟨htidy, hds.reached.standFor⟩ hfirst).1.isSturdy

end Tree

end Formulary
