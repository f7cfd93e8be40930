import Formulary.Proofs.Substitution
import Formulary.Proofs.Stretches

/-!
# Pieces of a text

A literal splits into the placeholders in it and the text between them (`Piece.IsSplitting`). This
is said of characters. Both signs of a placeholder take one byte that is part of no other character,
so the pieces can as well be found in the bytes of the text, one index after the other:

* `Text.getElem?_toUTF8_eq_some_iff`: a byte below 128 stands where its character does.
* `Piece.numberAt?_eq_some_iff`: the bytes of a placeholder stand where the placeholder does.
* `Piece.cutFrom?`: cutting the bytes, which refuses to go through a character. It never has to, and
  gives the pieces that the text splits into (`Piece.cutFrom?_eq`).
-/

namespace Formulary

open Shape (argumentDigit?_eq foldr_consChar_nil foldr_consChar_argument)
open Text (byteSize)

/-! ## Bytes of a text -/

namespace Text

variable {b : UInt8}

theorem getElem?_toUTF8 (s : String) (i : Nat) :
    s.toUTF8[i]? = (s.toList.flatMap String.utf8EncodeChar)[i]? := by
  rw [String.toUTF8_eq_toByteArray, ← String.utf8Encode_toList, List.utf8Encode]
  by_cases h : i < (s.toList.flatMap String.utf8EncodeChar).length
  · rw [getElem?_pos _ i (by rwa [List.size_toByteArray]), List.getElem?_eq_getElem h,
      List.getElem_toByteArray]
  · rw [getElem?_neg _ i (by rwa [List.size_toByteArray]),
      List.getElem?_eq_none (Nat.le_of_not_lt h)]

theorem utf8EncodeChar_ofUInt8 (hb : b.toNat < 128) :
    String.utf8EncodeChar (Char.ofUInt8 b) = [b] := by
  have hone : String.utf8EncodeChar (Char.ofUInt8 b) = [UInt8.ofNat b.toNat] :=
    if_pos (Nat.le_of_lt_succ hb)
  rw [hone, UInt8.ofNat_toNat]

/-- The bytes below 128 are whole characters: no larger character has one among its bytes. -/
theorem eq_ofUInt8_of_mem {c : Char} (h : b ∈ String.utf8EncodeChar c) (hb : b.toNat < 128) :
    c = Char.ofUInt8 b := by
  by_cases hc : c.toNat ≤ 0x7f
  · have hone : String.utf8EncodeChar c = [UInt8.ofNat c.toNat] := if_pos hc
    rw [hone, List.mem_singleton] at h
    rw [← Char.toNat_inj, h]
    change c.toNat = c.toNat % 256
    omega
  · -- Every byte of a longer encoding has its highest bit set.
    have hhigh : ∀ b ∈ String.utf8EncodeChar c, 128 ≤ b.toNat := by
      fun_cases String.utf8EncodeChar c with
      | case1 v hv => exact absurd hv hc
      | case2 | case3 | case4 =>
        simp only [List.mem_cons, List.not_mem_nil, or_false, forall_eq_or_imp, forall_eq,
          UInt8.toNat_ofNat']
        omega
    exact absurd (hhigh b h) (Nat.not_le.mpr hb)

theorem length_flatMap_utf8EncodeChar (cs : List Char) :
    (cs.flatMap String.utf8EncodeChar).length = byteSize cs := by
  induction cs with
  | nil => rfl
  | cons c cs ih =>
    rw [List.flatMap_cons, List.length_append, ih, String.length_utf8EncodeChar, byteSize_cons]

/-- A byte below 128 stands where its character does. -/
theorem getElem?_toUTF8_eq_some_iff {s : String} {i : Nat} (hb : b.toNat < 128) :
    s.toUTF8[i]? = some b ↔ ∃ rest, At s.toList i (Char.ofUInt8 b :: rest) := by
  rw [getElem?_toUTF8]
  generalize s.toList = cs
  constructor
  · intro h
    induction cs generalizing i with
    | nil => cases h
    | cons c cs ih =>
      rw [List.flatMap_cons, List.getElem?_append, String.length_utf8EncodeChar] at h
      split at h
      · rename_i hi
        obtain rfl := eq_ofUInt8_of_mem (List.mem_of_getElem? h) hb
        rw [← String.length_utf8EncodeChar, utf8EncodeChar_ofUInt8 hb, List.length_singleton,
          Nat.lt_one_iff] at hi
        exact ⟨cs, hi ▸ At.start _⟩
      · rename_i hi
        obtain ⟨rest, before, rfl, hbefore⟩ := ih h
        refine ⟨rest, c :: before, rfl, ?_⟩
        rw [byteSize_cons]
        omega
  · rintro ⟨rest, before, rfl, rfl⟩
    rw [List.flatMap_append, ← length_flatMap_utf8EncodeChar,
      List.getElem?_append_right (le_refl _), Nat.sub_self, List.flatMap_cons,
      utf8EncodeChar_ofUInt8 hb]
    rfl

end Text

namespace Piece

variable {c d : Char} {start : Nat} {cs rest run : List Char}

/-! ## Cutting bytes -/

/-- The number of the argument, if a placeholder starts at an index of some bytes. -/
def numberAt? (bytes : ByteArray) (index : Nat) : Option Nat := do
  let hash ← bytes[index]?
  let digit ← bytes[index + 1]?
  if hash = '#'.toUInt8 then argumentDigit? (Char.ofUInt8 digit) else none

/-- The text between two offsets as a piece, unless there is none. -/
def textBetween? (s : String) (start stop : Nat) : Option (List Piece) :=
  if start < stop then
    (String.fromUTF8? (s.toUTF8.extract start stop)).map fun run => [.text run.toList]
  else some []

/-- The pieces of a text from an index of its bytes on, with the text since an earlier offset still
to be cut off. -/
def cutFrom? (s : String) (start index : Nat) : Option (List Piece) :=
  if index < s.utf8ByteSize then
    match numberAt? s.toUTF8 index with
    | some k => do
      let before ← textBetween? s start index
      let after ← cutFrom? s (index + 2) (index + 2)
      return before ++ .argument k :: after
    | none => cutFrom? s start (index + 1)
  else textBetween? s start s.utf8ByteSize
termination_by s.utf8ByteSize - index

/-- Whether a placeholder starts at any index of the bytes of a text. -/
def isMarked (s : String) : Bool :=
  (List.range s.utf8ByteSize).any fun index => (numberAt? s.toUTF8 index).isSome

variable {s : String} {index k : Nat}

theorem argumentDigit?_eq_some_iff : argumentDigit? d = some k ↔
    49 ≤ d.toNat ∧ d.toNat ≤ 57 ∧ k = d.toNat - 48 := by
  rw [argumentDigit?_eq, Option.ite_none_right_eq_some, Char.le_def, Char.le_def,
    UInt32.le_iff_toNat_le, UInt32.le_iff_toNat_le, Option.some.injEq, and_assoc]
  exact and_congr_right fun _ => and_congr_right fun _ => eq_comm

theorem utf8Size_digit (h : argumentDigit? d = some k) : d.utf8Size = 1 := by
  rw [Char.utf8Size_eq_one_iff, UInt32.le_iff_toNat_le]
  have hle : d.toNat ≤ 57 := (argumentDigit?_eq_some_iff.mp h).2.1
  exact hle.trans (by decide)

/-- A placeholder is found in the bytes exactly where it stands in the text. -/
theorem numberAt?_eq_some_iff : numberAt? s.toUTF8 index = some k ↔
    ∃ d rest, At s.toList index ('#' :: d :: rest) ∧ argumentDigit? d = some k := by
  simp only [numberAt?, Option.bind_eq_bind, Option.bind_eq_some_iff, Option.ite_none_right_eq_some]
  constructor
  · rintro ⟨hash, hhash, digit, hdigit, rfl, hk⟩
    have hle : digit.toNat ≤ 57 := (argumentDigit?_eq_some_iff.mp hk).2.1
    obtain ⟨rest, hat⟩ := (Text.getElem?_toUTF8_eq_some_iff (by decide)).mp hhash
    obtain ⟨rest', hat'⟩ := (Text.getElem?_toUTF8_eq_some_iff (by omega)).mp hdigit
    obtain rfl := hat.cons.inj hat'
    exact ⟨_, rest', hat, hk⟩
  · rintro ⟨d, rest, hat, hk⟩
    have hle : d.toNat ≤ 57 := (argumentDigit?_eq_some_iff.mp hk).2.1
    have hsmall : d.toUInt8.toNat = d.toNat := Nat.mod_eq_of_lt (hle.trans_lt (by decide))
    have hd : Char.ofUInt8 d.toUInt8 = d := Char.toNat_inj.mp hsmall
    refine ⟨'#'.toUInt8, (Text.getElem?_toUTF8_eq_some_iff (by decide)).mpr ⟨_, hat⟩, d.toUInt8, ?_,
      rfl, ?_⟩
    · exact (Text.getElem?_toUTF8_eq_some_iff (by omega)).mpr ⟨rest, hd.symm ▸ hat.cons⟩
    · rwa [hd]

theorem textBetween?_eq (h : At s.toList start (run ++ rest)) :
    textBetween? s start (start + byteSize run) = some (if run = [] then [] else [.text run]) := by
  rw [textBetween?]
  cases run with
  | nil => simp
  | cons c run =>
    have hpos := c.utf8Size_pos
    have hrun : String.fromUTF8? (String.ofList (c :: run)).toUTF8 =
        some (String.ofList (c :: run)) := dif_pos (String.ofList (c :: run)).isValidUTF8
    rw [h.extract, hrun, if_pos (by rw [Text.byteSize_cons]; omega)]
    simp

/-- Bytes at which no placeholder starts are passed over. -/
theorem cutFrom?_skip (start : Nat) {n : Nat} (hle : index + n ≤ s.utf8ByteSize)
    (h : ∀ i, index ≤ i → i < index + n → numberAt? s.toUTF8 i = none) :
    cutFrom? s start index = cutFrom? s start (index + n) := by
  induction n generalizing index with
  | zero => rfl
  | succ n ih =>
    rw [cutFrom?, if_pos (by omega), h index (le_refl _) (by omega)]
    have hnext : cutFrom? s start (index + 1) = cutFrom? s start (index + 1 + n) :=
      ih (by omega) fun i hi hlt => h i (by omega) (by omega)
    rw [hnext, Nat.add_assoc, Nat.add_comm 1]

/-- A character that starts no placeholder is passed over with all its bytes. -/
theorem cutFrom?_char (start : Nat) (hat : At s.toList index (c :: rest))
    (h : ∀ d rest', c = '#' → rest = d :: rest' → argumentDigit? d = none) :
    cutFrom? s start index = cutFrom? s start (index + c.utf8Size) := by
  refine cutFrom?_skip start ?_ fun i hi hlt => ?_
  · rw [← Text.byteSize_toList, ← hat.cons.add_byteSize]
    exact Nat.le_add_right _ _
  · rw [Option.eq_none_iff_forall_ne_some]
    intro k hk
    obtain ⟨d, rest', hat', hd⟩ := numberAt?_eq_some_iff.mp hk
    obtain ⟨run, hrun, rfl⟩ := hat.exists_run hat' hi
    cases run with
    | nil =>
      obtain ⟨rfl, rfl⟩ := List.cons.inj hrun
      rw [h d rest' rfl rfl] at hd
      cases hd
    | cons c' run =>
      obtain ⟨rfl, -⟩ := List.cons.inj hrun
      rw [Text.byteSize_cons] at hlt
      omega

theorem cutFrom?_end (h : At s.toList start run) :
    cutFrom? s start (start + byteSize run) = some (run.foldr consChar []) := by
  have hstop : s.utf8ByteSize = start + byteSize run := by
    rw [h.add_byteSize, Text.byteSize_toList]
  rw [← List.append_nil run] at h
  rw [cutFrom?, if_neg (by omega), hstop, textBetween?_eq h, foldr_consChar_nil]

/-- Cutting bytes gives the pieces of the text, with what was passed over in front. -/
theorem cutFrom?_eq (h : At s.toList start (run ++ rest)) :
    cutFrom? s start (start + byteSize run) = some (run.foldr consChar (split rest)) := by
  fun_induction split rest generalizing start run with
  | case1 => exact cutFrom?_end (by rwa [List.append_nil] at h)
  | case2 c =>
    have hnext := cutFrom?_end h
    rw [Text.byteSize_append, List.foldr_append] at hnext
    rw [cutFrom?_char start h.append (by simp), Nat.add_assoc]
    exact hnext
  | case3 c d rest k hk ih =>
    obtain ⟨rfl, hd⟩ := Option.ite_none_right_eq_some.mp hk
    have hat : At s.toList (start + byteSize run) ('#' :: d :: rest) := h.append
    have hnumber : numberAt? s.toUTF8 (start + byteSize run) = some k :=
      numberAt?_eq_some_iff.mpr ⟨d, rest, hat, hd⟩
    have hlt : start + byteSize run < s.utf8ByteSize := by
      have hsize := hat.add_byteSize
      rw [Text.byteSize_toList, Text.byteSize_cons] at hsize
      have hpos := '#'.utf8Size_pos
      omega
    have hafter : At s.toList (start + byteSize run + 2) ([] ++ rest) := by
      have hrest := hat.cons.cons
      rwa [utf8Size_digit hd] at hrest
    have hrest : cutFrom? s (start + byteSize run + 2) (start + byteSize run + 2) =
        some (split rest) := ih hafter
    rw [cutFrom?, if_pos hlt, hnumber, foldr_consChar_argument]
    simp only [textBetween?_eq h, hrest]
    rfl
  | case4 c d rest hk ih =>
    have hnone : ∀ e rest', c = '#' → d :: rest = e :: rest' → argumentDigit? e = none := by
      rintro e rest' rfl heq
      obtain ⟨rfl, rfl⟩ := List.cons.inj heq
      exact hk
    have hat : At s.toList start ((run ++ [c]) ++ d :: rest) := by simpa using h
    have hnext := ih hat
    rw [Text.byteSize_append, List.foldr_append] at hnext
    rw [cutFrom?_char start h.append hnone, Nat.add_assoc]
    exact hnext

/-- Cutting bytes never goes through a character, and gives the pieces of the text. -/
theorem cutFrom?_zero (s : String) : cutFrom? s 0 0 = some (split s.toList) := by
  have hstart : At s.toList 0 ([] ++ s.toList) := At.start s.toList
  exact cutFrom?_eq hstart

/-! ## Which texts hold placeholders -/

/-- Whether a hash sign and a digit from 1 to 9 stand next to each other in a text. -/
def HasMarker (cs : List Char) : Prop := ∃ d, '1' ≤ d ∧ d ≤ '9' ∧ ['#', d] <:+: cs

theorem HasMarker.two_le_length (h : HasMarker cs) : 2 ≤ cs.length := by
  obtain ⟨d, -, -, hinside⟩ := h
  exact hinside.length_le

theorem isSome_argumentDigit?_iff : (argumentDigit? d).isSome = true ↔ '1' ≤ d ∧ d ≤ '9' := by
  rw [argumentDigit?_eq]
  split <;> simp_all

theorem hasMarker_cons_cons : HasMarker (c :: d :: rest) ↔
    c = '#' ∧ ('1' ≤ d ∧ d ≤ '9') ∨ HasMarker (d :: rest) := by
  constructor
  · rintro ⟨e, hle, hge, hinside⟩
    rcases List.infix_cons_iff.mp hinside with hfront | hinside
    · obtain ⟨rfl, hdigit⟩ := List.cons_prefix_cons.mp hfront
      obtain ⟨rfl, -⟩ := List.cons_prefix_cons.mp hdigit
      exact .inl ⟨rfl, hle, hge⟩
    · exact .inr ⟨e, hle, hge, hinside⟩
  · rintro (⟨rfl, hle, hge⟩ | ⟨e, hle, hge, hinside⟩)
    · exact ⟨d, hle, hge, [], rest, rfl⟩
    · exact ⟨e, hle, hge, List.infix_cons_iff.mpr (.inr hinside)⟩

theorem hasPlaceholder_iff : hasPlaceholder cs = true ↔ HasMarker cs := by
  fun_induction hasPlaceholder cs with
  | case1 c d rest ih =>
    rw [hasMarker_cons_cons, ← ih, ← isSome_argumentDigit?_iff]
    simp
  | case2 cs hshort =>
    refine iff_of_false Bool.false_ne_true fun hmarker => ?_
    rcases cs with _ | ⟨c, _ | ⟨d, rest⟩⟩
    · exact absurd hmarker.two_le_length (by simp)
    · exact absurd hmarker.two_le_length (by simp)
    · exact hshort c d rest rfl

/-- The test on bytes is the one on characters. -/
theorem isMarked_eq_hasPlaceholder (s : String) : isMarked s = hasPlaceholder s.toList := by
  rw [Bool.eq_iff_iff, hasPlaceholder_iff, isMarked, List.any_eq_true]
  simp only [List.mem_range, Option.isSome_iff_exists, numberAt?_eq_some_iff]
  constructor
  · rintro ⟨index, -, k, d, rest, ⟨before, hs, -⟩, hd⟩
    obtain ⟨hle, hge⟩ := isSome_argumentDigit?_iff.mp (Option.isSome_of_eq_some hd)
    exact ⟨d, hle, hge, before, rest, by simp [hs]⟩
  · rintro ⟨d, hle, hge, before, rest, hs⟩
    obtain ⟨k, hk⟩ := Option.isSome_iff_exists.mp (isSome_argumentDigit?_iff.mpr ⟨hle, hge⟩)
    have hat : At s.toList (byteSize before) ('#' :: d :: rest) := ⟨before, by simp [← hs], rfl⟩
    refine ⟨byteSize before, ?_, k, d, rest, hat, hk⟩
    have hsize := hat.add_byteSize
    have hpos := '#'.utf8Size_pos
    rw [Text.byteSize_toList, Text.byteSize_cons] at hsize
    omega

/-- Whether a piece is text. -/
def IsText (p : Piece) : Prop := ∃ run, p = .text run

/-- A character joins the text that pieces start with, or is a text of its own. -/
theorem consChar_cases (c : Char) (pieces : List Piece) :
    (∃ run rest, pieces = .text run :: rest ∧ consChar c pieces = .text (c :: run) :: rest) ∨
      (∀ p ∈ pieces.head?, ¬ p.IsText) ∧ consChar c pieces = .text [c] :: pieces := by
  rcases pieces with _ | ⟨run | k, rest⟩
  · exact .inr ⟨by simp, rfl⟩
  · exact .inl ⟨run, rest, rfl, rfl⟩
  · exact .inr ⟨by simp [IsText], rfl⟩

theorem argument_mem_consChar {pieces : List Piece} :
    .argument k ∈ consChar c pieces ↔ .argument k ∈ pieces := by
  obtain ⟨run, rest, rfl, heq⟩ | ⟨-, heq⟩ := consChar_cases c pieces
  · simp [heq]
  · simp [heq]

/-- A text has placeholders exactly if some of its pieces are. -/
theorem hasPlaceholder_iff_exists_argument :
    hasPlaceholder cs = true ↔ ∃ k, .argument k ∈ split cs := by
  fun_induction split cs with
  | case1 | case2 => simp [hasPlaceholder]
  | case3 c d rest k hk ih =>
    obtain ⟨rfl, hd⟩ := Option.ite_none_right_eq_some.mp hk
    exact iff_of_true (by simp [hasPlaceholder, hd]) ⟨k, List.mem_cons_self⟩
  | case4 c d rest hk ih =>
    have hnot : (c == '#' && (argumentDigit? d).isSome) = false := by
      split at hk <;> simp_all
    rw [hasPlaceholder, hnot, Bool.false_or, ih]
    exact exists_congr fun k => argument_mem_consChar.symm

/-! ## What the pieces of a text are -/

/-- A piece as it is written. -/
def chars : Piece → List Char
  | .text run => run
  | .argument k => '#' :: (toString k).toList

/-- What a piece may be: text without placeholders, or an argument with a number of one digit. -/
def Sound : Piece → Prop
  | .text run => run ≠ [] ∧ ¬ HasMarker run
  | .argument k => 1 ≤ k ∧ k ≤ 9

/-- Pieces that a text splits into around its placeholders. -/
structure IsSplitting (text : List Char) (pieces : List Piece) : Prop where
  /-- Written one after the other they give the text. -/
  written : pieces.flatMap chars = text
  sound : ∀ p ∈ pieces, p.Sound
  apart : pieces.IsChain fun p q => ¬ (p.IsText ∧ q.IsText)

theorem toString_digit (h : argumentDigit? d = some k) : (toString k).toList = [d] := by
  obtain ⟨hle, hge, rfl⟩ := argumentDigit?_eq_some_iff.mp h
  have hdigits : ∀ k < 10, (toString k).toList = [Char.ofNat (k + 48)] := by decide
  rw [hdigits _ (by omega), Nat.sub_add_cancel (by omega), Char.ofNat_toNat]

namespace IsSplitting

variable {text : List Char} {pieces : List Piece}

protected theorem nil : IsSplitting [] [] := ⟨rfl, List.forall_mem_nil _, .nil⟩

protected theorem argument (h : IsSplitting text pieces) (hd : argumentDigit? d = some k) :
    IsSplitting ('#' :: d :: text) (.argument k :: pieces) := by
  refine ⟨?_, List.forall_mem_cons.mpr ⟨?_, h.sound⟩, List.isChain_cons.mpr ⟨?_, h.apart⟩⟩
  · rw [List.flatMap_cons, h.written, chars, toString_digit hd]
    rfl
  · have := argumentDigit?_eq_some_iff.mp hd
    rw [Sound]
    omega
  · rintro q - ⟨⟨run, hrun⟩, -⟩
    cases hrun

protected theorem text (h : IsSplitting text pieces) (hne : run ≠ []) (hrun : ¬ HasMarker run)
    (hfirst : ∀ p ∈ pieces.head?, ¬ p.IsText) :
    IsSplitting (run ++ text) (.text run :: pieces) := by
  refine ⟨?_, List.forall_mem_cons.mpr ⟨⟨hne, hrun⟩, h.sound⟩,
    List.isChain_cons.mpr ⟨fun q hq hboth => hfirst q hq hboth.2, h.apart⟩⟩
  rw [List.flatMap_cons, h.written, chars]

/-- A character in front of a text makes no placeholder but with the character after it. -/
protected theorem consChar (h : IsSplitting text pieces)
    (hc : ∀ d ∈ text.head?, c = '#' → argumentDigit? d = none) :
    IsSplitting (c :: text) (consChar c pieces) := by
  obtain ⟨run, rest, rfl, heq⟩ | ⟨hfirst, heq⟩ := consChar_cases c pieces
  · obtain ⟨⟨hne, hrun⟩, hsound⟩ := List.forall_mem_cons.mp h.sound
    have hmarker : ¬ HasMarker (c :: run) := by
      obtain ⟨d, run, rfl⟩ := List.exists_cons_of_ne_nil hne
      rw [hasMarker_cons_cons, ← isSome_argumentDigit?_iff]
      rintro (⟨hhash, hdigit⟩ | hmarker)
      · have hhead : text.head? = some d := by
          rw [← h.written]
          rfl
        rw [hc d hhead hhash] at hdigit
        cases hdigit
      · exact hrun hmarker
    have hfirst : ∀ q ∈ rest.head?, ¬ q.IsText := fun q hq htext =>
      (List.isChain_cons.mp h.apart).1 q hq ⟨⟨run, rfl⟩, htext⟩
    have hrest : IsSplitting (rest.flatMap chars) rest := ⟨rfl, hsound, h.apart.tail⟩
    rw [heq, ← h.written]
    exact hrest.text (List.cons_ne_nil c run) hmarker hfirst
  · rw [heq]
    exact h.text (List.cons_ne_nil c [])
      (fun hmarker => absurd hmarker.two_le_length (by simp)) hfirst

end IsSplitting

theorem isSplitting_split (cs : List Char) : IsSplitting cs (split cs) := by
  fun_induction split cs with
  | case1 => exact .nil
  | case2 c => exact IsSplitting.nil.consChar (by simp)
  | case3 c d rest k hk ih =>
    obtain ⟨rfl, hd⟩ := Option.ite_none_right_eq_some.mp hk
    exact ih.argument hd
  | case4 c d rest hk ih =>
    refine ih.consChar ?_
    rintro e he rfl
    obtain rfl := Option.some.inj he
    exact hk

/-- Splitting a text around its placeholders loses nothing and misses nothing. The pieces can be cut
out of its bytes, and no cut goes through a character. -/
theorem split_faithful (s : String) :
    cutFrom? s 0 0 = some (split s.toList) ∧ IsSplitting s.toList (split s.toList) ∧
      (hasPlaceholder s.toList = true ↔ ∃ k, .argument k ∈ split s.toList) ∧
      isMarked s = hasPlaceholder s.toList :=
  ⟨cutFrom?_zero s, isSplitting_split s.toList, hasPlaceholder_iff_exists_argument,
    isMarked_eq_hasPlaceholder s⟩

/-- Hash signs in a row, and one without a digit after a letter of two bytes. -/
example : cutFrom? "##1#2é#" 0 0 =
    some [.text ['#'], .argument 1, .argument 2, .text ['é', '#']] := by
  decide +kernel

end Piece

end Formulary
