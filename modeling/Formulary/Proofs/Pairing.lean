import Formulary.Proofs.Rescanning

/-!
# Delimiters in pairs

The scanner tries to read a region at every dollar and goes back when it cannot. What it finds can be
said without trying anything. A document is read once from left to right into atoms; its delimiters
are the atoms that are dollars, and they are paired up one after the other. A last one without a
partner is text.

* `atoms`, `marks`, `pairs`: the delimiters of a document in pairs.
* `layout`: the segments that the pairs cut out of a document.
* `scanFrom_eq_pairing`: scanning gives these segments, or finds fault with the first pair of two
  different delimiters.
-/

namespace Formulary

open Text (byteSize)

/-! ## Slices of a text -/

namespace Text

/-- A text without its first bytes. -/
def dropBytes : Nat → List Char → List Char
  | 0, cs => cs
  | _ + 1, [] => []
  | n + 1, c :: cs => dropBytes (n + 1 - c.utf8Size) cs

/-- The first bytes of a text. -/
def takeBytes : Nat → List Char → List Char
  | 0, _ => []
  | _ + 1, [] => []
  | n + 1, c :: cs => c :: takeBytes (n + 1 - c.utf8Size) cs

/-- The part of a text that a span covers. -/
def slice (text : List Char) (p : Span) : List Char := takeBytes p.length (dropBytes p.start text)

theorem byteSize_pos (c : Char) (cs : List Char) : 0 < byteSize (c :: cs) :=
  Nat.add_pos_left c.utf8Size_pos _

theorem dropBytes_append (run rest : List Char) : dropBytes (byteSize run) (run ++ rest) = rest := by
  induction run with
  | nil => simp [dropBytes]
  | cons c run ih =>
    obtain ⟨n, hn⟩ := Nat.exists_eq_add_one.mpr (byteSize_pos c run)
    rw [hn, List.cons_append, dropBytes, ← hn, byteSize_cons, Nat.add_sub_cancel_left, ih]

theorem takeBytes_append {run : List Char} {n : Nat} (rest : List Char) (h : byteSize run ≤ n) :
    takeBytes n (run ++ rest) = run ++ takeBytes (n - byteSize run) rest := by
  induction run generalizing n with
  | nil => rfl
  | cons c run ih =>
    obtain ⟨m, rfl⟩ := Nat.exists_eq_add_one.mpr (Nat.lt_of_lt_of_le (byteSize_pos c run) h)
    rw [byteSize_cons] at h ⊢
    rw [List.cons_append, takeBytes, ih (Nat.le_sub_of_add_le' h), Nat.sub_sub, List.cons_append]

theorem takeBytes_zero (cs : List Char) : takeBytes 0 cs = [] := by
  rw [takeBytes]

end Text

variable {source text run rest cs : List Char} {offset stop : Nat} {c : Char} {d : Delimiter}

theorem At.dropBytes (h : At source offset text) : Text.dropBytes offset source = text := by
  obtain ⟨before, rfl, rfl⟩ := h
  exact Text.dropBytes_append before text

/-- A slice that starts where a run does and goes on after it. -/
theorem At.slice_append (h : At source offset (run ++ rest)) (hstop : offset + byteSize run ≤ stop) :
    Text.slice source ⟨offset, stop⟩ = run ++ Text.slice source ⟨offset + byteSize run, stop⟩ := by
  rw [Text.slice, Text.slice, h.dropBytes, h.append.dropBytes, Span.length, Span.length,
    Text.takeBytes_append rest (Nat.le_sub_of_add_le' hstop), Nat.sub_sub]

theorem At.slice (h : At source offset (run ++ rest)) :
    Text.slice source ⟨offset, offset + byteSize run⟩ = run := by
  rw [h.slice_append (Nat.le_refl _), Text.slice, Span.length, Nat.sub_self, Text.takeBytes_zero,
    List.append_nil]

/-! ## Atoms and delimiters -/

/-- What a document is made of: a backslash with the character after it, a backslash with none, a
delimiter, or any other character. -/
inductive Atom where
  | escape (c : Char)
  | backslash
  | delimiter (d : Delimiter)
  | plain (c : Char)
  deriving DecidableEq, Repr

/-- An atom as it is written. -/
def Atom.chars : Atom → List Char
  | .escape c => ['\\', c]
  | .backslash => ['\\']
  | .delimiter d => d.text.toList
  | .plain c => [c]

/-- The atoms of a text from left to right. Two dollars in a row are one delimiter. -/
def atoms : List Char → List Atom
  | [] => []
  | '\\' :: c :: rest => .escape c :: atoms rest
  | ['\\'] => [.backslash]
  | '$' :: '$' :: rest => .delimiter .display :: atoms rest
  | '$' :: rest => .delimiter .inline :: atoms rest
  | c :: rest => .plain c :: atoms rest

/-- A delimiter and where it stands. -/
structure Mark where
  delimiter : Delimiter
  place : Span
  deriving DecidableEq, Repr

/-- The delimiters among atoms that are written from an offset on. -/
def marksFrom : Nat → List Atom → List Mark
  | _, [] => []
  | offset, .delimiter d :: rest =>
    let stop := offset + byteSize (Atom.delimiter d).chars
    ⟨d, ⟨offset, stop⟩⟩ :: marksFrom stop rest
  | offset, a :: rest => marksFrom (offset + byteSize a.chars) rest

/-- The delimiters of a document. -/
def marks (document : String) : List Mark := marksFrom 0 (atoms document.toList)

/-- The members of a list two by two. A last one without a partner is left out. -/
def pairs {α : Type} : List α → List (α × α)
  | a :: b :: rest => (a, b) :: pairs rest
  | _ => []

theorem atoms_plain (h : isScannerSign c = false) (rest : List Char) :
    atoms (c :: rest) = .plain c :: atoms rest := by
  obtain ⟨hdollar, hbackslash⟩ := isScannerSign_eq_false_iff.mp h
  rw [atoms.eq_def]
  split <;> simp_all

theorem atoms_delimiter (h : d = .inline → rest.head? ≠ some '$') :
    atoms (d.text.toList ++ rest) = .delimiter d :: atoms rest := by
  cases d with
  | display => rfl
  | inline =>
    have hrest := h rfl
    cases rest with
    | nil => rfl
    | cons c rest =>
      have hc : c ≠ '$' := fun hc => hrest (congrArg some hc)
      exact atoms.eq_5 (c :: rest) fun more hmore => hc (List.cons.inj hmore).1

theorem marksFrom_delimiter (offset : Nat) (rest : List Char)
    (h : d = .inline → rest.head? ≠ some '$') :
    marksFrom offset (atoms (d.text.toList ++ rest)) =
      ⟨d, ⟨offset, offset + d.text.utf8ByteSize⟩⟩ ::
        marksFrom (offset + d.text.utf8ByteSize) (atoms rest) := by
  rw [atoms_delimiter h, marksFrom, Atom.chars, Text.byteSize_toList]

/-- There is no delimiter in sealed text, and what follows it is read as if it stood alone. -/
theorem Sealed.marksFrom (h : Sealed run) (offset : Nat) (rest : List Char) :
    marksFrom offset (atoms (run ++ rest)) = marksFrom (offset + byteSize run) (atoms rest) := by
  induction h generalizing offset with
  | nil => rfl
  | cons hc _ ih =>
    rw [List.cons_append, atoms_plain hc, Formulary.marksFrom, ih]
    · simp [Atom.chars, Nat.add_assoc]
    · simp
  | escape c _ ih =>
    rw [List.cons_append, List.cons_append, atoms, Formulary.marksFrom, ih]
    · simp [Atom.chars, Nat.add_assoc]
    · simp

theorem Bare.marksFrom (h : Bare text) (offset : Nat) : marksFrom offset (atoms text) = [] := by
  induction h generalizing offset with
  | nil | backslash => rfl
  | cons hc _ ih =>
    rw [atoms_plain hc, Formulary.marksFrom, ih]
    simp
  | escape c _ ih =>
    rw [atoms, Formulary.marksFrom, ih]
    simp

/-- Delimiters stand one after the other. -/
theorem le_of_mem_marksFrom {as : List Atom} {m : Mark} (h : m ∈ marksFrom offset as) :
    offset ≤ m.place.start ∧ m.place.start ≤ m.place.stop := by
  fun_induction marksFrom offset as with
  | case1 => cases h
  | case2 offset d rest stop ih =>
    rcases List.mem_cons.mp h with rfl | h
    · exact ⟨Nat.le_refl _, Nat.le_add_right _ _⟩
    · exact ⟨Nat.le_trans (Nat.le_add_right _ _) (ih h).1, (ih h).2⟩
  | case3 offset a rest _ ih => exact ⟨Nat.le_trans (Nat.le_add_right _ _) (ih h).1, (ih h).2⟩

theorem mem_of_mem_pairs {α : Type} {xs : List α} {p : α × α} (h : p ∈ pairs xs) : p.1 ∈ xs := by
  fun_induction pairs xs with
  | case1 a b rest ih =>
    rcases List.mem_cons.mp h with rfl | h
    · exact List.mem_cons_self
    · exact List.mem_cons_of_mem _ (List.mem_cons_of_mem _ (ih h))
  | case2 => cases h

/-! ## Segments -/

/-- The text between two offsets as a segment, if there is any. -/
def stretch (source : List Char) (start stop : Nat) : List Segment :=
  if start < stop then [.text (String.ofList (Text.slice source ⟨start, stop⟩))] else []

/-- The segments of a document from an offset on: a formula for each pair of delimiters, and the text
before, between and after them. -/
def layout (source : List Char) : Nat → List (Mark × Mark) → List Segment
  | offset, [] => stretch source offset (byteSize source)
  | offset, (first, last) :: rest =>
    let place : Span := ⟨first.place.stop, last.place.start⟩
    stretch source offset first.place.start ++
      .math first.delimiter (String.ofList (Text.slice source place)) place ::
        layout source last.place.stop rest

theorem stretch_self (source : List Char) (offset : Nat) : stretch source offset offset = [] :=
  if_neg (Nat.lt_irrefl offset)

/-- A run at the start of a stretch, and what follows the stretch. -/
theorem At.stretch_append (h : At source offset (run ++ rest)) (hne : run ≠ [])
    (hstop : offset + byteSize run ≤ stop) (segments : List Segment)
    (hsegments : ∀ next others, segments ≠ .text next :: others) :
    stretch source offset stop ++ segments =
      Segment.consText run (stretch source (offset + byteSize run) stop ++ segments) := by
  obtain ⟨c, cs, rfl⟩ := List.exists_cons_of_ne_nil hne
  have hpos := Text.byteSize_pos c cs
  rw [stretch, if_pos (by omega), h.slice_append hstop, stretch]
  split
  · rw [String.ofList_append]
    rfl
  · rename_i hlt
    obtain rfl : stop = offset + byteSize (c :: cs) := by omega
    rw [Text.slice, Span.length, Nat.sub_self, Text.takeBytes_zero, List.append_nil]
    rcases segments with _ | ⟨next | ⟨d, content, span⟩, others⟩
    · rfl
    · exact absurd rfl (hsegments next others)
    · rfl

/-- A run of text at the start joins the text that follows it. -/
theorem At.layout_append (h : At source offset (run ++ rest)) (hne : run ≠ [])
    (ps : List (Mark × Mark)) (hps : ∀ p ∈ ps, offset + byteSize run ≤ p.1.place.start) :
    layout source offset ps = Segment.consText run (layout source (offset + byteSize run) ps) := by
  cases ps with
  | nil =>
    have hle : offset + byteSize run ≤ byteSize source := by
      rw [← h.append.add_byteSize]
      exact Nat.le_add_right _ _
    have happend := h.stretch_append hne hle [] (by simp)
    rwa [List.append_nil, List.append_nil] at happend
  | cons p ps =>
    rw [layout, layout]
    exact h.stretch_append hne (hps p List.mem_cons_self) _ (by simp)

/-! ## Scanning -/

theorem pairs_marksFrom_dollar (h : Bare cs ∨ ∃ inner, cs = '$' :: inner ∧ Bare inner)
    (offset : Nat) :
    pairs (marksFrom offset (atoms ('$' :: cs))) = [] ∧ pairs (marksFrom offset (atoms cs)) = [] := by
  -- A dollar before bare text is one delimiter, with another dollar or not.
  have hsingle : ∀ {inner : List Char} (offset : Nat), Bare inner →
      pairs (marksFrom offset (atoms ('$' :: inner))) = [] := by
    intro inner offset hbare
    have hhead : inner.head? ≠ some '$' := by
      intro hhead
      obtain ⟨more, rfl⟩ := List.head?_eq_some_iff.mp hhead
      exact Sealed.nil.not_bare more hbare
    have hmarks := marksFrom_delimiter (d := .inline) offset inner fun _ => hhead
    rw [hbare.marksFrom] at hmarks
    exact congrArg pairs hmarks
  rcases h with hbare | ⟨inner, rfl, hbare⟩
  · exact ⟨hsingle offset hbare, by rw [hbare.marksFrom]; rfl⟩
  · refine ⟨?_, hsingle offset hbare⟩
    have hmarks := marksFrom_delimiter (d := .display) offset inner (by simp)
    rw [hbare.marksFrom] at hmarks
    exact congrArg pairs hmarks

/-- Where no region can be read, a piece of text has no part in a pair. -/
theorem pairs_textPiece (h : Region.read? (c :: cs) = none) (offset : Nat) :
    pairs (marksFrom offset (atoms (c :: cs))) =
      pairs (marksFrom (offset + byteSize (textPiece c cs).1) (atoms (textPiece c cs).2)) := by
  by_cases hdollar : c = '$'
  · subst hdollar
    have hbare := Region.bare_of_read? h
    rw [textPiece_dollar, (pairs_marksFrom_dollar hbare offset).1,
      (pairs_marksFrom_dollar hbare _).2]
  · -- Anything else that is passed over is sealed, or a backslash at the end.
    by_cases hbackslash : c = '\\'
    · subst hbackslash
      cases cs with
      | nil => rfl
      | cons d rest => exact congrArg pairs ((Sealed.escape d .nil).marksFrom offset rest)
    · have hsign := isScannerSign_eq_false_iff.mpr ⟨hdollar, hbackslash⟩
      have hrun : ∀ run : List Char, (∀ d ∈ run, isScannerSign d = false) → Sealed run := by
        intro run hrun
        induction run with
        | nil => exact .nil
        | cons d run ih =>
          rw [List.forall_mem_cons] at hrun
          exact .cons hrun.1 (ih hrun.2)
      have hsealed : Sealed (textPiece c cs).1 := by
        unfold textPiece
        rw [if_neg (by simp [hsign])]
        refine .cons hsign (hrun _ fun d hd => ?_)
        simpa using List.mem_takeWhile_imp hd
      rw [← hsealed.marksFrom, textPiece_append]

/-- The delimiters of a region are the first pair of the text that starts with it. -/
theorem pairs_of_read? {r : Region} (h : Region.read? text = some r) (offset : Nat) :
    let start := offset + r.opening.text.utf8ByteSize
    let stop := start + byteSize r.content
    let next := stop + r.closing.text.utf8ByteSize
    pairs (marksFrom offset (atoms text)) =
      (⟨r.opening, ⟨offset, start⟩⟩, ⟨r.closing, ⟨stop, next⟩⟩) ::
        pairs (marksFrom next (atoms r.rest)) := by
  obtain ⟨htext, hsealed, hcontent, hrest⟩ := Region.read?_sound h
  have hopening : r.opening = .inline →
      (r.content ++ (r.closing.text.toList ++ r.rest)).head? ≠ some '$' := by
    intro hinline
    rw [List.head?_append_of_ne_nil _ (hcontent hinline)]
    exact hsealed.head?_ne
  rw [htext, marksFrom_delimiter offset _ hopening, hsealed.marksFrom, marksFrom_delimiter _ _ hrest]
  rfl

/-- Whether the delimiters of a pair differ. -/
def mismatched (p : Mark × Mark) : Bool := p.1.delimiter != p.2.delimiter

/-- A scan goes by the pairs of delimiters in the text that is left. -/
theorem scanFrom_eq_pairing (hat : At source offset text) :
    scanFrom offset text =
      match (pairs (marksFrom offset (atoms text))).find? mismatched with
      | some (first, last) =>
        .error ⟨first.delimiter, last.delimiter, first.place, last.place⟩
      | none => .ok (layout source offset (pairs (marksFrom offset (atoms text)))) := by
  induction offset, text using scanFrom_induction with
  | nil offset =>
    have hend := hat.add_byteSize
    rw [Text.byteSize_nil, Nat.add_zero] at hend
    rw [scanFrom_nil, atoms, marksFrom, pairs, layout, ← hend, stretch_self]
    · rfl
    · simp
  | region offset text r h ih =>
    obtain ⟨hstart, hstop, hnext⟩ := hat.region h
    rw [scanFrom_of_read? offset h, pairs_of_read? h, List.find?_cons, mismatched]
    dsimp only
    rw [ih hnext]
    by_cases hsame : r.opening = r.closing
    · rw [if_pos hsame, bne_eq_false_iff_eq.mpr hsame, layout, stretch_self, hstart.slice]
      dsimp only
      cases (pairs (marksFrom _ (atoms r.rest))).find? mismatched <;> rfl
    · rw [if_neg hsame, bne_iff_ne.mpr hsame]
  | piece offset c cs h ih =>
    rw [← textPiece_append c cs] at hat
    rw [scanFrom_of_none offset h, ih hat.append, pairs_textPiece h offset]
    have hne : (textPiece c cs).1 ≠ [] := by
      unfold textPiece
      split
      · split
        · split <;> simp
        · simp
      · simp
    have hlayout := hat.layout_append hne (pairs (marksFrom _ (atoms (textPiece c cs).2)))
      fun p hp => (le_of_mem_marksFrom (mem_of_mem_pairs hp)).1
    rw [hlayout]
    cases (pairs (marksFrom _ (atoms (textPiece c cs).2))).find? mismatched <;> rfl

/-- The scan of a document is what its delimiters in pairs say. If the delimiters of a pair differ,
the scan fails, and points at the closing and the opening delimiter of the first such pair.
Otherwise the formulas are what stands between the delimiters of the pairs, the other segments are
the text around them, and written one after the other they give the document. -/
theorem scan_eq_pairing (document : String) :
    match (pairs (marks document)).find? mismatched with
    | some (first, last) => ∃ m, scan document = .error m ∧
        m.diagnostic.code = some .mismatchedDelimiters ∧
        m.diagnostic.labels.map (fun label => (label.span, label.isPrimary)) =
          [(last.place, true), (first.place, false)]
    | none => ∃ segments, scan document = .ok segments ∧
        segments = layout document.toList 0 (pairs (marks document)) ∧
        Segment.chars segments = document.toList := by
  have hscan := scanFrom_eq_pairing (At.start document.toList)
  change scan document = _ at hscan
  rw [marks]
  rcases hfind : (pairs (marksFrom 0 (atoms document.toList))).find? mismatched with
    _ | ⟨first, last⟩
  · rw [hfind] at hscan
    exact ⟨_, hscan, rfl, chars_of_scanFrom hscan⟩
  · rw [hfind] at hscan
    exact ⟨_, hscan, rfl, rfl⟩

/-- The first of four dollars is escaped, and the other three are two different delimiters. -/
example : (pairs (marks r"\$$$$")).find? mismatched =
    some (⟨.display, ⟨2, 4⟩⟩, ⟨.inline, ⟨4, 5⟩⟩) := by
  decide +kernel

end Formulary
