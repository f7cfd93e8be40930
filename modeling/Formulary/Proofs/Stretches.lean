import Formulary.Proofs.Reading

/-!
# Stretches of a text

The readers go through a text from left to right and hand out places in it. Every place is a stretch
between two boundaries of characters.

* `At`: how far reading a text has come.
* `Span.Within`: the stretches of a text, closed under the operations on spans.
* `Span.Holds`: what stands at a stretch.
-/

namespace Formulary

open Text (byteSize)

variable {rest source piece run : List Char} {c : Char}

theorem Text.utf8ByteSize_ofList (cs : List Char) :
    (String.ofList cs).utf8ByteSize = byteSize cs := by
  induction cs with
  | nil => rfl
  | cons c cs ih =>
    rw [String.ofList_cons, String.utf8ByteSize_append, String.utf8ByteSize_singleton, ih,
      Text.byteSize_cons]

theorem Text.byteSize_toList (s : String) : byteSize s.toList = s.utf8ByteSize := by
  rw [← Text.utf8ByteSize_ofList, String.ofList_toList]

/-- Reading a source has come to an offset, with a text left. -/
def At (source : List Char) (offset : Nat) (text : List Char) : Prop :=
  ∃ before, source = before ++ text ∧ offset = byteSize before

namespace At

variable {source text text' : List Char} {offset offset' : Nat}

theorem start (source : List Char) : At source 0 source := ⟨[], rfl, rfl⟩

theorem append (h : At source offset (run ++ rest)) : At source (offset + byteSize run) rest := by
  obtain ⟨before, hsource, hoffset⟩ := h
  refine ⟨before ++ run, ?_, ?_⟩
  · rw [hsource, List.append_assoc]
  · rw [hoffset, Text.byteSize_append]

theorem cons (h : At source offset (c :: rest)) : At source (offset + c.utf8Size) rest := by
  have hrun : At source offset ([c] ++ rest) := h
  exact hrun.append

/-- Reading goes on after a run of characters of one kind. -/
theorem dropWhile {cs : List Char} (h : At source offset (c :: cs)) (p : Char → Bool) :
    At source (offset + byteSize (c :: cs.takeWhile p)) (cs.dropWhile p) := by
  rw [← List.takeWhile_append_dropWhile (p := p) (l := cs), ← List.cons_append] at h
  exact h.append

/-- The offset and what is left make up the whole text. -/
theorem add_byteSize (h : At source offset text) : offset + byteSize text = byteSize source := by
  obtain ⟨before, rfl, rfl⟩ := h
  rw [Text.byteSize_append]

/-- The less text is left, the larger the offset. -/
theorem le (h : At source offset text) (h' : At source offset' text')
    (hlength : text'.length ≤ text.length) : offset ≤ offset' := by
  obtain ⟨before, hsource, rfl⟩ := h
  obtain ⟨before', hsource', rfl⟩ := h'
  have hbefore : before <+: before' := by
    refine List.prefix_of_prefix_length_le ⟨text, hsource.symm⟩ ⟨text', hsource'.symm⟩ ?_
    have hlengths := congrArg List.length (hsource.symm.trans hsource')
    simp only [List.length_append] at hlengths
    omega
  obtain ⟨more, rfl⟩ := hbefore
  rw [Text.byteSize_append]
  omega

/-- Reading comes from an offset to a larger one by a run of characters. -/
theorem exists_run (h : At source offset text) (h' : At source offset' text')
    (hle : offset ≤ offset') : ∃ run, text = run ++ text' ∧ offset' = offset + byteSize run := by
  obtain ⟨before, hsource, rfl⟩ := h
  obtain ⟨before', hsource', rfl⟩ := h'
  have hbefore : before <+: before' := by
    rcases List.prefix_or_prefix_of_prefix ⟨text, hsource.symm⟩ ⟨text', hsource'.symm⟩ with
      hfront | ⟨more, rfl⟩
    · exact hfront
    · cases more with
      | nil => exact ⟨[], by simp⟩
      | cons c more =>
        have hpos := c.utf8Size_pos
        rw [Text.byteSize_append, Text.byteSize_cons] at hle
        omega
  obtain ⟨run, rfl⟩ := hbefore
  refine ⟨run, ?_, Text.byteSize_append before run⟩
  rw [hsource, List.append_assoc] at hsource'
  exact List.append_cancel_left hsource'

/-- A text goes on in one way from an offset. -/
theorem inj (h : At source offset text) (h' : At source offset text') : text = text' := by
  obtain ⟨run, rfl, hrun⟩ := h.exists_run h' (Nat.le_refl _)
  cases run with
  | nil => rfl
  | cons c run =>
    have hpos := c.utf8Size_pos
    rw [Text.byteSize_cons] at hrun
    omega

end At

/-- A stretch of a text: its start is not after its stop, and both are boundaries of characters. -/
def Span.Within (source : List Char) (p : Span) : Prop :=
  p.start ≤ p.stop ∧ (∃ text, At source p.start text) ∧ ∃ text, At source p.stop text

namespace Span.Within

variable {source : List Char} {p q : Span}

theorem of_at {text text' : List Char} {start stop : Nat} (h : At source start text)
    (h' : At source stop text') (hlength : text'.length ≤ text.length) :
    Within source ⟨start, stop⟩ :=
  ⟨h.le h' hlength, ⟨text, h⟩, ⟨text', h'⟩⟩

theorem point {text : List Char} {offset : Nat} (h : At source offset text) :
    Within source (Span.point offset) :=
  of_at h h (Nat.le_refl _)

/-- Two stretches of a text span one. -/
theorem union (hp : Within source p) (hq : Within source q) : Within source (p.union q) := by
  refine ⟨?_, ?_, ?_⟩
  · have hp := hp.1
    have hq := hq.1
    simp only [Span.union]
    omega
  · rcases Nat.le_total p.start q.start with hle | hle
    · rw [Span.union, Nat.min_eq_left hle]
      exact hp.2.1
    · rw [Span.union, Nat.min_eq_right hle]
      exact hq.2.1
  · rcases Nat.le_total p.stop q.stop with hle | hle
    · rw [Span.union, Nat.max_eq_right hle]
      exact hq.2.2
    · rw [Span.union, Nat.max_eq_left hle]
      exact hp.2.2

theorem start (h : Within source p) : Within source (Span.point p.start) :=
  ⟨Nat.le_refl _, h.2.1, h.2.1⟩

theorem stop (h : Within source p) : Within source (Span.point p.stop) :=
  ⟨Nat.le_refl _, h.2.2, h.2.2⟩

theorem take (h : Within source p) : Within source (p.take 0) := by
  rw [Span.take, Nat.add_zero, Nat.min_eq_left h.1]
  exact h.start

end Span.Within

/-- A stretch of a text at which a piece of it stands, from one boundary of characters to another. -/
def Span.Holds (source : List Char) (p : Span) (piece : List Char) : Prop :=
  (∃ rest, At source p.start (piece ++ rest)) ∧ p.stop = p.start + byteSize piece

theorem Span.Holds.of_at {start : Nat} (h : At source start (piece ++ rest)) :
    Span.Holds source ⟨start, start + byteSize piece⟩ piece :=
  ⟨⟨rest, h⟩, rfl⟩

theorem Span.Holds.first {start : Nat} (h : At source start (c :: rest)) :
    Span.Holds source ⟨start, start + c.utf8Size⟩ [c] :=
  ⟨⟨rest, h⟩, rfl⟩

theorem Span.Holds.within {p : Span} (h : p.Holds source piece) : p.Within source := by
  obtain ⟨⟨rest, hat⟩, hstop⟩ := h
  exact ⟨hstop ▸ Nat.le_add_right _ _, ⟨_, hat⟩, ⟨rest, hstop ▸ hat.append⟩⟩

/-- The bytes of a stretch are those of what stands there. -/
theorem At.extract {s : String} {start : Nat} (h : At s.toList start (run ++ rest)) :
    s.toUTF8.extract start (start + byteSize run) = (String.ofList run).toUTF8 := by
  obtain ⟨before, hs, rfl⟩ := h
  have hskip := ByteArray.extract_append_size_add (a := (String.ofList before).toByteArray)
    (b := (String.ofList (run ++ rest)).toByteArray) (i := 0) (j := byteSize run)
  rw [← String.toByteArray_append, ← String.ofList_append, ← hs, String.ofList_toList, Nat.add_zero,
    String.size_toByteArray, Text.utf8ByteSize_ofList, String.ofList_append,
    String.toByteArray_append, ByteArray.extract_append_eq_left] at hskip
  · exact hskip
  · rw [String.size_toByteArray, Text.utf8ByteSize_ofList]

end Formulary
