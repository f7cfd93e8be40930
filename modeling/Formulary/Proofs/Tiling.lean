import Formulary.Proofs.Building

/-!
# Tilings

Reading cuts a text into pieces that follow each other without gaps. An element stands for a stretch
that has its own symbols at either end and the stretches of its parts between (`Element.Tiled`).

This is a matter of offsets alone. What stands at the stretches is looked at elsewhere.
-/

namespace Formulary

open Text (byteSize byteSize_nil byteSize_cons byteSize_append)

/-! ## Spans side by side -/

theorem Fence.utf8Size_opening (fence : Fence) : fence.opening.char.utf8Size = 1 := by
  cases fence <;> rfl

namespace Span

/-- Spans that follow each other without gaps from one offset to another. -/
def Tile : Nat → List Span → Nat → Prop
  | start, [], stop => start = stop
  | start, p :: ps, stop => p.start = start ∧ p.start ≤ p.stop ∧ Tile p.stop ps stop

/-- A stretch with text of its own at either end and spans side by side between. -/
def Encloses (p : Span) (before : List Char) (inner : List Span) (after : List Char) : Prop :=
  ∃ stop, Tile (p.start + byteSize before) inner stop ∧ p.stop = stop + byteSize after

theorem Tile.le {start stop : Nat} {ps : List Span} (h : Tile start ps stop) : start ≤ stop := by
  induction ps generalizing start with
  | nil => exact Nat.le_of_eq h
  | cons p ps ih =>
    obtain ⟨rfl, hle, hps⟩ := h
    exact hle.trans (ih hps)

theorem Encloses.le {p : Span} {before after : List Char} {inner : List Span}
    (h : p.Encloses before inner after) : p.start ≤ p.stop := by
  obtain ⟨stop, htile, hstop⟩ := h
  have := htile.le
  omega

/-- Where the elements of a group would stand, if it had any: right after its opening symbol. -/
theorem Encloses.inside {p : Span} {fence : Fence} {inner : List Span} {after : List Char}
    (h : p.Encloses [fence.opening.char] inner after) :
    (p.drop 1).take 0 = point (p.start + byteSize [fence.opening.char]) := by
  obtain ⟨stop, htile, hstop⟩ := h
  have hle := htile.le
  rw [byteSize_cons, byteSize_nil, Fence.utf8Size_opening] at hle ⊢
  simp only [drop, take, point, Span.mk.injEq]
  omega

theorem union_of_le {a b c d : Nat} (hac : a ≤ c) (hbd : b ≤ d) : union ⟨a, b⟩ ⟨c, d⟩ = ⟨a, d⟩ := by
  rw [union, Nat.min_eq_left hac, Nat.max_eq_right hbd]

end Span

open Formulary.Span (Tile)

namespace Element

variable {e : Element} {start stop middle : Nat} {es : List Element}

mutual

/-- An element whose span consists of its symbols and the spans of its parts. -/
def Tiled : Element → Prop
  | .literal text span => span.Encloses text.toList [] []
  | .group fence inner span =>
    AllTiled inner ∧ span.Encloses [fence.opening.char] (inner.map Element.span) [fence.closing.char]
  | .script marker operand span => operand.Tiled ∧ span.Encloses [marker.char] [operand.span] []
  | .command name parameters span =>
    AllTiled parameters ∧
      span.Encloses (Symbol.backslash.char :: name.toList) (parameters.map Element.span) []

/-- Elements that all are tiled. -/
def AllTiled : List Element → Prop
  | [] => True
  | e :: es => e.Tiled ∧ AllTiled es

end

/-- An element that is tiled and stands from one offset to another. -/
def Covers (e : Element) (start stop : Nat) : Prop := e.Tiled ∧ e.span = ⟨start, stop⟩

/-- Elements that are tiled and together stand from one offset to another. -/
def AllCover (es : List Element) (start stop : Nat) : Prop :=
  AllTiled es ∧ Tile start (es.map Element.span) stop

theorem Tiled.le (h : e.Tiled) : e.span.start ≤ e.span.stop := by
  cases e with
  | literal =>
    rw [Tiled] at h
    exact h.le
  | group | script | command =>
    rw [Tiled] at h
    exact h.2.le

theorem Covers.le (h : e.Covers start stop) : start ≤ stop := by
  have hle := h.1.le
  rwa [h.2] at hle

theorem allCover_nil (offset : Nat) : AllCover [] offset offset := ⟨trivial, rfl⟩

/-- Elements side by side cover what they cover together. -/
theorem AllCover.cons (hes : AllCover es middle stop) (h : e.Covers start middle) :
    AllCover (e :: es) start stop := by
  refine ⟨⟨h.1, hes.1⟩, ?_⟩
  rw [List.map_cons, h.2]
  exact ⟨rfl, h.le, hes.2⟩

theorem allCover_cons (h : AllCover (e :: es) start stop) :
    ∃ middle, e.Covers start middle ∧ AllCover es middle stop := by
  obtain ⟨⟨htiled, hrest⟩, rfl, -, htile⟩ := h
  exact ⟨e.span.stop, ⟨htiled, rfl⟩, hrest, htile⟩

theorem covers_literal {text : String} {span : Span} :
    (literal text span).Covers start stop ↔
      span = ⟨start, stop⟩ ∧ stop = start + byteSize text.toList := by
  rw [Covers, Tiled, Element.span, and_comm]
  refine and_congr_right fun hspan => ?_
  rw [hspan]
  constructor
  · rintro ⟨_, rfl, hstop⟩
    exact hstop
  · exact fun hstop => ⟨_, rfl, hstop⟩

/-- Two literals that meet still stand from where the first starts to where the second stops. -/
theorem AllCover.consElement (hes : AllCover es middle stop) (h : e.Covers start middle) :
    AllCover (e.cons es) start stop := by
  fun_cases Element.cons e es
  · rename_i text span text' span' es
    obtain ⟨next, h', hrest⟩ := allCover_cons hes
    obtain ⟨rfl, hmiddle⟩ := covers_literal.mp h
    obtain ⟨rfl, hnext⟩ := covers_literal.mp h'
    refine hrest.cons (covers_literal.mpr ⟨?_, ?_⟩)
    · exact Span.union_of_le (by omega) (by omega)
    · rw [String.toList_append, byteSize_append]
      omega
  · exact hes.cons h

/-- The span of a command goes to the end of its last parameter. -/
theorem covers_commandOf {name : String} {parameters : List Element}
    (hmiddle : middle = start + byteSize (Symbol.backslash.char :: name.toList))
    (h : AllCover parameters middle stop) :
    (commandOf name parameters ⟨start, middle⟩).Covers start stop := by
  obtain ⟨htiled, htile⟩ := h
  have hfold : ∀ (ps : List Element) (k : Nat), start ≤ k → Tile k (ps.map Element.span) stop →
      ps.foldl (fun s p => Span.union s p.span) ⟨start, k⟩ = ⟨start, stop⟩ := by
    intro ps
    induction ps with
    | nil =>
      rintro k - rfl
      rfl
    | cons p ps ih =>
      rintro k hk ⟨hstart, hle, hps⟩
      have hunion : Span.union ⟨start, k⟩ p.span = ⟨start, p.span.stop⟩ :=
        Span.union_of_le (c := p.span.start) (d := p.span.stop) (by omega) (by omega)
      rw [List.foldl_cons, hunion]
      exact ih _ (by omega) hps
  have hspan := hfold parameters middle (by omega) htile
  rw [commandOf, hspan]
  refine ⟨?_, rfl⟩
  rw [Tiled]
  exact ⟨htiled, stop, by rwa [← hmiddle], rfl⟩

end Element

end Formulary
