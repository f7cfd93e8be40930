/-!
# Spans

A span is a stretch of a text, given by the byte offsets of its two ends in the UTF-8 form of
that text. Every token, every node and every label of a diagnostic carries one. Spans are plain
pairs: nothing forces the start to be at or before the stop, and the operations below are total on
all of them.
-/

namespace Formulary

/-- A stretch of text: the byte offset where it starts and the one where it stops. -/
structure Span where
  start : Nat
  stop : Nat
  deriving DecidableEq, Repr, Inhabited

namespace Span

/-- The empty span at an offset. -/
def point (offset : Nat) : Span := ⟨offset, offset⟩

/-- Number of bytes covered. -/
def length (s : Span) : Nat := s.stop - s.start

/-- Whether both ends are at one offset. -/
def isEmpty (s : Span) : Bool := s.start == s.stop

/-- The smallest span that covers both. -/
def union (s t : Span) : Span := ⟨min s.start t.start, max s.stop t.stop⟩

/-- The same stretch seen from a text in which it starts `offset` bytes later. -/
def shift (s : Span) (offset : Nat) : Span := ⟨s.start + offset, s.stop + offset⟩

/-- Without its first `count` bytes. -/
def drop (s : Span) (count : Nat) : Span := ⟨min (s.start + count) s.stop, s.stop⟩

/-- Only its first `count` bytes. -/
def take (s : Span) (count : Nat) : Span := ⟨s.start, min (s.start + count) s.stop⟩

end Span

end Formulary
