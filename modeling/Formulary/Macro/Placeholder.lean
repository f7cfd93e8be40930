/-!
# Placeholders

The body of a macro refers to its arguments by placeholders: a hash sign and a digit from 1 to 9.
A literal splits into placeholders and the text between them; a hash sign that is not followed by
such a digit is text.
-/

namespace Formulary

/-- The number of an argument, written as one digit from 1 to 9. -/
def argumentDigit? (c : Char) : Option Nat :=
  if '1' ≤ c && c ≤ '9' then some (c.toNat - '0'.toNat) else none

/-- A piece of a literal. -/
inductive Piece where
  | text (run : List Char)
  | argument (index : Nat)
  deriving DecidableEq, Repr

namespace Piece

/-- Puts a character in front of pieces; it joins the text they start with. -/
def consChar (c : Char) : List Piece → List Piece
  | .text run :: pieces => .text (c :: run) :: pieces
  | pieces => .text [c] :: pieces

/-- Splits a literal around its placeholders. -/
def split : List Char → List Piece
  | [] => []
  | [c] => [.text [c]]
  | c :: d :: rest =>
    match if c = '#' then argumentDigit? d else none with
    | some index => .argument index :: split rest
    | none => consChar c (split (d :: rest))

end Piece

/-- Whether a placeholder stands anywhere in a literal. -/
def hasPlaceholder : List Char → Bool
  | c :: d :: rest => (c == '#' && (argumentDigit? d).isSome) || hasPlaceholder (d :: rest)
  | _ => false

end Formulary
