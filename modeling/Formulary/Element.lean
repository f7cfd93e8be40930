import Formulary.Token

/-!
# Elements

A formula as it is written: a list of elements, each with the stretch of text it was read from.
Text that stands together is one literal (`Element.cons`), so a list of elements that was put
together by it never holds two literals side by side.
-/

namespace Formulary

/-- The two symbols that attach an operand to what stands before them. -/
inductive Marker where
  | superscript
  | subscript
  deriving DecidableEq, Repr

namespace Marker

/-- The marker as a structural symbol. -/
def symbol : Marker → Symbol
  | .superscript => .superscript
  | .subscript => .subscript

/-- The marker as it is written. -/
def char (m : Marker) : Char := m.symbol.char

end Marker

/-- The two kinds of brackets around a group. -/
inductive Fence where
  | braces
  | brackets
  deriving DecidableEq, Repr

namespace Fence

/-- The symbol that opens a group. -/
def opening : Fence → Symbol
  | .braces => .leftBrace
  | .brackets => .leftBracket

/-- The symbol that closes a group. -/
def closing : Fence → Symbol
  | .braces => .rightBrace
  | .brackets => .rightBracket

/-- Whether a group is written with brackets. -/
def isBrackets : Fence → Bool
  | .braces => false
  | .brackets => true

end Fence

/-- An element of a formula as it is written. -/
inductive Element where
  /-- Text, escapes included. -/
  | literal (text : String) (span : Span)
  /-- Elements between braces or brackets. -/
  | group (fence : Fence) (inner : List Element) (span : Span)
  /-- A marker and its operand. -/
  | script (marker : Marker) (operand : Element) (span : Span)
  /-- A backslash, a name, and the groups right after it. -/
  | command (name : String) (parameters : List Element) (span : Span)
  deriving Repr

namespace Element

/-- The stretch an element was read from. -/
def span : Element → Span
  | .literal _ span => span
  | .group _ _ span => span
  | .script _ _ span => span
  | .command _ _ span => span

/-- Puts an element in front of others; two literals that meet become one. -/
def cons : Element → List Element → List Element
  | .literal text span, .literal text' span' :: es =>
    .literal (text ++ text') (span.union span') :: es
  | e, es => e :: es

end Element

end Formulary
