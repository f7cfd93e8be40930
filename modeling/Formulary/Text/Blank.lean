/-!
# Blank characters

The edges of a formula are trimmed of blanks: the characters with the Unicode property
`White_Space`, which are the ASCII blanks and seventeen code points above them.
-/

namespace Formulary.Text

/-- Whether a character has the Unicode property `White_Space`. -/
def isBlank (c : Char) : Bool :=
  let n := c.toNat
  (0x09 ≤ n && n ≤ 0x0D) || n == 0x20 || n == 0x85 || n == 0xA0 || n == 0x1680 ||
    (0x2000 ≤ n && n ≤ 0x200A) || n == 0x2028 || n == 0x2029 || n == 0x202F || n == 0x205F ||
    n == 0x3000

/-- Whether a text starts with a blank. -/
def startsBlank (text : String) : Bool := text.toList.head?.any isBlank

/-- Whether a text ends with a blank. -/
def endsBlank (text : String) : Bool := text.toList.getLast?.any isBlank

/-- The text without the blanks at its start. -/
def trimLeft (text : String) : String := String.ofList (text.toList.dropWhile isBlank)

/-- The text without the blanks at its end. -/
def trimRight (text : String) : String :=
  String.ofList (text.toList.reverse.dropWhile isBlank).reverse

/-- The text without the blanks at either end. -/
def trim (text : String) : String := trimRight (trimLeft text)

end Formulary.Text
