import Formulary.Span
import Formulary.Text.Size

/-!
# Tokens

The text of a formula splits into the seven structural symbols, each a token of its own, and the
longest runs of text between them. Any text splits this way, so reading tokens never fails; the
list always ends with one token for the end of the input.
-/

namespace Formulary

/-- The characters that always form a token of their own. -/
inductive Symbol where
  | backslash
  | leftBrace
  | rightBrace
  | leftBracket
  | rightBracket
  | subscript
  | superscript
  deriving DecidableEq, Repr

namespace Symbol

/-- Every structural symbol. -/
def all : List Symbol :=
  [.backslash, .leftBrace, .rightBrace, .leftBracket, .rightBracket, .subscript, .superscript]

/-- The character of a symbol. -/
def char : Symbol → Char
  | .backslash => '\\'
  | .leftBrace => '{'
  | .rightBrace => '}'
  | .leftBracket => '['
  | .rightBracket => ']'
  | .subscript => '_'
  | .superscript => '^'

/-- The symbol of a character, if it is structural. -/
def ofChar? (c : Char) : Option Symbol := all.find? fun s => s.char == c

/-- The symbol as a text of one character. -/
def text (s : Symbol) : String := s.char.toString

/-- A character is structural exactly when it is the character of a symbol. -/
theorem ofChar?_eq_some_iff {c : Char} {s : Symbol} : ofChar? c = some s ↔ s.char = c := by
  constructor
  · intro h
    simpa using List.find?_some h
  · rintro rfl
    cases s <;> rfl

end Symbol

/-- Whether a character is text, that is, not structural. -/
def isPlain (c : Char) : Bool := (Symbol.ofChar? c).isNone

/-- A token of a formula. -/
inductive Token where
  /-- A longest run of text without any structural character. -/
  | text (run : String)
  | symbol (s : Symbol)
  /-- The end of the input. -/
  | eof
  deriving DecidableEq, Repr

namespace Token

/-- The structural symbol of a token. -/
def symbol? : Token → Option Symbol
  | .symbol s => some s
  | .text _ | .eof => none

/-- What a message calls the token. -/
def describe : Token → String
  | .text _ => "text"
  | .symbol s => "`" ++ s.text ++ "`"
  | .eof => "end of input"

/-- The text a token was read from. -/
def display : Token → String
  | .text run => run
  | .symbol s => s.text
  | .eof => ""

end Token

/-- A token and the stretch it was read from. -/
structure PlacedToken where
  token : Token
  span : Span
  deriving DecidableEq, Repr

/-- A token at the front of a text, with the characters it takes up and those after it. -/
structure Lexeme where
  token : Token
  taken : List Char
  rest : List Char
  deriving DecidableEq, Repr

namespace Lexeme

/-- Reads one structural character. -/
def symbol? : List Char → Option Lexeme
  | [] => none
  | c :: cs => (Symbol.ofChar? c).map fun s => ⟨.symbol s, [c], cs⟩

/-- Reads a run of text up to the next structural character, unless that is the first one. -/
def run? (cs : List Char) : Option Lexeme :=
  let run := cs.takeWhile isPlain
  if run.isEmpty then none else some ⟨.text (String.ofList run), run, cs.dropWhile isPlain⟩

/-- Reads a structural character, or else a run of text. -/
def first? (cs : List Char) : Option Lexeme := (symbol? cs).or (run? cs)

theorem length_rest_lt {cs : List Char} {l : Lexeme} (h : first? cs = some l) :
    l.rest.length < cs.length := by
  cases cs with
  | nil => simp [first?, symbol?, run?] at h
  | cons c cs =>
    rcases Option.or_eq_some_iff.mp h with hsymbol | ⟨-, hrun⟩
    · obtain ⟨s, -, rfl⟩ := Option.map_eq_some_iff.mp hsymbol
      exact Nat.lt_succ_self _
    · rw [run?, List.takeWhile_cons] at hrun
      split at hrun
      · rename_i hplain
        obtain rfl := Option.some.inj hrun
        rw [List.dropWhile_cons, if_pos hplain]
        exact Nat.lt_succ_of_le (List.dropWhile_suffix _).length_le
      · cases hrun

end Lexeme

/-- The tokens of a text that starts at an offset, but for the end of the input. Should there be no
token at the front of a text, all of it is kept as one. -/
def tokensFrom (offset : Nat) (cs : List Char) : List PlacedToken :=
  if cs.isEmpty then []
  else
    match h : Lexeme.first? cs with
    | some l =>
      have := Lexeme.length_rest_lt h
      let stop := offset + Text.byteSize l.taken
      ⟨l.token, ⟨offset, stop⟩⟩ :: tokensFrom stop l.rest
    | none => [⟨.text (String.ofList cs), ⟨offset, offset + Text.byteSize cs⟩⟩]
termination_by cs.length

/-- The tokens of a formula. -/
def tokenize (text : String) : List PlacedToken :=
  tokensFrom 0 text.toList ++ [⟨.eof, Span.point text.utf8ByteSize⟩]

end Formulary
