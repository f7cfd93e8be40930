import Formulary.Element.Reader

/-!
# Reading elements from tokens

The same grammar as in the reader of characters, read from the tokens of a formula. A run of text
may be used up in parts: a script takes its first character, and a command the letters at its start;
the rest of the run stays in its place. There is no measure that ends this reading by itself, since a
token may be put back; that it always ends is shown together with what it gives.
-/

namespace Formulary.Element

/-- Readers of tokens: they use up tokens at the front, and may go on forever. -/
abbrev TokenReader := StateT (List PlacedToken) (ExceptT SyntaxError Option)

namespace TokenReader

/-- The first token. -/
def current : TokenReader PlacedToken := return (← get).headD ⟨.eof, Span.point 0⟩

/-- Leaves the first token behind. -/
def advance : TokenReader Unit := modify List.tail

/-- Takes characters from the front of a run at a place, which is the first token, and leaves the
rest of it. Gives the place of what was taken. -/
def takeFront (taken rest : List Char) (place : Span) : TokenReader Span := do
  let stop := place.start + Text.byteSize taken
  advance
  if !rest.isEmpty then modify (⟨.text (String.ofList rest), ⟨stop, place.stop⟩⟩ :: ·)
  return ⟨place.start, stop⟩

/-- A rule of the grammar, with what has been read of it: elements up to a closing symbol or the end
of the input, neither of which is read; an element after its first symbol; a group after its opening
symbol; the operand after a marker; an escape or a command after its backslash; and all groups at the
front. -/
inductive Rule where
  | chain (closer : Option Symbol)
  | element (s : Symbol) (place : Span)
  | group (fence : Fence) (opening : Span)
  | script (marker : Marker) (place : Span)
  | command (backslash : Span)
  | parameters

namespace Rule

/-- What a rule gives. -/
abbrev Result : Rule → Type
  | .chain _ | .parameters => List Element
  | .element .. | .group .. | .script .. | .command _ => Element

/-- Reads the rest of what a rule describes. -/
def read (rule : Rule) : TokenReader rule.Result :=
  match rule with
  | .chain closer => (do
    match ← current with
    | ⟨.eof, _⟩ => return []
    | ⟨.text run, place⟩ =>
      advance
      return Element.cons (.literal run place) (← chain closer |>.read)
    | ⟨.symbol s, place⟩ =>
      if closer = some s then return []
      else
        advance
        let e ← element s place |>.read
        return Element.cons e (← chain closer |>.read) : TokenReader (List Element))
  | .element s place =>
    match s with
    | .leftBrace => group .braces place |>.read
    | .rightBrace => throw (.strayBrace place)
    | .leftBracket | .rightBracket => return Element.literal s.text place
    | .subscript => script .subscript place |>.read
    | .superscript => script .superscript place |>.read
    | .backslash => command place |>.read
  | .group fence opening => (do
    let inner ← chain (some fence.closing) |>.read
    let closing ← current
    if closing.token = .symbol fence.closing then
      advance
      return .group fence inner (opening.union closing.span)
    else throw (.unterminatedGroup fence opening closing.span) : TokenReader Element)
  | .script marker place => (do
    let e : Element ← match ← current with
      | ⟨.text run, stretch⟩ => do
        let first := run.toList.take 1
        pure (.literal (String.ofList first) (← takeFront first (run.toList.drop 1) stretch))
      | ⟨.symbol .leftBrace, stretch⟩ => do
        advance
        group .braces stretch |>.read
      | ⟨.symbol .backslash, stretch⟩ => do
        advance
        command stretch |>.read
      | found => throw (.missingOperand marker place found.token found.span)
    return .script marker e (place.union e.span) : TokenReader Element)
  | .command backslash => (do
    match ← current with
    | ⟨.symbol s, place⟩ =>
      advance
      return .literal (String.ofList ['\\', s.char]) (backslash.union place)
    | ⟨.eof, _⟩ => throw (.finalBackslash backslash)
    | ⟨.text run, place⟩ =>
      let first := run.toList.take 1
      if first.any (· ∈ punctuation) then
        let taken ← takeFront first (run.toList.drop 1) place
        return commandOf (String.ofList first) [] (backslash.union taken)
      else
        let name := run.toList.takeWhile Text.isLetter
        if name.isEmpty then
          throw (.emptyName (backslash.union ⟨place.start, place.start + Text.byteSize first⟩))
        else
          let taken ← takeFront name (run.toList.dropWhile Text.isLetter) place
          let ps ← parameters |>.read
          return commandOf (String.ofList name) ps (backslash.union taken) : TokenReader Element)
  | .parameters => (do
    match ← current with
    | ⟨.symbol .leftBrace, place⟩ =>
      advance
      let p ← group .braces place |>.read
      return p :: (← parameters |>.read)
    | ⟨.symbol .leftBracket, place⟩ =>
      advance
      let p ← group .brackets place |>.read
      return p :: (← parameters |>.read)
    | _ => return [] : TokenReader (List Element))
partial_fixpoint

end Rule

end TokenReader

/-- Reads a whole formula from its tokens. -/
def ofTokens (tokens : List PlacedToken) : Option (Except SyntaxError (List Element)) :=
  ((TokenReader.Rule.chain none).read.run tokens).run.map (Except.map Prod.fst)

end Formulary.Element
