import Formulary.Diagnostic
import Formulary.Element
import Formulary.Text.Letter

/-!
# Reading elements

The grammar of formulas, read from left to right with one token of lookahead and without ever going
back:

* text is read up to the next structural symbol;
* a group is everything between an opening brace and its closing brace. Brackets delimit a group
  only right after a command; elsewhere they are text;
* a script is a marker and one operand: a single character, a group in braces, an escape or a
  command;
* an escape is a backslash and a structural symbol; it is text;
* a command is a backslash and either one of the punctuation characters of `punctuation`, which
  takes no parameters, or the longest run of letters, which takes all groups right after it.

Each reader gives back what follows together with the bound that makes the readers end: they never
leave more text than they were given.
-/

namespace Formulary

/-- What can be wrong with the text of a formula. -/
inductive SyntaxError where
  /-- A closing brace that closes nothing. -/
  | strayBrace (brace : Span)
  /-- A group that is still open where the text ends. -/
  | unterminatedGroup (fence : Fence) (opening : Span) (ending : Span)
  /-- A backslash at the end of the text. -/
  | finalBackslash (backslash : Span)
  /-- A backslash before a character that starts no name. -/
  | emptyName (stretch : Span)
  /-- A marker before something that is no operand. -/
  | missingOperand (marker : Marker) (place : Span) (found : Token) (foundAt : Span)
  deriving DecidableEq, Repr

namespace SyntaxError

/-- The code of the error. -/
def code : SyntaxError → Code
  | .strayBrace _ => .unexpectedToken
  | .unterminatedGroup .. => .unterminatedGroup
  | .finalBackslash _ => .emptyCommandName
  | .emptyName _ => .emptyCommandName
  | .missingOperand .. => .missingOperand

/-- The error as it is told. -/
def diagnostic (e : SyntaxError) : Diagnostic :=
  match e with
  | .strayBrace brace =>
    (Diagnostic.error e.code r"unexpected `}`"
      [.primary brace "no group to close here"]).withHelp
      r"write `\}` for a literal closing brace"
  | .unterminatedGroup fence opening ending =>
    (Diagnostic.error e.code "unterminated group"
      [.primary opening "group opened here", .secondary ending "input ends here"]).withHelp
      ("add the closing " ++ (Token.symbol fence.closing).describe)
  | .finalBackslash backslash =>
    (Diagnostic.error e.code r"expected a command name after `\`"
      [.primary backslash "backslash at end of input"]).withHelp
      r"write `\\` for a literal backslash"
  | .emptyName stretch =>
    (Diagnostic.error e.code "empty command name"
      [.primary stretch "no command name here"]).withHelp
      r"command names are made of letters; a literal backslash is written `\\`"
  | .missingOperand marker place found foundAt =>
    (Diagnostic.error e.code ("missing operand after `" ++ marker.symbol.text ++ "`")
      [.primary place "this script has no operand",
        .secondary foundAt ("found " ++ found.describe)]).withHelp
      ("wrap the operand in braces: `" ++ marker.symbol.text ++ "{...}`")

end SyntaxError

/-- The punctuation characters that are command names of their own. -/
def punctuation : List Char := [',', '!', '>', ';', ':', '|', ' ', '#', '%', '&', '$']

namespace Element

/-- A value that was read, the offset and the text where reading goes on, and the bound on what is
left. -/
structure Read (α : Type) (bound : Nat) where
  value : α
  offset : Nat
  rest : List Char
  bounded : rest.length ≤ bound

/-- A command: the stretch from its backslash to its last parameter. -/
def commandOf (name : String) (parameters : List Element) (span : Span) : Element :=
  .command name parameters (parameters.foldl (fun s p => s.union p.span) span)

mutual

/-- Reads elements up to a closing symbol or the end of the text, neither of which is read. -/
def readChain (closer : Option Symbol) (offset : Nat) (text : List Char) :
    Except SyntaxError (Read (List Element) text.length) :=
  match text with
  | [] => .ok ⟨[], offset, [], Nat.le_refl _⟩
  | c :: cs =>
    if (Symbol.ofChar? c).isSome && Symbol.ofChar? c == closer then
      .ok ⟨[], offset, c :: cs, Nat.le_refl _⟩
    else
      match readElement offset c cs with
      | .error e => .error e
      | .ok ⟨e, offset, rest, h⟩ =>
        match readChain closer offset rest with
        | .error e => .error e
        | .ok ⟨es, offset, rest, h'⟩ =>
          .ok ⟨e.cons es, offset, rest, Nat.le_succ_of_le (Nat.le_trans h' h)⟩
termination_by 4 * text.length + 1
decreasing_by
  all_goals simp only [List.length_cons]; omega

/-- Reads the element that starts with a character. -/
def readElement (offset : Nat) (c : Char) (cs : List Char) :
    Except SyntaxError (Read Element cs.length) :=
  let next := offset + c.utf8Size
  match Symbol.ofChar? c with
  | none =>
    let run := c :: cs.takeWhile isPlain
    let stop := offset + Text.byteSize run
    .ok ⟨.literal (String.ofList run) ⟨offset, stop⟩, stop, cs.dropWhile isPlain,
      (List.dropWhile_suffix _).length_le⟩
  | some .leftBrace => readGroup .braces ⟨offset, next⟩ next cs
  | some .rightBrace => .error (.strayBrace ⟨offset, next⟩)
  | some .leftBracket => .ok ⟨.literal (String.ofList [c]) ⟨offset, next⟩, next, cs, Nat.le_refl _⟩
  | some .rightBracket => .ok ⟨.literal (String.ofList [c]) ⟨offset, next⟩, next, cs, Nat.le_refl _⟩
  | some .subscript => readScript .subscript ⟨offset, next⟩ next cs
  | some .superscript => readScript .superscript ⟨offset, next⟩ next cs
  | some .backslash => readCommand ⟨offset, next⟩ next cs
termination_by 4 * cs.length + 4
decreasing_by
  all_goals omega

/-- Reads the rest of a group whose opening symbol has been read. -/
def readGroup (fence : Fence) (opening : Span) (offset : Nat) (text : List Char) :
    Except SyntaxError (Read Element text.length) :=
  match readChain (some fence.closing) offset text with
  | .error e => .error e
  | .ok ⟨inner, offset, rest, h⟩ =>
    match rest, h with
    | [], _ => .error (.unterminatedGroup fence opening (Span.point offset))
    | c :: rest, h =>
      let next := offset + c.utf8Size
      .ok ⟨.group fence inner (opening.union ⟨offset, next⟩), next, rest, Nat.le_of_succ_le h⟩
termination_by 4 * text.length + 2
decreasing_by
  all_goals omega

/-- Reads the operand of a marker that has been read. -/
def readScript (marker : Marker) (place : Span) (offset : Nat) (text : List Char) :
    Except SyntaxError (Read Element text.length) :=
  match text with
  | [] => .error (.missingOperand marker place .eof (Span.point offset))
  | c :: cs =>
    let next := offset + c.utf8Size
    let operand : Except SyntaxError (Read Element cs.length) :=
      match Symbol.ofChar? c with
      | none => .ok ⟨.literal (String.ofList [c]) ⟨offset, next⟩, next, cs, Nat.le_refl _⟩
      | some .leftBrace => readGroup .braces ⟨offset, next⟩ next cs
      | some .backslash => readCommand ⟨offset, next⟩ next cs
      | some s => .error (.missingOperand marker place (.symbol s) ⟨offset, next⟩)
    match operand with
    | .error e => .error e
    | .ok ⟨e, offset, rest, h⟩ =>
      .ok ⟨.script marker e (place.union e.span), offset, rest, Nat.le_succ_of_le h⟩
termination_by 4 * text.length + 3
decreasing_by
  all_goals simp only [List.length_cons]; omega

/-- Reads what follows a backslash that has been read: an escape or a command. -/
def readCommand (backslash : Span) (offset : Nat) (text : List Char) :
    Except SyntaxError (Read Element text.length) :=
  match text with
  | [] => .error (.finalBackslash backslash)
  | c :: cs =>
    let next := offset + c.utf8Size
    if (Symbol.ofChar? c).isSome then
      .ok ⟨.literal (String.ofList ['\\', c]) (backslash.union ⟨offset, next⟩), next, cs,
        Nat.le_succ _⟩
    else if c ∈ punctuation then
      .ok ⟨commandOf (String.ofList [c]) [] (backslash.union ⟨offset, next⟩), next, cs,
        Nat.le_succ _⟩
    else if Text.isLetter c then
      let name := c :: cs.takeWhile Text.isLetter
      let stop := offset + Text.byteSize name
      have h := (List.dropWhile_suffix (l := cs) Text.isLetter).length_le
      match readParameters stop (cs.dropWhile Text.isLetter) with
      | .error e => .error e
      | .ok ⟨ps, offset', rest, h'⟩ =>
        .ok ⟨commandOf (String.ofList name) ps (backslash.union ⟨offset, stop⟩), offset', rest,
          Nat.le_succ_of_le (Nat.le_trans h' h)⟩
    else .error (.emptyName (backslash.union ⟨offset, next⟩))
termination_by 4 * text.length + 3
decreasing_by
  all_goals simp only [List.length_cons]; omega

/-- Reads all groups at the start of a text. -/
def readParameters (offset : Nat) (text : List Char) :
    Except SyntaxError (Read (List Element) text.length) :=
  match text with
  | [] => .ok ⟨[], offset, [], Nat.le_refl _⟩
  | c :: cs =>
    let next := offset + c.utf8Size
    let fence : Option Fence :=
      match Symbol.ofChar? c with
      | some .leftBrace => some .braces
      | some .leftBracket => some .brackets
      | _ => none
    match fence with
    | none => .ok ⟨[], offset, c :: cs, Nat.le_refl _⟩
    | some fence =>
      match readGroup fence ⟨offset, next⟩ next cs with
      | .error e => .error e
      | .ok ⟨p, offset, rest, h⟩ =>
        match readParameters offset rest with
        | .error e => .error e
        | .ok ⟨ps, offset, rest, h'⟩ =>
          .ok ⟨p :: ps, offset, rest, Nat.le_succ_of_le (Nat.le_trans h' h)⟩
termination_by 4 * text.length + 1
decreasing_by
  all_goals simp only [List.length_cons]; omega

end

/-- Reads a whole formula. -/
def readAll (text : String) : Except SyntaxError (List Element) :=
  (readChain none 0 text.toList).map (·.value)

end Element

end Formulary
