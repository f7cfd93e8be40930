/-!
# Paths

A path is a sequence of bytes with slashes. It keeps the form in which it was given, because that is
how it is shown; what it means only shows in its segments. An empty segment and a single dot mean
nothing.

Names are bytes as well. Most of them are texts, but those that are none can be names too, and
nothing can be said of their characters: no such name is hidden.
-/

namespace Formulary

/-- The name of a file or directory. -/
abbrev Name := List UInt8

namespace Name

/-- The byte between the segments of a path. -/
def slash : UInt8 := 47

/-- The byte before an extension. -/
def dot : UInt8 := 46

/-- The bytes of a text. -/
def ofText (text : String) : Name := text.toUTF8.data.toList

/-- The text that bytes are, if they are one. -/
def text? (bytes : Name) : Option String := String.fromUTF8? ⟨bytes.toArray⟩

/-- The character that bytes are. -/
def char? (bytes : Name) : Option Char :=
  match (text? bytes).map String.toList with
  | some [c] => some c
  | _ => none

/-- Whether bytes begin a character and do not end it. -/
def isUnfinished (bytes : Name) : Bool :=
  [1, 2, 3].any fun n => [0x80, 0xBF].any fun b => (char? (bytes ++ List.replicate n b)).isSome

/-- The character that bytes start with and its size. In the place of bytes that start with none
stands the replacement character, for as many as could have begun one. -/
def firstShown (bytes : Name) : Char × Nat :=
  match [1, 2, 3, 4].findSome? fun n => (char? (bytes.take n)).map (·, n) with
  | some shown => shown
  | none => (Char.ofNat 0xFFFD, ([3, 2].find? fun n => isUnfinished (bytes.take n)).getD 1)

/-- The characters that bytes are shown as. -/
def shown : Name → List Char
  | [] => []
  | b :: bytes =>
    let (c, size) := firstShown (b :: bytes)
    c :: shown (bytes.drop (size - 1))
termination_by bytes => bytes.length
decreasing_by
  rw [List.length_drop, List.length_cons]
  omega

end Name

/-- A path as it was given. -/
structure Path where
  bytes : List UInt8
  deriving DecidableEq, Repr

namespace Path

open Name (slash dot)

/-- The path that a text gives. -/
def ofText (text : String) : Path := ⟨Name.ofText text⟩

/-- The path as it is shown. -/
def display (p : Path) : String := String.ofList (Name.shown p.bytes)

/-- The parts of a sequence of bytes between its slashes. -/
def segmentsOf : List UInt8 → List Name
  | [] => [[]]
  | b :: bytes =>
    if b = slash then [] :: segmentsOf bytes
    else
      match segmentsOf bytes with
      | s :: segments => (b :: s) :: segments
      | [] => [[b]]

/-- The segments of a path. -/
def segments (p : Path) : List Name := segmentsOf p.bytes

/-- Whether a path starts at the root. -/
def isAbsolute (p : Path) : Bool := p.bytes.head? == some slash

/-- Whether a segment means nothing. -/
def isTrivial (segment : Name) : Bool := segment.isEmpty || segment == [dot]

/-- A path below a directory. An absolute path stays what it is. -/
def join (directory path : Path) : Path :=
  if path.isAbsolute || directory.bytes.isEmpty then path
  else if directory.bytes.getLast? == some slash then ⟨directory.bytes ++ path.bytes⟩
  else ⟨directory.bytes ++ slash :: path.bytes⟩

/-- A path as it is seen from a directory that it is below. -/
def relativeTo (p directory : Path) : Path :=
  ⟨(p.bytes.drop directory.bytes.length).dropWhile (· == slash)⟩

/-- What a path starts with, and the rest: the root, the current directory, or nothing. -/
def lead (p : Path) : Name × List UInt8 :=
  if p.bytes.head? = some slash then ([slash], p.bytes.tail)
  else if p.segments.head? = some [dot] then ([dot], p.bytes.tail)
  else ([], p.bytes)

/-- The paths of a list of segments, which starts with the last segment, and of the lists of the
segments before each of them, innermost first. -/
def upwards (lead : Name) : List Name → List Path
  | [] => []
  | segment :: before =>
    if isTrivial segment then upwards lead before
    else ⟨lead ++ [slash].intercalate (segment :: before).reverse⟩ :: upwards lead before

/-- The directories that a path is in, innermost first. -/
def ancestors (p : Path) : List Path :=
  let (lead, rest) := p.lead
  let outermost : List Path :=
    if lead = [dot] then [⟨[dot]⟩, ⟨[]⟩] else [⟨lead⟩]
  match (segmentsOf rest).reverse.dropWhile isTrivial with
  | [] => outermost.drop 1
  | _ :: before => upwards lead before ++ outermost

/-- The directory that a path is in. -/
def parent? (p : Path) : Option Path := p.ancestors.head?

/-- Whether the name of a file or directory hides it: it is a text and starts with a dot. -/
def isHidden (name : Name) : Bool :=
  (Name.text? name).any fun text => text.toList.head? == some '.'

/-- The extension in the name of a file: what follows the last dot, unless nothing stands before
it. -/
def extension? (name : Name) : Option Name :=
  match name.reverse.dropWhile (· != dot) with
  | _ :: _ :: _ => some (name.reverse.takeWhile (· != dot)).reverse
  | _ => none

end Path

end Formulary
