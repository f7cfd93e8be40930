import Formulary.FileTree

/-!
# File systems

A file tree with a directory that relative paths start from. A path is followed segment by segment,
and everything it goes through has to be a directory, also where the next segment goes up again.

Operations that change something keep what they have done when they fail later on.
-/

namespace Formulary

/-- What can go wrong with files. -/
inductive FileError where
  | notFound
  | notADirectory
  | isADirectory
  | alreadyExists
  | invalidText
  | other (message : String)
  deriving DecidableEq, Repr

/-- The error in words. -/
def FileError.message : FileError → String
  | .notFound => "No such file or directory (os error 2)"
  | .notADirectory => "Not a directory (os error 20)"
  | .isADirectory => "Is a directory (os error 21)"
  | .alreadyExists => "File exists (os error 17)"
  | .invalidText => "stream did not contain valid UTF-8"
  | .other message => message

/-- All directories and files, and the place that relative paths start from. -/
structure FileSystem where
  root : FileTree
  current : List Name
  deriving Repr

namespace FileSystem

open Name (dot)

/-- Follows segments from a place. What they lead to need not exist. -/
def follow (root : FileTree) : List Name → List Name → Except FileError (List Name)
  | place, [] => .ok place
  | place, segment :: segments =>
    match root.get? place with
    | none => .error .notFound
    | some (.file _) => .error .notADirectory
    | some (.directory _) =>
      if Path.isTrivial segment then follow root place segments
      else if segment = [dot, dot] then follow root place.dropLast segments
      else follow root (place ++ [segment]) segments

/-- The place that segments of a path lead to. -/
def locate (fs : FileSystem) (path : Path) (segments : List Name) :
    Except FileError (List Name) :=
  if path.bytes.isEmpty then .error .notFound
  else follow fs.root (if path.isAbsolute then [] else fs.current) segments

/-- The place that a path leads to when everything on the way is there. -/
def placeOf (fs : FileSystem) (path : Path) : List Name :=
  path.segments.foldl (fun place segment =>
    if Path.isTrivial segment then place
    else if segment = [dot, dot] then place.dropLast
    else place ++ [segment]) (if path.isAbsolute then [] else fs.current)

/-- What is at a path. -/
def find (fs : FileSystem) (path : Path) : Except FileError FileTree := do
  match fs.root.get? (← fs.locate path path.segments) with
  | some found => return found
  | none => throw .notFound

/-- Whether there is anything at a path. -/
def contains (fs : FileSystem) (path : Path) : Bool := (fs.find path).isOk

/-- Whether there is a directory at a path. -/
def isDirectory (fs : FileSystem) (path : Path) : Bool :=
  match fs.find path with
  | .ok found => found.isDirectory
  | .error _ => false

/-- The text of the file at a path. -/
def read (fs : FileSystem) (path : Path) : Except FileError String := do
  match ← fs.find path with
  | .file (.text text) => return text
  | .file (.binary _) => throw .invalidText
  | .directory _ => throw .isADirectory

/-- The entries of the directory at a path. -/
def entries (fs : FileSystem) (path : Path) : Except FileError (List (Name × FileTree)) := do
  match ← fs.find path with
  | .directory found => return found
  | .file _ => throw .notADirectory

/-- Makes a directory in a directory that exists. -/
def makeDirectory (fs : FileSystem) (path : Path) : Except FileError FileSystem := do
  let place ← fs.locate path path.segments
  if (fs.root.get? place).isSome then throw .alreadyExists
  return { fs with root := fs.root.set place .empty }

/-- Programs that change the file system and can fail. What was changed before a failure stays. -/
abbrev Change := ExceptT FileError (StateM FileSystem)

/-- Makes the first of some directories that lie in each other, innermost first, and before that the
others as far as they are missing. -/
def makeDirectoriesFrom : List Path → Change Unit
  | [] => return
  | path :: outer => do
    if path.bytes.isEmpty then return
    match (← get).makeDirectory path with
    | .ok fs => set fs
    | .error .notFound =>
      makeDirectoriesFrom outer
      match (← get).makeDirectory path with
      | .ok fs => set fs
      | .error e =>
        unless e = .alreadyExists && (← get).isDirectory path do throw e
    | .error e =>
      unless e = .alreadyExists && (← get).isDirectory path do throw e

/-- Makes a directory and all directories that it is in, as far as they are missing. -/
def makeDirectories (path : Path) : Change Unit := makeDirectoriesFrom (path :: path.ancestors)

/-- The file system after a text was written to a path: a file that is there gets the new text, and
otherwise a file is made in a directory that exists. -/
def written (fs : FileSystem) (path : Path) (text : String) : Except FileError FileSystem := do
  let segments := path.segments.reverse.dropWhile List.isEmpty
  let place ← fs.locate path segments.tail.reverse
  match segments.head?, fs.root.get? place with
  | _, none => throw .notFound
  | _, some (.file _) => throw .notADirectory
  | none, some (.directory _) => throw .isADirectory
  | some name, some (.directory entries) =>
    if segments.length < path.segments.length then throw .isADirectory
    if name = [dot] ∨ name = [dot, dot] then throw .isADirectory
    if ((entries.lookup name).map FileTree.isDirectory).getD false then throw .isADirectory
    return { fs with root := fs.root.set (place ++ [name]) (.file (.text text)) }

/-- Writes a text to a path. -/
def write (path : Path) (text : String) : Change Unit := do
  match (← get).written path text with
  | .ok fs => set fs
  | .error e => throw e

end FileSystem

end Formulary
