import Formulary.Path

/-!
# File trees

Directories and files as a finite tree. The entries of a directory are kept in the order in which
they were made; of two entries with one name the first counts. A place in a tree is the list of
names on the way to it.
-/

namespace Formulary

/-- What is in a file: text, or bytes that are no text. -/
inductive FileContent where
  | text (text : String)
  | binary (bytes : List UInt8)
  deriving DecidableEq, Repr

/-- A file, or a directory with named entries. -/
inductive FileTree where
  | file (content : FileContent)
  | directory (entries : List (Name × FileTree))
  deriving Repr

namespace FileTree

/-- A directory without entries. -/
def empty : FileTree := .directory []

instance : Inhabited FileTree := ⟨empty⟩

/-- Whether this is a directory. -/
def isDirectory : FileTree → Bool
  | .directory _ => true
  | .file _ => false

/-- The entry with a name. -/
def entry? (t : FileTree) (name : Name) : Option FileTree :=
  match t with
  | .directory entries => entries.lookup name
  | .file _ => none

/-- What is at a place. -/
def get? : FileTree → List Name → Option FileTree
  | t, [] => some t
  | t, name :: place => (t.entry? name).bind (·.get? place)

/-- Gives an entry a new value, at the end if there was none. -/
def setIn (name : Name) (child : FileTree) : List (Name × FileTree) → List (Name × FileTree)
  | [] => [(name, child)]
  | (n, t) :: entries =>
    if n = name then (n, child) :: entries else (n, t) :: setIn name child entries

/-- Gives a directory an entry. -/
def setEntry (t : FileTree) (name : Name) (child : FileTree) : FileTree :=
  match t with
  | .directory entries => .directory (setIn name child entries)
  | .file _ => t

/-- Puts something at a place. Nothing happens if there is no directory to hold it. -/
def set : FileTree → List Name → FileTree → FileTree
  | _, [], child => child
  | t, [name], child => t.setEntry name child
  | t, name :: place, child =>
    match t.entry? name with
    | some inner => t.setEntry name (inner.set place child)
    | none => t

/-- Puts something at a place, and makes the directories that are missing on the way. -/
def plant : FileTree → List Name → FileTree → FileTree
  | _, [], child => child
  | t, name :: place, child => t.setEntry name (((t.entry? name).getD empty).plant place child)

mutual

/-- Everything below a tree with its path, in the order of the entries. -/
def contents (path : List Name) : FileTree → List (List Name × FileTree)
  | .file _ => []
  | .directory entries => contentsOf path entries
termination_by t => sizeOf t

/-- The entries of a directory and everything below them. -/
def contentsOf (path : List Name) :
    List (Name × FileTree) → List (List Name × FileTree)
  | [] => []
  | (name, t) :: entries =>
    (path ++ [name], t) :: (contents (path ++ [name]) t ++ contentsOf path entries)
termination_by entries => sizeOf entries

end

/-- Everything in a directory with its path and its text, ordered by path. Directories and files
that hold no text are listed without one. -/
def listing (t : FileTree) : List (Path × Option String) :=
  let text? : FileTree → Option String
    | .file (.text text) => some text
    | _ => none
  ((contents [] t).map fun (names, found) =>
    (⟨[Name.slash].intercalate names⟩, text? found)).mergeSort fun a b => a.1.bytes ≤ b.1.bytes

end FileTree

end Formulary
