import Formulary.Proofs.Steps
import Formulary.Run

/-!
# Places in a file system

What is in the files of a tree, and what becomes of it when something is written. A path is only a
way to say a place; `FileSystem.placeOf` is the place it leads to.

* `FileTree.fileAt?`: the content of the file at a place.
* `FileSystem.SameFiles`: directories may have been made, but every file is as it was.
* `fileAt?_store`: what a file is stored at holds the text, and every other file is as it was.
* `fileAt?_storeAll`: the same for files stored one after the other at different places.
-/

namespace Formulary

/-! ## Trees -/

namespace FileTree

variable {t child inner : FileTree} {name n : Name} {entries : List (Name × FileTree)}
  {init : List Name}

/-- The content of the file at a place. -/
def fileAt? (t : FileTree) (place : List Name) : Option FileContent :=
  match t.get? place with
  | some (.file content) => some content
  | _ => none

theorem get?_nil (t : FileTree) : t.get? [] = some t := by
  rw [get?]

theorem get?_append (t : FileTree) (p q : List Name) :
    t.get? (p ++ q) = (t.get? p).bind (·.get? q) := by
  induction p generalizing t with
  | nil => rw [List.nil_append, get?_nil, Option.bind_some]
  | cons name p ih =>
    rw [List.cons_append, get?, get?]
    cases t.entry? name with
    | none => rfl
    | some inner => exact ih inner

theorem fileAt?_append (t : FileTree) (p q : List Name) :
    t.fileAt? (p ++ q) = (t.get? p).bind (·.fileAt? q) := by
  rw [fileAt?, get?_append]
  cases t.get? p <;> rfl

theorem fileAt?_cons (t : FileTree) (name : Name) (p : List Name) :
    t.fileAt? (name :: p) = (t.entry? name).bind (·.fileAt? p) := by
  rw [fileAt?, get?]
  cases t.entry? name <;> rfl

theorem fileAt?_directory_nil (entries : List (Name × FileTree)) :
    (directory entries).fileAt? [] = none := by
  rw [fileAt?, get?_nil]

theorem fileAt?_file (content : FileContent) (p : List Name) :
    (file content).fileAt? p = if p = [] then some content else none := by
  cases p with
  | nil => rw [fileAt?, get?_nil, if_pos rfl]
  | cons name p =>
    rw [fileAt?_cons, if_neg (List.cons_ne_nil name p)]
    rfl

theorem fileAt?_empty (p : List Name) : empty.fileAt? p = none := by
  cases p with
  | nil => exact fileAt?_directory_nil []
  | cons name p =>
    rw [fileAt?_cons]
    rfl

theorem lookup_setIn : (setIn name child entries).lookup n =
    if n = name then some child else entries.lookup n := by
  induction entries with
  | nil =>
    rw [setIn, List.lookup_cons]
    split <;> simp_all
  | cons x entries ih =>
    obtain ⟨m, t⟩ := x
    rw [setIn]
    split
    · next hm =>
      subst hm
      rw [List.lookup_cons, List.lookup_cons]
      split <;> simp_all
    · next hm =>
      rw [List.lookup_cons, List.lookup_cons, ih]
      split <;> simp_all

theorem entry?_directory (entries : List (Name × FileTree)) (name : Name) :
    entry? (directory entries) name = entries.lookup name := rfl

theorem entry?_setEntry (h : t.isDirectory = true) (name : Name) (child : FileTree) (n : Name) :
    entry? (t.setEntry name child) n = if n = name then some child else t.entry? n := by
  cases t with
  | file => cases h
  | directory entries => exact lookup_setIn

theorem isDirectory_of_entry? (h : t.entry? name = some inner) : t.isDirectory = true := by
  cases t with
  | file => cases h
  | directory => rfl

theorem fileAt?_nil_of_isDirectory (h : t.isDirectory = true) : t.fileAt? [] = none := by
  cases t with
  | file => cases h
  | directory entries => exact fileAt?_directory_nil entries

theorem isDirectory_setEntry (h : t.isDirectory = true) (name : Name) (child : FileTree) :
    (t.setEntry name child).isDirectory = true := by
  cases t with
  | file => cases h
  | directory => rfl

theorem set_cons {place : List Name} (hne : place ≠ []) (h : t.entry? name = some inner)
    (child : FileTree) : t.set (name :: place) child = t.setEntry name (inner.set place child) := by
  cases place with
  | nil => exact absurd rfl hne
  | cons n place =>
    rw [set, h]
    simp

/-- Putting something into a directory changes the files there and no others. -/
theorem fileAt?_set (h : t.get? init = some (.directory entries)) (name : Name) (child : FileTree)
    (p : List Name) :
    (t.set (init ++ [name]) child).fileAt? p =
      if init ++ [name] <+: p then child.fileAt? (p.drop (init.length + 1)) else t.fileAt? p := by
  induction init generalizing t p with
  | nil =>
    rw [get?_nil] at h
    have hdirectory : t.isDirectory = true := by rw [Option.some.inj h]; rfl
    rw [List.nil_append, set]
    cases p with
    | nil =>
      rw [fileAt?_nil_of_isDirectory (isDirectory_setEntry hdirectory name child),
        fileAt?_nil_of_isDirectory hdirectory]
      simp
    | cons n p =>
      rw [fileAt?_cons, entry?_setEntry hdirectory]
      by_cases hn : n = name
      · rw [if_pos hn, if_pos (by simp [hn])]
        rfl
      · rw [if_neg hn, if_neg (by simp [Ne.symm hn]), fileAt?_cons]
  | cons a init ih =>
    rw [get?] at h
    obtain ⟨inner, hentry, hinner⟩ := Option.bind_eq_some_iff.mp h
    have hdirectory := isDirectory_of_entry? hentry
    rw [List.cons_append, set_cons (by simp) hentry]
    cases p with
    | nil =>
      rw [fileAt?_nil_of_isDirectory (isDirectory_setEntry hdirectory a _),
        fileAt?_nil_of_isDirectory hdirectory]
      simp
    | cons n p =>
      rw [fileAt?_cons, entry?_setEntry hdirectory]
      by_cases hn : n = a
      · subst hn
        rw [if_pos rfl, Option.bind_some, ih hinner, fileAt?_cons, hentry, Option.bind_some]
        simp [List.cons_prefix_cons]
      · rw [if_neg hn, if_neg (by simp [Ne.symm hn]), fileAt?_cons]

/-- A new directory holds no files. -/
theorem fileAt?_set_empty (h : t.get? init = some (.directory entries))
    (hnone : t.get? (init ++ [name]) = none) (p : List Name) :
    (t.set (init ++ [name]) .empty).fileAt? p = t.fileAt? p := by
  rw [fileAt?_set h]
  split
  · next hprefix =>
    obtain ⟨q, rfl⟩ := hprefix
    rw [fileAt?_empty, fileAt?_append, hnone]
    rfl
  · rfl

/-- A file that is written changes nothing but itself, if there is no directory in its place. -/
theorem fileAt?_set_file (h : t.get? init = some (.directory entries))
    (hfile : ∀ es, t.get? (init ++ [name]) ≠ some (.directory es)) (content : FileContent)
    (p : List Name) :
    (t.set (init ++ [name]) (.file content)).fileAt? p =
      if p = init ++ [name] then some content else t.fileAt? p := by
  rw [fileAt?_set h]
  split
  · next hprefix =>
    obtain ⟨q, rfl⟩ := hprefix
    have hdrop : (init ++ [name] ++ q).drop (init.length + 1) = q :=
      List.drop_left' (by simp)
    rw [hdrop, fileAt?_file]
    by_cases hq : q = []
    · rw [if_pos hq, if_pos (by rw [hq, List.append_nil])]
    · rw [if_neg hq, if_neg (by simpa using hq), fileAt?_append]
      -- Below a file, or below nothing, there is nothing.
      rcases hget : t.get? (init ++ [name]) with _ | ⟨found⟩ | ⟨es⟩
      · rfl
      · rw [Option.bind_some, fileAt?_file, if_neg hq]
      · exact absurd hget (hfile es)
  · next hprefix =>
    rw [if_neg]
    rintro rfl
    exact hprefix (List.prefix_refl _)

end FileTree

/-! ## Following paths -/

theorem Path.segmentsOf_ne_nil (bytes : List UInt8) : segmentsOf bytes ≠ [] := by
  cases bytes with
  | nil => simp [segmentsOf]
  | cons b bytes =>
    rw [segmentsOf]
    split
    · simp
    · split <;> simp

namespace FileSystem

open FileTree (fileAt?)
open Name (dot)

variable {segments : List Name} {fs fs' : FileSystem} {root : FileTree} {place p q : List Name}
  {path : Path} {text : String} {name : Name}

/-- The place that one segment leads to. -/
def advance (place : List Name) (segment : Name) : List Name :=
  if Path.isTrivial segment then place
  else if segment = [dot, dot] then place.dropLast
  else place ++ [segment]

/-- The place that a path starts from. -/
def start (fs : FileSystem) (path : Path) : List Name :=
  if path.isAbsolute then [] else fs.current

theorem placeOf_eq (fs : FileSystem) (path : Path) :
    fs.placeOf path = path.segments.foldl advance (fs.start path) := rfl

theorem follow_cons {segment : Name} (h : follow root p (segment :: segments) = .ok q) :
    (∃ entries, root.get? p = some (.directory entries)) ∧
      follow root (advance p segment) segments = .ok q := by
  rw [follow] at h
  rcases hget : root.get? p with _ | ⟨content⟩ | ⟨entries⟩
  · rw [hget] at h
    cases h
  · rw [hget] at h
    cases h
  · rw [hget] at h
    refine ⟨⟨entries, rfl⟩, ?_⟩
    rw [advance]
    dsimp only at h
    split
    · next htrivial => rwa [if_pos htrivial] at h
    · next htrivial =>
      rw [if_neg htrivial] at h
      split
      · next hup => rwa [if_pos hup] at h
      · next hup => rwa [if_neg hup] at h

/-- A path that can be followed leads to its place. -/
theorem eq_of_follow (h : follow root p segments = .ok q) : q = segments.foldl advance p := by
  induction segments generalizing p with
  | nil =>
    cases h
    rfl
  | cons segment segments ih => exact ih (follow_cons h).2

theorem eq_of_locate (h : fs.locate path segments = .ok q) :
    q = segments.foldl advance (fs.start path) := by
  rw [locate] at h
  split at h
  · cases h
  · exact eq_of_follow h

theorem get?_of_find {found : FileTree} (h : fs.find path = .ok found) :
    fs.root.get? (fs.placeOf path) = some found := by
  obtain ⟨q, hlocate, h⟩ := exists_of_bind_eq_ok h
  rw [placeOf_eq, ← eq_of_locate hlocate]
  rcases hget : fs.root.get? q with _ | other
  · rw [hget] at h
    cases h
  · rw [hget] at h
    rw [Except.ok.inj h]

theorem fileAt?_of_read (h : fs.read path = .ok text) :
    fs.root.fileAt? (fs.placeOf path) = some (.text text) := by
  obtain ⟨found, hfind, h⟩ := exists_of_bind_eq_ok h
  rw [fileAt?, get?_of_find hfind]
  rcases found with ⟨_ | _⟩ | _
  · rw [Except.ok.inj h]
  · cases h
  · cases h

/-- A path that can be followed leads into a directory, also if there is nothing at its end. -/
theorem exists_of_follow (h : follow root p segments = .ok q) (hnone : root.get? q = none) :
    q = p ∨ ∃ init name entries, q = init ++ [name] ∧
      root.get? init = some (.directory entries) := by
  induction segments generalizing p with
  | nil =>
    cases h
    exact Or.inl rfl
  | cons segment segments ih =>
    obtain ⟨⟨entries, hget⟩, hrest⟩ := follow_cons h
    rcases ih hrest with rfl | hinto
    · -- Only the last segment can lead to something that is not there.
      rw [advance] at hnone ⊢
      split at hnone
      · rw [hget] at hnone
        cases hnone
      · split at hnone
        · -- What is there has everything above it.
          rcases List.eq_nil_or_concat p with rfl | ⟨init, name, rfl⟩
          · rw [List.dropLast_nil, FileTree.get?_nil] at hnone
            cases hnone
          · rw [List.concat_eq_append] at hget hnone
            rw [FileTree.get?_append] at hget
            rw [List.dropLast_concat] at hnone
            rw [hnone] at hget
            cases hget
        · next htrivial hup =>
          rw [if_neg htrivial, if_neg hup]
          exact Or.inr ⟨p, segment, entries, rfl, hget⟩
    · exact Or.inr hinto

/-! ## Making directories -/

/-- Every file is as it was. -/
structure SameFiles (fs fs' : FileSystem) : Prop where
  current_eq : fs'.current = fs.current
  fileAt?_eq : ∀ place, fs'.root.fileAt? place = fs.root.fileAt? place

theorem SameFiles.refl (fs : FileSystem) : SameFiles fs fs := ⟨rfl, fun _ => rfl⟩

theorem SameFiles.trans {fs'' : FileSystem} (h : SameFiles fs fs') (h' : SameFiles fs' fs'') :
    SameFiles fs fs'' :=
  ⟨h'.current_eq.trans h.current_eq, fun place => (h'.fileAt?_eq place).trans (h.fileAt?_eq place)⟩

theorem SameFiles.placeOf_eq (h : SameFiles fs fs') (path : Path) :
    fs'.placeOf path = fs.placeOf path := by
  rw [placeOf, placeOf, h.current_eq]

/-- A new directory changes no file. -/
theorem sameFiles_makeDirectory (h : fs.makeDirectory path = .ok fs') : SameFiles fs fs' := by
  obtain ⟨q, hlocate, h⟩ := exists_of_bind_eq_ok h
  rcases hget : fs.root.get? q with _ | found
  · rw [hget] at h
    cases h
    refine ⟨rfl, fun p => ?_⟩
    rw [locate] at hlocate
    split at hlocate
    · cases hlocate
    · -- A path has segments, and the first of them is followed from a directory.
      have hne : path.segments ≠ [] := Path.segmentsOf_ne_nil path.bytes
      obtain ⟨segment, segments, hsegments⟩ := List.exists_cons_of_ne_nil hne
      have hstart := (follow_cons (hsegments ▸ hlocate)).1
      rcases exists_of_follow hlocate hget with rfl | ⟨init, name, entries, rfl, hinit⟩
      · obtain ⟨entries, hstart⟩ := hstart
        rw [hget] at hstart
        cases hstart
      · exact FileTree.fileAt?_set_empty hinit hget p
  · rw [hget] at h
    cases h

section

variable {α β : Type} {c : Change α} {f : α → Change β}

theorem run_get_bind (f : FileSystem → Change β) (fs : FileSystem) :
    (get >>= f).run.run fs = (f fs).run.run fs := rfl

theorem run_change_bind_of_ok {a : α} (h : c.run.run fs = (.ok a, fs')) :
    (c >>= f).run.run fs = (f a).run.run fs' := by
  rw [ExceptT.run_bind, StateT.run_bind, h]
  rfl

theorem run_change_bind_of_error {e : FileError} (h : c.run.run fs = (.error e, fs')) :
    (c >>= f).run.run fs = (.error e, fs') := by
  rw [ExceptT.run_bind, StateT.run_bind, h]
  rfl

/-- What is done one after the other keeps the files if each of the two does. -/
theorem sameFiles_bind (h : SameFiles fs (c.run.run fs).2)
    (hnext : ∀ a fs', SameFiles fs' ((f a).run.run fs').2) :
    SameFiles fs ((c >>= f).run.run fs).2 := by
  rcases hrun : c.run.run fs with ⟨e | a, fs'⟩
  · rw [hrun] at h
    rw [run_change_bind_of_error hrun]
    exact h
  · rw [hrun] at h
    rw [run_change_bind_of_ok hrun]
    exact h.trans (hnext a fs')

end

/-- Nothing is done about a directory that could not be made. -/
theorem sameFiles_unless (path : Path) (e : FileError) (fs : FileSystem) :
    SameFiles fs ((do unless e = .alreadyExists && (← get).isDirectory path do throw e :
      Change Unit).run.run fs).2 := by
  rw [run_get_bind]
  cases decide (e = .alreadyExists) && fs.isDirectory path <;> exact .refl fs

theorem sameFiles_makeDirectoriesFrom (paths : List Path) (fs : FileSystem) :
    SameFiles fs ((makeDirectoriesFrom paths).run.run fs).2 := by
  induction paths generalizing fs with
  | nil => exact .refl fs
  | cons path outer ih =>
    rw [makeDirectoriesFrom]
    split
    · exact .refl fs
    · rw [run_get_bind]
      rcases hmake : fs.makeDirectory path with e | fs'
      · by_cases he : e = .notFound
        · subst he
          refine sameFiles_bind (ih fs) fun _ fs₁ => ?_
          rw [run_get_bind]
          rcases hagain : fs₁.makeDirectory path with e | fs₂
          · exact sameFiles_unless path e fs₁
          · exact sameFiles_makeDirectory hagain
        · cases e <;> first | exact absurd rfl he | exact sameFiles_unless path _ fs
      · exact sameFiles_makeDirectory hmake

/-! ## Writing -/

theorem foldl_advance_concat (p segments : List Name) (name : Name) :
    (segments ++ [name]).foldl advance p = advance (segments.foldl advance p) name := by
  rw [List.foldl_append]
  rfl

theorem advance_of_ne (p : List Name) (hempty : name ≠ []) (hdot : name ≠ [dot])
    (hdots : name ≠ [dot, dot]) : advance p name = p ++ [name] := by
  have htrivial : Path.isTrivial name = false := by
    rw [Path.isTrivial, Bool.or_eq_false_iff, List.isEmpty_eq_false_iff, beq_eq_false_iff_ne]
    exact ⟨hempty, hdot⟩
  rw [advance, htrivial, if_neg Bool.false_ne_true, if_neg hdots]

/-- Segments with nothing empty at their end, and the last of them. -/
theorem eq_of_head?_dropWhile (hhead : (segments.reverse.dropWhile List.isEmpty).head? = some name)
    (hlength : ¬(segments.reverse.dropWhile List.isEmpty).length < segments.length) :
    segments = (segments.reverse.dropWhile List.isEmpty).tail.reverse ++ [name] ∧ name ≠ [] := by
  have hnot := List.head?_dropWhile_not List.isEmpty segments.reverse
  rw [hhead] at hnot
  have hall : segments.reverse.dropWhile List.isEmpty = segments.reverse := by
    refine (List.dropWhile_suffix _).eq_of_length_le ?_
    rw [List.length_reverse]
    exact Nat.le_of_not_lt hlength
  rw [hall] at hhead ⊢
  obtain ⟨rest, hrest⟩ := List.head?_eq_some_iff.mp hhead
  refine ⟨?_, by simpa using hnot⟩
  rw [hrest, List.tail_cons, ← List.reverse_cons, ← hrest, List.reverse_reverse]

/-- A path that can be written to ends in the name of a file in a directory. -/
theorem exists_of_written (h : fs.written path text = .ok fs') :
    ∃ init name entries, fs.placeOf path = init ++ [name] ∧
      fs.root.get? init = some (.directory entries) ∧
      (∀ es, fs.root.get? (init ++ [name]) ≠ some (.directory es)) ∧
      fs' = { fs with root := fs.root.set (init ++ [name]) (.file (.text text)) } := by
  rw [written] at h
  obtain ⟨q, hlocate, h⟩ := exists_of_bind_eq_ok h
  rcases hget : fs.root.get? q with _ | ⟨content⟩ | ⟨entries⟩
  · rw [hget] at h
    cases h
  · rw [hget] at h
    cases h
  rcases hhead : (path.segments.reverse.dropWhile List.isEmpty).head? with _ | name
  · rw [hget, hhead] at h
    cases h
  · rw [hget, hhead] at h
    dsimp only at h
    split at h
    · cases h
    next hlength =>
    split at h
    · cases h
    next hdots =>
    split at h
    · cases h
    next hnodirectory =>
    obtain ⟨hsegments, hempty⟩ := eq_of_head?_dropWhile hhead hlength
    refine ⟨q, name, entries, ?_, hget, ?_, (Except.ok.inj h).symm⟩
    · rw [placeOf_eq, hsegments, foldl_advance_concat, ← eq_of_locate hlocate]
      exact advance_of_ne q hempty (fun hdot => hdots (Or.inl hdot)) fun hup => hdots (Or.inr hup)
    · intro es hes
      rw [FileTree.get?_append, hget, Option.bind_some, FileTree.get?] at hes
      obtain ⟨found, hfound, hes⟩ := Option.bind_eq_some_iff.mp hes
      rw [FileTree.get?_nil] at hes
      cases hes
      rw [FileTree.entry?_directory] at hfound
      rw [hfound] at hnodirectory
      exact hnodirectory rfl

/-- A text that is written stands in its file, and every other file is as it was. -/
theorem fileAt?_written (h : fs.written path text = .ok fs') :
    fs'.current = fs.current ∧ ∀ p, fs'.root.fileAt? p =
      if p = fs.placeOf path then some (.text text) else fs.root.fileAt? p := by
  obtain ⟨init, name, entries, hplace, hinit, hfile, rfl⟩ := exists_of_written h
  refine ⟨rfl, fun p => ?_⟩
  rw [hplace]
  exact FileTree.fileAt?_set_file hinit hfile (.text text) p

end FileSystem

/-! ## Storing -/

section

open FileSystem

variable {fs fs' : FileSystem} {target : Path} {text : String}

/-- Writing changes one file and makes no other. -/
theorem fileAt?_write (h : (FileSystem.write target text).run.run fs = (.ok (), fs')) :
    fs'.current = fs.current ∧ ∀ p, fs'.root.fileAt? p =
      if p = fs.placeOf target then some (.text text) else fs.root.fileAt? p := by
  rw [FileSystem.write, run_get_bind] at h
  rcases hwritten : fs.written target text with e | fs₁
  · rw [hwritten] at h
    cases h
  · rw [hwritten] at h
    cases h
    exact fileAt?_written hwritten

/-- A text that is stored stands in its file, and every other file is as it was. -/
theorem fileAt?_store (h : (Job.store target text).run.run fs = (.ok (), fs')) :
    fs'.current = fs.current ∧ ∀ p, fs'.root.fileAt? p =
      if p = fs.placeOf target then some (.text text) else fs.root.fileAt? p := by
  obtain ⟨fs₁, hsame, hwrite⟩ : ∃ fs₁, SameFiles fs fs₁ ∧
      (FileSystem.write target text).run.run fs₁ = (.ok (), fs') := by
    rw [Job.store] at h
    rcases hparent : target.parent? with _ | directory
    · rw [hparent] at h
      exact ⟨fs, .refl fs, h⟩
    · rw [hparent] at h
      have hsame := sameFiles_makeDirectoriesFrom (directory :: directory.ancestors) fs
      rcases hmake : (FileSystem.makeDirectories directory).run.run fs with ⟨e | ⟨⟩, fs₁⟩
      · rw [run_change_bind_of_error hmake] at h
        cases h
      · rw [run_change_bind_of_ok hmake] at h
        rw [makeDirectories] at hmake
        rw [hmake] at hsame
        exact ⟨fs₁, hsame, h⟩
  obtain ⟨hcurrent, hfiles⟩ := fileAt?_write hwrite
  refine ⟨hcurrent.trans hsame.current_eq, fun p => ?_⟩
  rw [hfiles, hsame.placeOf_eq, hsame.fileAt?_eq]

/-- The places that texts are stored at hold them, and every other file is as it was, if no two of
the places are the same. -/
theorem fileAt?_storeAll {targets : List (Path × String)}
    (h : (Job.storeAll targets).run.run fs = (.ok (), fs'))
    (hdistinct : targets.Pairwise fun x y => fs.placeOf x.1 ≠ fs.placeOf y.1) :
    (∀ x ∈ targets, fs'.root.fileAt? (fs.placeOf x.1) = some (.text x.2)) ∧
      ∀ p, (∀ x ∈ targets, p ≠ fs.placeOf x.1) → fs'.root.fileAt? p = fs.root.fileAt? p := by
  induction targets generalizing fs with
  | nil =>
    cases h
    exact ⟨fun x hx => absurd hx List.not_mem_nil, fun p _ => rfl⟩
  | cons x targets ih =>
    obtain ⟨hfirst, hrest⟩ := List.pairwise_cons.mp hdistinct
    rw [Job.storeAll, List.forM_eq_forM, List.forM_cons] at h
    rcases hstore : (Job.store x.1 x.2).run.run fs with ⟨e | ⟨⟩, fs₁⟩
    · rw [run_change_bind_of_error hstore] at h
      cases h
    · rw [run_change_bind_of_ok hstore] at h
      obtain ⟨hcurrent, hfiles⟩ := fileAt?_store hstore
      have hplace : ∀ path, fs₁.placeOf path = fs.placeOf path := by
        intro path
        rw [placeOf, placeOf, hcurrent]
      obtain ⟨hheld, hothers⟩ := ih h (by simpa only [hplace] using hrest)
      simp only [hplace] at hheld hothers
      refine ⟨List.forall_mem_cons.mpr ⟨?_, hheld⟩, fun p hp => ?_⟩
      · rw [hothers _ hfirst, hfiles, if_pos rfl]
      · obtain ⟨hpx, hp⟩ := List.forall_mem_cons.mp hp
        rw [hothers p hp, hfiles, if_neg hpx]

end

end Formulary
