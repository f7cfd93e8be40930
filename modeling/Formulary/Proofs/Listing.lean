import Formulary.Proofs.Below

/-!
# The content of a directory

A content file is a file that no name on the way to it hides and whose extension is asked for
(`FileTree.IsContent`). They are listed directory by directory: the files of a directory by name,
and then, by name, the directories in it (`comesBefore`).

A tree stands for a directory only if no two of its entries have one name, and none has a name that
would be read as something else in a path (`FileTree.WellFormed`).
-/

namespace Formulary

/-! ## Trees that stand for directories -/

namespace FileTree

/-- Every directory in a tree has one entry for a name, and all its names can be names. -/
inductive WellFormed : FileTree → Prop
  | file (content : FileContent) : WellFormed (.file content)
  | directory {entries : List (Name × FileTree)} (nodup : (entries.map (·.1)).Nodup)
      (names : ∀ x ∈ entries, Path.IsName x.1) (inner : ∀ x ∈ entries, WellFormed x.2) :
      WellFormed (.directory entries)

variable {t inner : FileTree} {entries : List (Name × FileTree)} {name : Name}
  {names : List Name} {extensions : List String}

theorem WellFormed.nodup_names (h : (FileTree.directory entries).WellFormed) :
    (entries.map (·.1)).Nodup := by
  cases h with
  | directory hnodup hnames hinner => exact hnodup

theorem WellFormed.isName_of_mem (h : (FileTree.directory entries).WellFormed)
    (hmem : (name, t) ∈ entries) : Path.IsName name := by
  cases h with
  | directory hnodup hnames hinner => exact hnames _ hmem

theorem WellFormed.of_mem (h : (FileTree.directory entries).WellFormed)
    (hmem : (name, t) ∈ entries) : t.WellFormed := by
  cases h with
  | directory hnodup hnames hinner => exact hinner _ hmem

theorem mem_of_lookup (h : entries.lookup name = some t) : (name, t) ∈ entries := by
  obtain ⟨xs, ys, rfl, -⟩ := List.lookup_eq_some_iff.mp h
  simp

theorem lookup_of_mem (hnodup : (entries.map (·.1)).Nodup) (h : (name, t) ∈ entries) :
    entries.lookup name = some t := by
  induction entries with
  | nil => exact absurd h List.not_mem_nil
  | cons x entries ih =>
    rw [List.map_cons, List.nodup_cons] at hnodup
    rcases List.mem_cons.mp h with rfl | hrest
    · exact List.lookup_cons_self
    · have hne : (name == x.1) = false := by
        rw [beq_eq_false_iff_ne]
        rintro rfl
        exact hnodup.1 (List.mem_map.mpr ⟨_, hrest, rfl⟩)
      rw [List.lookup_cons, hne]
      exact ih hnodup.2 hrest

/-- What is found in a well-formed tree is well-formed. -/
theorem WellFormed.get? (hwf : t.WellFormed) {place : List Name}
    (h : t.get? place = some inner) : inner.WellFormed := by
  induction place generalizing t with
  | nil =>
    rw [get?_nil] at h
    exact Option.some.inj h ▸ hwf
  | cons name place ih =>
    rw [FileTree.get?] at h
    obtain ⟨child, hentry, hchild⟩ := Option.bind_eq_some_iff.mp h
    cases t with
    | file content => cases hentry
    | directory entries => exact ih (hwf.of_mem (mem_of_lookup hentry)) hchild

/-- All names on the way to a file can be names. -/
theorem WellFormed.isName_of_fileAt? (hwf : t.WellFormed) {content : FileContent}
    (h : t.fileAt? names = some content) : ∀ name ∈ names, Path.IsName name := by
  induction names generalizing t with
  | nil => exact fun name hmem => absurd hmem List.not_mem_nil
  | cons name names ih =>
    rw [fileAt?_cons] at h
    obtain ⟨child, hentry, hchild⟩ := Option.bind_eq_some_iff.mp h
    cases t with
    | file content => cases hentry
    | directory entries =>
      have hmem := mem_of_lookup hentry
      exact List.forall_mem_cons.mpr ⟨hwf.isName_of_mem hmem, ih (hwf.of_mem hmem) hchild⟩

/-- There is a content file at a place: no name on the way is a text that starts with a dot, and what
follows the last dot of its name is asked for. -/
structure IsContent (t : FileTree) (extensions : List String) (names : List Name) : Prop where
  isFile : ∃ content, t.fileAt? names = some content
  visible : ∀ name ∈ names, ∀ rest, name ≠ Name.ofText ("." ++ rest)
  extension : ∃ stem, ∃ extension ∈ extensions,
    names.getLast? = some (stem ++ Name.dot :: Name.ofText extension) ∧ stem ≠ [] ∧
      Name.dot ∉ Name.ofText extension

theorem IsContent.ne_nil (h : t.IsContent extensions names) : names ≠ [] := by
  rintro rfl
  obtain ⟨stem, extension, -, hlast, -⟩ := h.extension
  cases hlast

theorem fileAt?_singleton_iff (hnodup : (entries.map (·.1)).Nodup) {content : FileContent} :
    (directory entries).fileAt? [name] = some content ↔ (name, file content) ∈ entries := by
  rw [fileAt?_cons]
  constructor
  · intro h
    obtain ⟨child, hentry, hchild⟩ := Option.bind_eq_some_iff.mp h
    cases child with
    | file found =>
      rw [fileAt?_file, if_pos rfl] at hchild
      exact Option.some.inj hchild ▸ mem_of_lookup hentry
    | directory es =>
      rw [fileAt?_directory_nil] at hchild
      cases hchild
  · intro h
    rw [entry?_directory, lookup_of_mem hnodup h, Option.bind_some, fileAt?_file, if_pos rfl]

/-- A content file has one of the extensions, and does not start with a dot. -/
theorem isContentName_iff : ContentUnit.isContentName extensions name = true ↔
    (∀ rest, name ≠ Name.ofText ("." ++ rest)) ∧ ∃ stem, ∃ extension ∈ extensions,
      name = stem ++ Name.dot :: Name.ofText extension ∧ stem ≠ [] ∧
        Name.dot ∉ Name.ofText extension := by
  rw [ContentUnit.isContentName, Bool.and_eq_true, Bool.not_eq_true', Path.isHidden_eq_false_iff,
    Option.any_eq_true]
  refine and_congr_right' ⟨?_, ?_⟩
  · rintro ⟨extension, hsome, hasked⟩
    obtain ⟨bytes, hbytes, htext⟩ := Option.bind_eq_some_iff.mp hsome
    rw [Name.text?_eq_some_iff.mp htext] at hbytes
    obtain ⟨stem, hname, hstem, hdot⟩ := Path.extension?_eq_some_iff.mp hbytes
    exact ⟨stem, extension, by simpa using hasked, hname, hstem, hdot⟩
  · rintro ⟨stem, extension, hasked, hname, hstem, hdot⟩
    refine ⟨extension, ?_, by simpa using hasked⟩
    rw [Path.extension?_eq_some_iff.mpr ⟨stem, hname, hstem, hdot⟩]
    exact Name.text?_ofText extension

/-- The content files in a directory itself. -/
theorem isContent_singleton_iff (hnodup : (entries.map (·.1)).Nodup) :
    (directory entries).IsContent extensions [name] ↔
      (∃ content, (name, file content) ∈ entries) ∧
        ContentUnit.isContentName extensions name = true := by
  rw [isContentName_iff]
  constructor
  · rintro ⟨⟨content, hfile⟩, hvisible, stem, extension, hasked, hlast, hextension⟩
    exact ⟨⟨content, (fileAt?_singleton_iff hnodup).mp hfile⟩, hvisible name List.mem_cons_self,
      stem, extension, hasked, Option.some.inj hlast, hextension⟩
  · rintro ⟨⟨content, hfile⟩, hvisible, stem, extension, hasked, hname, hextension⟩
    exact ⟨⟨content, (fileAt?_singleton_iff hnodup).mpr hfile⟩, by simpa using hvisible,
      stem, extension, hasked, congrArg some hname, hextension⟩

/-- The content files further down. -/
theorem isContent_cons_iff (hnodup : (entries.map (·.1)).Nodup) (hne : names ≠ []) :
    (directory entries).IsContent extensions (name :: names) ↔
      Path.isHidden name = false ∧ ∃ inner, (name, directory inner) ∈ entries ∧
        (directory inner).IsContent extensions names := by
  rw [Path.isHidden_eq_false_iff]
  have hlast : (name :: names).getLast? = names.getLast? := by
    rw [List.getLast?_cons, List.getLast?_eq_some_getLast hne, Option.getD_some]
  constructor
  · rintro ⟨⟨content, hfile⟩, hvisible, hextension⟩
    obtain ⟨hname, hnames⟩ := List.forall_mem_cons.mp hvisible
    rw [fileAt?_cons] at hfile
    obtain ⟨child, hentry, hchild⟩ := Option.bind_eq_some_iff.mp hfile
    cases child with
    | file found =>
      rw [fileAt?_file, if_neg hne] at hchild
      cases hchild
    | directory inner =>
      rw [hlast] at hextension
      exact ⟨hname, inner, mem_of_lookup hentry, ⟨content, hchild⟩, hnames, hextension⟩
  · rintro ⟨hname, inner, hmem, ⟨content, hfile⟩, hnames, hextension⟩
    refine ⟨⟨content, ?_⟩, List.forall_mem_cons.mpr ⟨hname, hnames⟩, hlast ▸ hextension⟩
    rw [fileAt?_cons, entry?_directory, lookup_of_mem hnodup hmem, Option.bind_some, hfile]

end FileTree

/-! ## The order of a listing -/

/-- Whether one file is listed before another, from the names on the way to them: in a directory
the files come before the directories, and both come by name. -/
def comesBefore : List Name → List Name → Bool
  | [a], [b] => a < b
  | [_], _ :: _ :: _ => true
  | a :: n :: ns, b :: m :: ms => a < b || a == b && comesBefore (n :: ns) (m :: ms)
  | _, _ => false

/-- Whether files are in one directory, and the first is listed at or before the second. -/
def isUpTo (names others : List Name) : Bool :=
  others.dropLast == names.dropLast && (others == names || comesBefore others names)

/-- No file is listed before itself. -/
theorem comesBefore_irrefl (names : List Name) : comesBefore names names = false := by
  induction names with
  | nil => rfl
  | cons a names ih =>
    cases names with
    | nil => simp [comesBefore]
    | cons n names => simp [comesBefore, ih]

theorem isUpTo_singleton (a b : Name) : isUpTo [a] [b] = (b == a || b < a) := by
  simp [isUpTo, comesBefore]

theorem isUpTo_singleton_cons {names : List Name} (hne : names ≠ []) (a b : Name) :
    isUpTo [a] (b :: names) = false := by
  obtain ⟨n, ns, rfl⟩ := List.exists_cons_of_ne_nil hne
  simp [isUpTo]

theorem isUpTo_cons_singleton {names : List Name} (hne : names ≠ []) (a b : Name) :
    isUpTo (a :: names) [b] = false := by
  obtain ⟨n, ns, rfl⟩ := List.exists_cons_of_ne_nil hne
  simp [isUpTo]

theorem isUpTo_cons_cons {names others : List Name} (hnames : names ≠ []) (hothers : others ≠ [])
    (a b : Name) : isUpTo (a :: names) (b :: others) = (b == a && isUpTo names others) := by
  obtain ⟨n, ns, rfl⟩ := List.exists_cons_of_ne_nil hnames
  obtain ⟨m, ms, rfl⟩ := List.exists_cons_of_ne_nil hothers
  by_cases hab : b = a
  · subst hab
    have hirrefl : ¬b < b := Std.lt_irrefl
    simp [isUpTo, comesBefore, hirrefl]
  · have hbeq : (b == a) = false := by simpa using hab
    simp [isUpTo, hbeq]

/-! ## The content files and units of a directory -/

namespace ContentUnit

open FileTree

variable {entries : List (Name × FileTree)} {extensions : List String} {path : Path}
  {name : Name}

/-- The files that are listed in a directory. -/
theorem mem_namedFiles {p : Path} : (name, p) ∈ namedFiles extensions path entries ↔
    (∃ content, (name, file content) ∈ entries) ∧ isContentName extensions name = true ∧
      p = path.join ⟨name⟩ := by
  induction entries with
  | nil => simp [namedFiles]
  | cons x entries ih =>
    obtain ⟨n, content | inner⟩ := x
    · rw [namedFiles]
      split <;> grind
    · rw [namedFiles, ih]
      simp

/-- The directories that are listed in a directory. -/
theorem mem_namedUnits {u : ContentUnit} : (name, u) ∈ namedUnits extensions path entries ↔
    ∃ inner, (name, directory inner) ∈ entries ∧ Path.isHidden name = false ∧
      u = ofEntries extensions (path.join ⟨name⟩) inner := by
  induction entries with
  | nil => simp [namedUnits]
  | cons x entries ih =>
    obtain ⟨n, content | inner⟩ := x
    · rw [namedUnits, ih]
      simp
    · rw [namedUnits]
      split <;> grind

theorem sublist_namedFiles :
    ((namedFiles extensions path entries).map (·.1)).Sublist (entries.map (·.1)) := by
  induction entries with
  | nil => exact List.nil_sublist _
  | cons x entries ih =>
    obtain ⟨n, content | inner⟩ := x
    · rw [namedFiles]
      split
      · exact ih.cons_cons n
      · exact ih.cons n
    · rw [namedFiles]
      exact ih.cons n

theorem sublist_namedUnits :
    ((namedUnits extensions path entries).map (·.1)).Sublist (entries.map (·.1)) := by
  induction entries with
  | nil =>
    rw [namedUnits]
    exact List.nil_sublist _
  | cons x entries ih =>
    obtain ⟨n, content | inner⟩ := x
    · rw [namedUnits]
      exact ih.cons n
    · rw [namedUnits]
      split
      · exact ih.cons n
      · exact ih.cons_cons n

/-- Putting things in order gives the same things, by name. -/
theorem exists_inNameOrder {α : Type} {named : List (Name × α)}
    (hnodup : (named.map (·.1)).Nodup) :
    ∃ ordered : List (Name × α), inNameOrder named = ordered.map (·.2) ∧
      (∀ x, x ∈ ordered ↔ x ∈ named) ∧ ordered.Pairwise fun x y => x.1 < y.1 := by
  refine ⟨_, rfl, fun x => List.mem_mergeSort, ?_⟩
  -- Sorting gives weak order only; the names are distinct.
  have hsorted : (named.mergeSort fun a b => a.1 ≤ b.1).Pairwise fun x y => x.1 ≤ y.1 := by
    refine (List.pairwise_mergeSort ?_ ?_ named).imp of_decide_eq_true
    · intro a b c hab hbc
      exact decide_eq_true (Std.le_trans (of_decide_eq_true hab) (of_decide_eq_true hbc))
    · intro a b
      rw [Bool.or_eq_true, decide_eq_true_eq, decide_eq_true_eq]
      exact Std.le_total
  have hdistinct : (named.mergeSort fun a b => a.1 ≤ b.1).Pairwise fun x y => x.1 ≠ y.1 := by
    rw [← List.pairwise_map]
    exact ((List.mergeSort_perm named _).map (·.1)).nodup_iff.mpr hnodup
  exact (hsorted.and hdistinct).imp fun h => Std.lt_of_le_of_ne h.1 h.2

end ContentUnit

end Formulary
