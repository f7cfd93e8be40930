import Formulary.Proofs.Places

/-!
# Paths below a directory

The names on the way from a directory to something below it, as a path. Paths are bytes, and a
directory may be given with or without a slash at its end; what is below it is at the same place in
both cases (`placeOf_below`), and the way to it can be read off again (`relativeTo_below`).
-/

namespace Formulary

namespace Name

theorem text?_ofText (text : String) : text? (ofText text) = some text := by
  simp only [text?, ofText, String.fromUTF8?, Array.toArray_toList]
  exact dif_pos text.isValidUTF8

/-- Bytes that are a text are the bytes of that text. -/
theorem text?_eq_some_iff {bytes : Name} {text : String} :
    text? bytes = some text ↔ bytes = ofText text := by
  refine ⟨fun h => ?_, fun h => h ▸ text?_ofText text⟩
  unfold text? String.fromUTF8? at h
  split at h
  · cases h
    simp [ofText, String.fromUTF8]
  · cases h

end Name

namespace Path

open Name (slash dot)

variable {name : Name} {names : List Name} {p : Path}

/-- A name that an entry of a directory can have. -/
structure IsName (name : Name) : Prop where
  ne_empty : name ≠ []
  ne_dot : name ≠ [dot]
  ne_dots : name ≠ [dot, dot]
  noSlash : slash ∉ name

instance (name : Name) : Decidable (IsName name) :=
  decidable_of_iff (name ≠ [] ∧ name ≠ [dot] ∧ name ≠ [dot, dot] ∧ slash ∉ name)
    ⟨fun ⟨hempty, hdot, hdots, hslash⟩ => ⟨hempty, hdot, hdots, hslash⟩,
      fun h => ⟨h.ne_empty, h.ne_dot, h.ne_dots, h.noSlash⟩⟩

/-- A name hides if it is a text that starts with a dot. -/
theorem isHidden_eq_false_iff : isHidden name = false ↔ ∀ rest, name ≠ Name.ofText ("." ++ rest) := by
  rw [isHidden]
  constructor
  · rintro h rest rfl
    rw [Name.text?_ofText] at h
    simp at h
  · intro h
    rw [← Bool.not_eq_true, Option.any_eq_true]
    rintro ⟨text, htext, hdot⟩
    obtain ⟨rest, hrest⟩ := List.head?_eq_some_iff.mp (beq_iff_eq.mp hdot)
    have heq : text = "." ++ String.ofList rest := String.toList_inj.mp (hrest.trans (by simp))
    exact h _ (heq ▸ Name.text?_eq_some_iff.mp htext)

/-- The extension is what follows the last dot, if something stands before the dot. -/
theorem extension?_eq_some_iff {extension : Name} : extension? name = some extension ↔
    ∃ stem, name = stem ++ dot :: extension ∧ stem ≠ [] ∧ dot ∉ extension := by
  constructor
  · intro h
    rw [extension?] at h
    have hsplit : name.reverse.takeWhile (· != dot) ++ name.reverse.dropWhile (· != dot) =
        name.reverse := List.takeWhile_append_dropWhile
    have hhead := List.head?_dropWhile_not (· != dot) name.reverse
    have hall : (name.reverse.takeWhile (· != dot)).all (· != dot) = true := List.all_takeWhile
    generalize name.reverse.takeWhile (· != dot) = taken at h hsplit hall
    rcases hdrop : name.reverse.dropWhile (· != dot) with _ | ⟨d, _ | ⟨b, bytes⟩⟩
    · simp [hdrop] at h
    · simp [hdrop] at h
    · simp only [hdrop] at h hsplit hhead
      have hd : d = dot := by simpa using hhead
      rw [← Option.some.inj h]
      refine ⟨(b :: bytes).reverse, ?_, by simp, ?_⟩
      · rw [← List.reverse_reverse name, ← hsplit, hd]
        simp
      · intro hdot
        exact absurd rfl (bne_iff_ne.mp (List.all_eq_true.mp hall dot (List.mem_reverse.mp hdot)))
  · rintro ⟨stem, rfl, hstem, hdot⟩
    have hreverse : (stem ++ dot :: extension).reverse =
        extension.reverse ++ dot :: stem.reverse := by simp
    have hbefore : ∀ b ∈ extension.reverse, (b != dot) = true := by
      intro b hb
      rw [bne_iff_ne]
      rintro rfl
      exact hdot (List.mem_reverse.mp hb)
    obtain ⟨b, bytes, hbytes⟩ : ∃ b bytes, stem.reverse = b :: bytes :=
      List.exists_cons_of_ne_nil (by simpa using hstem)
    rw [extension?]
    simp only [hreverse, List.dropWhile_append_of_pos hbefore, List.takeWhile_append_of_pos hbefore,
      hbytes]
    simp

/-- The path of what is below a directory, from the names on the way to it. -/
def below (directory : Path) (names : List Name) : Path :=
  directory.join ⟨[slash].intercalate names⟩

theorem below_singleton (directory : Path) (name : Name) :
    directory.below [name] = directory.join ⟨name⟩ := by
  rw [below, List.intercalate_singleton]

/-! ## Segments -/

theorem segmentsOf_append (xs ys : List UInt8) :
    segmentsOf (xs ++ slash :: ys) = segmentsOf xs ++ segmentsOf ys := by
  induction xs with
  | nil => rfl
  | cons b xs ih =>
    rw [List.cons_append, segmentsOf, segmentsOf, ih]
    split
    · rfl
    · obtain ⟨segment, segments, hsegments⟩ := List.exists_cons_of_ne_nil (segmentsOf_ne_nil xs)
      rw [hsegments]
      rfl

theorem segmentsOf_of_notMem {bytes : List UInt8} (h : slash ∉ bytes) :
    segmentsOf bytes = [bytes] := by
  induction bytes with
  | nil => rfl
  | cons b bytes ih =>
    have hb : ¬b = slash := by
      rintro rfl
      exact h List.mem_cons_self
    rw [segmentsOf, if_neg hb, ih fun hslash => h (List.mem_cons_of_mem b hslash)]

theorem intercalate_cons (hne : names ≠ []) (name : Name) :
    [slash].intercalate (name :: names) = name ++ slash :: [slash].intercalate names := by
  rw [List.intercalate_cons_of_ne_nil hne, List.append_assoc, List.singleton_append]

theorem segmentsOf_intercalate (hne : names ≠ []) (hnames : ∀ n ∈ names, IsName n) :
    segmentsOf ([slash].intercalate names) = names := by
  induction names with
  | nil => exact absurd rfl hne
  | cons name names ih =>
    obtain ⟨hfirst, hrest⟩ := List.forall_mem_cons.mp hnames
    by_cases hnil : names = []
    · rw [hnil, List.intercalate_singleton, segmentsOf_of_notMem hfirst.noSlash]
    · rw [intercalate_cons hnil, segmentsOf_append, segmentsOf_of_notMem hfirst.noSlash,
        ih hnil hrest, List.singleton_append]

/-! ## Slashes at the end -/

/-- The bytes of a directory, with a slash at their end. -/
def slashed (p : Path) : List UInt8 :=
  if p.bytes.getLast? == some slash then p.bytes else p.bytes ++ [slash]

theorem join_eq_slashed {q : Path} (hp : p.bytes ≠ []) (hq : q.isAbsolute = false) :
    p.join q = ⟨p.slashed ++ q.bytes⟩ := by
  have hempty : p.bytes.isEmpty = false := by simpa using hp
  rw [join, hq, hempty, Bool.or_self, if_neg Bool.false_ne_true, slashed]
  split
  · rfl
  · rw [List.append_assoc, List.singleton_append]

/-- What starts with a name does not start with a slash. -/
theorem head?_intercalate (hnames : ∀ n ∈ names, IsName n) :
    ([slash].intercalate names).head? ≠ some slash := by
  cases names with
  | nil => simp [List.intercalate]
  | cons name names =>
    obtain ⟨hfirst, -⟩ := List.forall_mem_cons.mp hnames
    obtain ⟨b, bytes, hname⟩ := List.exists_cons_of_ne_nil hfirst.ne_empty
    have hb : b ≠ slash := by
      rintro rfl
      exact hfirst.noSlash (hname ▸ List.mem_cons_self)
    by_cases hnil : names = []
    · rw [hnil, List.intercalate_singleton, hname]
      simpa using hb
    · rw [intercalate_cons hnil, hname]
      simpa using hb

theorem isAbsolute_intercalate (hnames : ∀ n ∈ names, IsName n) :
    isAbsolute ⟨[slash].intercalate names⟩ = false := by
  rw [isAbsolute, beq_eq_false_iff_ne]
  exact head?_intercalate hnames

theorem below_eq_slashed (hp : p.bytes ≠ []) (hnames : ∀ n ∈ names, IsName n) :
    p.below names = ⟨p.slashed ++ [slash].intercalate names⟩ :=
  join_eq_slashed hp (isAbsolute_intercalate hnames)

theorem join_name (hp : p.bytes ≠ []) (hname : IsName name) :
    p.join ⟨name⟩ = ⟨p.slashed ++ name⟩ := by
  rw [← below_singleton, below_eq_slashed hp (by simpa using hname), List.intercalate_singleton]

theorem join_ne_empty (hp : p.bytes ≠ []) (hname : IsName name) : (p.join ⟨name⟩).bytes ≠ [] := by
  simp [join_name hp hname, hname.ne_empty]

/-- What is below an entry of a directory is below the directory. -/
theorem below_join (hp : p.bytes ≠ []) (hname : IsName name) (hne : names ≠ [])
    (hnames : ∀ n ∈ names, IsName n) :
    (p.join ⟨name⟩).below names = p.below (name :: names) := by
  have hall : ∀ n ∈ name :: names, IsName n := List.forall_mem_cons.mpr ⟨hname, hnames⟩
  have hslashed : slashed ⟨p.slashed ++ name⟩ = p.slashed ++ name ++ [slash] := by
    -- What ends in a name does not end in a slash.
    rw [slashed, if_neg]
    rw [beq_iff_eq, List.getLast?_append, Option.or_eq_some_iff]
    rintro (hlast | ⟨hnone, -⟩)
    · exact hname.noSlash (List.mem_of_getLast? hlast)
    · exact hname.ne_empty (List.getLast?_eq_none_iff.mp hnone)
  rw [below_eq_slashed (join_ne_empty hp hname) hnames, join_name hp hname, hslashed,
    below_eq_slashed hp hall, intercalate_cons hne]
  simp

/-- Seen from a directory, what is below it is at the names on the way to it. -/
theorem relativeTo_below (directory : Path) (hnames : ∀ n ∈ names, IsName n) :
    (directory.below names).relativeTo directory = ⟨[slash].intercalate names⟩ := by
  have hdrop : ([slash].intercalate names).dropWhile (· == slash) = [slash].intercalate names := by
    have hhead := head?_intercalate hnames
    cases hlist : [slash].intercalate names with
    | nil => rfl
    | cons b bytes =>
      rw [hlist] at hhead
      rw [List.dropWhile_cons_of_neg]
      simpa using hhead
  rw [below, join, isAbsolute_intercalate hnames, Bool.false_or, relativeTo]
  congr 1
  split
  · next hempty =>
    rw [List.isEmpty_iff.mp hempty, List.length_nil, List.drop_zero, hdrop]
  · split
    · rw [List.drop_left, hdrop]
    · rw [List.drop_left, List.dropWhile_cons_of_pos (by simp), hdrop]

end Path

/-! ## Places -/

namespace FileSystem

open Formulary.Path
open Name (slash)

theorem foldl_advance_names {names : List Name} (hnames : ∀ n ∈ names, IsName n)
    (place : List Name) : names.foldl advance place = place ++ names := by
  induction names generalizing place with
  | nil => rw [List.foldl_nil, List.append_nil]
  | cons name names ih =>
    obtain ⟨hfirst, hrest⟩ := List.forall_mem_cons.mp hnames
    rw [List.foldl_cons, advance_of_ne place hfirst.ne_empty hfirst.ne_dot hfirst.ne_dots, ih hrest,
      List.append_assoc, List.singleton_append]

theorem foldl_advance_slashed (directory : Path) (place : List Name) (bytes : List UInt8) :
    (segmentsOf (directory.slashed ++ bytes)).foldl advance place =
      (segmentsOf bytes).foldl advance (directory.segments.foldl advance place) := by
  rw [slashed]
  split
  · next hslash =>
    obtain ⟨init, hinit⟩ := List.getLast?_eq_some_iff.mp (beq_iff_eq.mp hslash)
    have hempty : directory.segments = segmentsOf init ++ [[]] := by
      rw [segments, hinit, segmentsOf_append]
      rfl
    rw [hempty, hinit, List.append_assoc, List.singleton_append, segmentsOf_append,
      List.foldl_append, foldl_advance_concat]
    rfl
  · rw [List.append_assoc, List.singleton_append, segmentsOf_append, List.foldl_append]
    rfl

/-- What is below a directory is at the names on the way to it. -/
theorem placeOf_below (fs : FileSystem) (directory : Path) {names : List Name} (hne : names ≠ [])
    (hnames : ∀ n ∈ names, IsName n) :
    fs.placeOf (directory.below names) = fs.placeOf directory ++ names := by
  rw [placeOf_eq, placeOf_eq]
  by_cases hempty : directory.bytes = []
  · obtain ⟨bytes⟩ := directory
    subst hempty
    have hbelow : below ⟨[]⟩ names = ⟨[slash].intercalate names⟩ := by
      rw [below, join, if_pos (by simp)]
    rw [hbelow, start, isAbsolute_intercalate hnames, segments,
      segmentsOf_intercalate hne hnames, foldl_advance_names hnames]
    rfl
  · have hstart : fs.start (directory.below names) = fs.start directory := by
      obtain ⟨b, bytes, hlist⟩ := List.exists_cons_of_ne_nil hempty
      rw [start, start, isAbsolute, isAbsolute, below_eq_slashed hempty hnames, slashed]
      split <;> simp only [hlist, List.cons_append, List.head?_cons]
    rw [hstart, below_eq_slashed hempty hnames, segments, foldl_advance_slashed,
      segmentsOf_intercalate hne hnames, foldl_advance_names hnames]

end FileSystem

end Formulary
