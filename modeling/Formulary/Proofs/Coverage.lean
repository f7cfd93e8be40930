import Formulary.Fixer.Unit
import Formulary.Proofs.Listing

/-!
# Fixing the content of a directory

When all content below a directory is fixed, every content file is read once and in order, and what
becomes of it depends only on the files of its own directory up to it (`Fixer.Covers`). The proof
follows the tree: a directory is put together from its own files and from what fixing made of the
directories in it (`gather`).
-/

namespace Formulary

/-! ## Fixing files one after the other -/

theorem run_of_run_adapt {ε ε' σ α : Type} {g : ε → ε'} {x : ExceptT ε (StateT σ Option) α}
    {s s' : σ} {a : α} (h : (ExceptT.adapt g x).run.run s = some (.ok a, s')) :
    x.run.run s = some (.ok a, s') := by
  have hmap : (ExceptT.adapt g x).run.run s =
      (x.run.run s).bind fun out => some (out.1.mapError g, out.2) := rfl
  rw [hmap] at h
  obtain ⟨⟨e | b, s₁⟩, hx, h⟩ := Option.bind_eq_some_iff.mp h
  · cases h
  · cases h
    exact hx

/-- What is done one after the other succeeds only if the first does and then the second does. -/
theorem exists_of_run_bind_eq_ok {ε α β : Type} {x : ExceptT ε Option α}
    {g : α → ExceptT ε Option β} {b : β} (h : (x >>= g).run = some (.ok b)) :
    ∃ a, x.run = some (.ok a) ∧ (g a).run = some (.ok b) := by
  rw [ExceptT.run_bind] at h
  obtain ⟨e | a, hx, h⟩ := Option.bind_eq_some_iff.mp h
  · cases h
  · exact ⟨a, hx, h⟩

/-- The new text of a file and the warnings about it. -/
def FixedFile.result (file : FixedFile) : Fixed := ⟨file.after, file.skipped⟩

namespace Fixer

variable {f : Fixer} {fs : FileSystem} {path : Path} {file : FixedFile} {paths : List Path}
  {files : List FixedFile} {ds ds' : Definitions}

/-- Fixes texts one after the other. They share their macros, from none at the start. -/
def fixTexts (f : Fixer) (texts : List String) : Option (Except Diagnosis (List Fixed)) :=
  ((texts.mapM f.fixText).run.run Definitions.empty).map (·.1)

theorem fixText_of_fixFile (h : (f.fixFile fs path).run.run ds = some (.ok file, ds')) :
    file.path = path ∧ fs.read path = .ok file.before ∧
      (f.fixText file.before).run.run ds = some (.ok file.result, ds') := by
  rw [fixFile] at h
  rcases hread : fs.read path with e | before
  · rw [hread] at h
    cases h
  · rw [hread] at h
    rcases run_bind_eq_some h with ⟨fixed, ds₁, hfix, hdone⟩ | ⟨e, ds₁, -, hout⟩
    · cases hdone
      exact ⟨rfl, rfl, run_of_run_adapt hfix⟩
    · cases hout

/-- Of files that are fixed one after the other, each is fixed after those before it. -/
theorem fixTexts_of_fixFiles (h : (paths.mapM (f.fixFile fs)).run.run ds = some (.ok files, ds')) :
    files.map (·.path) = paths ∧ (∀ file ∈ files, fs.read file.path = .ok file.before) ∧
      ∀ k, ∃ ds₁, (((files.take k).map (·.before)).mapM f.fixText).run.run ds =
        some (.ok ((files.take k).map (·.result)), ds₁) := by
  induction paths generalizing ds files with
  | nil =>
    rw [List.mapM_nil] at h
    cases h
    refine ⟨rfl, fun file hmem => absurd hmem List.not_mem_nil, fun k => ⟨ds', ?_⟩⟩
    rw [List.take_nil]
    rfl
  | cons path paths ih =>
    rw [List.mapM_cons] at h
    rcases run_bind_eq_some h with ⟨file, ds₁, hfile, hrest⟩ | ⟨e, ds₁, -, hout⟩
    · rcases run_bind_eq_some hrest with ⟨others, ds₂, hothers, hdone⟩ | ⟨e, ds₂, -, hout⟩
      · cases hdone
        obtain ⟨hpath, hread, hfix⟩ := fixText_of_fixFile hfile
        obtain ⟨hpaths, hreads, hfixes⟩ := ih hothers
        refine ⟨by rw [List.map_cons, hpath, hpaths],
          List.forall_mem_cons.mpr ⟨by rwa [hpath], hreads⟩, fun k => ?_⟩
        cases k with
        | zero => exact ⟨ds, rfl⟩
        | succ k =>
          obtain ⟨ds₃, hk⟩ := hfixes k
          refine ⟨ds₃, ?_⟩
          rw [List.take_succ_cons, List.map_cons, List.mapM_cons, run_bind_of_ok hfix,
            run_bind_of_ok hk]
          rfl
      · cases hout
    · cases hout

/-- The files of a directory, fixed in their order. -/
theorem exists_of_fixFiles {named : List (Name × Path)}
    (h : (f.fixFiles fs (named.map (·.2))).run = some (.ok files)) :
    ∃ own : List (Name × FixedFile), files = own.map (·.2) ∧
      own.map (fun x => (x.1, x.2.path)) = named ∧
      (∀ x ∈ own, fs.read x.2.path = .ok x.2.before) ∧
      ∀ k, f.fixTexts ((own.take k).map (·.2.before)) =
        some (.ok ((own.take k).map (·.2.result))) := by
  obtain ⟨⟨result, ds⟩, hrun, hresult⟩ := Option.map_eq_some_iff.mp h
  cases hresult
  obtain ⟨hpaths, hreads, hfixes⟩ := fixTexts_of_fixFiles hrun
  have hlength : (named.map (·.1)).length = files.length := by
    rw [List.length_map, ← List.length_map (·.2), ← hpaths, List.length_map]
  have hsnd : ((named.map (·.1)).zip files).map (·.2) = files :=
    List.map_snd_zip (Nat.le_of_eq hlength.symm)
  refine ⟨(named.map (·.1)).zip files, hsnd.symm, ?_, fun x hx => hreads x.2 ?_, fun k => ?_⟩
  · calc ((named.map (·.1)).zip files).map (fun x => (x.1, x.2.path))
        = (named.map (·.1)).zip (files.map (·.path)) := by rw [List.zip_map_right]; rfl
      _ = (named.map (·.1)).zip (named.map (·.2)) := by rw [hpaths]
      _ = named := (List.zip_of_prod rfl rfl).symm
  · rw [← hsnd]
    exact List.mem_map.mpr ⟨x, hx, rfl⟩
  · obtain ⟨ds₁, hk⟩ := hfixes k
    rw [← hsnd, ← List.map_take, List.map_map, List.map_map] at hk
    exact congrArg (Option.map (·.1)) hk

end Fixer

/-! ## Fixing a directory -/

/-- The files of a directory itself, and those of the directories in it, with the names on the way
to them. -/
def gather (own : List (Name × FixedFile))
    (groups : List (Name × List (List Name × FixedFile))) : List (List Name × FixedFile) :=
  own.map (fun x => ([x.1], x.2)) ++ groups.flatMap fun g => g.2.map fun x => (g.1 :: x.1, x.2)

section Gather

variable {own : List (Name × FixedFile)}
  {groups : List (Name × List (List Name × FixedFile))}

theorem mem_map_gather {names : List Name} : names ∈ (gather own groups).map (·.1) ↔
    (∃ x ∈ own, [x.1] = names) ∨ ∃ g ∈ groups, ∃ x ∈ g.2, g.1 :: x.1 = names := by
  rw [gather, List.map_append, List.mem_append, List.map_map, List.mem_map, List.map_flatMap,
    List.mem_flatMap]
  simp only [List.map_map, List.mem_map, Function.comp_apply]

theorem mem_gather {y : List Name × FixedFile} : y ∈ gather own groups ↔
    (∃ x ∈ own, ([x.1], x.2) = y) ∨ ∃ g ∈ groups, ∃ x ∈ g.2, (g.1 :: x.1, x.2) = y := by
  rw [gather, List.mem_append, List.mem_map, List.mem_flatMap]
  simp only [List.mem_map]

theorem map_snd_gather : (gather own groups).map (·.2) =
    own.map (·.2) ++ groups.flatMap fun g => g.2.map (·.2) := by
  rw [gather, List.map_append, List.map_map, List.map_flatMap]
  simp only [List.map_map]
  rfl

variable (hown : own.Pairwise fun x y => x.1 < y.1) (hgroups : groups.Pairwise fun x y => x.1 < y.1)
  (hne : ∀ g ∈ groups, ∀ x ∈ g.2, x.1 ≠ [])

include hown hgroups hne in
theorem ordered_gather
    (hordered : ∀ g ∈ groups, g.2.Pairwise fun x y => comesBefore x.1 y.1 = true) :
    (gather own groups).Pairwise fun x y => comesBefore x.1 y.1 = true := by
  rw [gather, List.pairwise_append]
  refine ⟨?_, ?_, ?_⟩
  · refine List.pairwise_map.mpr (hown.imp fun hlt => ?_)
    simpa [comesBefore] using hlt
  · refine List.pairwise_flatMap.mpr ⟨fun g hg => ?_, ?_⟩
    · refine List.pairwise_map.mpr ((hordered g hg).imp_of_mem fun {x y} hx hy hbefore => ?_)
      obtain ⟨n, ns, hn⟩ := List.exists_cons_of_ne_nil (hne g hg x hx)
      obtain ⟨m, ms, hm⟩ := List.exists_cons_of_ne_nil (hne g hg y hy)
      rw [hn, hm] at hbefore ⊢
      simp [comesBefore, hbefore]
    · refine hgroups.imp_of_mem fun {g g'} hg hg' hlt => ?_
      intro x hx y hy
      obtain ⟨x, hxmem, rfl⟩ := List.mem_map.mp hx
      obtain ⟨y, hymem, rfl⟩ := List.mem_map.mp hy
      obtain ⟨n, ns, hn⟩ := List.exists_cons_of_ne_nil (hne g hg x hxmem)
      obtain ⟨m, ms, hm⟩ := List.exists_cons_of_ne_nil (hne g' hg' y hymem)
      rw [hn, hm]
      simp [comesBefore, hlt]
  · intro x hx y hy
    obtain ⟨x, hxmem, rfl⟩ := List.mem_map.mp hx
    obtain ⟨g, hg, hy⟩ := List.mem_flatMap.mp hy
    obtain ⟨y, hymem, rfl⟩ := List.mem_map.mp hy
    obtain ⟨m, ms, hm⟩ := List.exists_cons_of_ne_nil (hne g hg y hymem)
    rw [hm]
    rfl

include hown hne in
/-- The files at or before a file of the directory itself are the first of its files. -/
theorem exists_take_of_isUpTo {x : Name × FixedFile} (hx : x ∈ own) :
    ∃ k, (gather own groups).filter (isUpTo [x.1] ·.1) =
      (own.take k).map fun y => ([y.1], y.2) := by
  obtain ⟨before, after, rfl⟩ := List.append_of_mem hx
  obtain ⟨-, hafter, hacross⟩ := List.pairwise_append.mp hown
  have hfirst : before.filter (fun y => isUpTo [x.1] [y.1]) = before := by
    refine List.filter_eq_self.mpr fun y hy => ?_
    have hlt := hacross y hy x List.mem_cons_self
    simp [isUpTo_singleton, hlt]
  have hrest : after.filter (fun y => isUpTo [x.1] [y.1]) = [] := by
    refine List.filter_eq_nil_iff.mpr fun y hy => ?_
    have hlt := (List.pairwise_cons.mp hafter).1 y hy
    rw [isUpTo_singleton, Bool.or_eq_true, beq_iff_eq, decide_eq_true_eq]
    rintro (heq | hgt)
    · exact Std.lt_irrefl (heq ▸ hlt)
    · exact Std.lt_irrefl (Std.lt_trans hlt hgt)
  have hbelow : (groups.flatMap fun g => g.2.map fun y => (g.1 :: y.1, y.2)).filter
      (isUpTo [x.1] ·.1) = [] := by
    refine List.filter_eq_nil_iff.mpr fun y hy => ?_
    obtain ⟨g, hg, hy⟩ := List.mem_flatMap.mp hy
    obtain ⟨y, hymem, rfl⟩ := List.mem_map.mp hy
    rw [isUpTo_singleton_cons (hne g hg y hymem)]
    exact Bool.false_ne_true
  refine ⟨before.length + 1, ?_⟩
  have hself : isUpTo [x.1] [x.1] = true := by simp [isUpTo_singleton]
  have htake : (before ++ x :: after).take (before.length + 1) = before ++ [x] := by
    rw [List.take_append, List.take_of_length_le (Nat.le_succ _), Nat.add_sub_cancel_left]
    rfl
  have hfilter : (before ++ x :: after).filter (fun y => isUpTo [x.1] [y.1]) = before ++ [x] := by
    rw [List.filter_append, hfirst, List.filter_cons, if_pos hself, hrest]
  rw [gather, List.filter_append, hbelow, List.append_nil, List.filter_map, htake]
  exact congrArg _ hfilter

include hgroups hne in
/-- The files at or before a file further down are in the same group. -/
theorem filter_gather_of_mem {g : Name × List (List Name × FixedFile)} (hg : g ∈ groups)
    {x : List Name × FixedFile} (hx : x ∈ g.2) :
    (gather own groups).filter (isUpTo (g.1 :: x.1) ·.1) =
      (g.2.filter (isUpTo x.1 ·.1)).map fun y => (g.1 :: y.1, y.2) := by
  have hxne := hne g hg x hx
  have hown : (own.map fun y => ([y.1], y.2)).filter (isUpTo (g.1 :: x.1) ·.1) = [] := by
    refine List.filter_eq_nil_iff.mpr fun y hy => ?_
    obtain ⟨y, -, rfl⟩ := List.mem_map.mp hy
    rw [isUpTo_cons_singleton hxne]
    exact Bool.false_ne_true
  -- Groups have different names, so what is in another group is in another directory.
  have hother : ∀ g' ∈ groups, g'.1 ≠ g.1 →
      (g'.2.map fun y => (g'.1 :: y.1, y.2)).filter (isUpTo (g.1 :: x.1) ·.1) = [] := by
    intro g' hg' hname
    refine List.filter_eq_nil_iff.mpr fun y hy => ?_
    obtain ⟨y, hymem, rfl⟩ := List.mem_map.mp hy
    rw [isUpTo_cons_cons hxne (hne g' hg' y hymem), beq_eq_false_iff_ne.mpr hname, Bool.false_and]
    exact Bool.false_ne_true
  have hself : (g.2.map fun y => (g.1 :: y.1, y.2)).filter (isUpTo (g.1 :: x.1) ·.1) =
      (g.2.filter (isUpTo x.1 ·.1)).map fun y => (g.1 :: y.1, y.2) := by
    rw [List.filter_map]
    refine congrArg _ (List.filter_congr fun y hy => ?_)
    rw [Function.comp_apply, isUpTo_cons_cons hxne (hne g hg y hy), beq_self_eq_true, Bool.true_and]
  obtain ⟨before, after, rfl⟩ := List.append_of_mem hg
  obtain ⟨-, hafter, hacross⟩ := List.pairwise_append.mp hgroups
  have hbefore : ∀ g' ∈ before, g'.1 ≠ g.1 :=
    fun g' hg' => Std.ne_of_lt (hacross g' hg' g List.mem_cons_self)
  have hlater : ∀ g' ∈ after, g'.1 ≠ g.1 :=
    fun g' hg' => (Std.ne_of_lt ((List.pairwise_cons.mp hafter).1 g' hg')).symm
  rw [gather, List.filter_append, hown, List.nil_append, List.filter_flatMap, List.flatMap_append,
    List.flatMap_cons, hself, List.flatMap_eq_nil_iff.mpr, List.flatMap_eq_nil_iff.mpr,
    List.nil_append, List.append_nil]
  · exact fun g' hg' => hother g' (List.mem_append_right _ (List.mem_cons_of_mem g hg'))
      (hlater g' hg')
  · exact fun g' hg' => hother g' (List.mem_append_left _ hg') (hbefore g' hg')

end Gather

namespace Fixer

/-- The content below a directory after fixing, with the names on the way to each file: every
content file is listed once and in order, and each text is what fixing the texts of the files of its
directory makes of it, one after the other and from no macros up to this one. -/
structure Covers (f : Fixer) (fs : FileSystem) (extensions : List String) (directory : Path)
    (tree : FileTree) (placed : List (List Name × FixedFile)) : Prop where
  listed : ∀ names, names ∈ placed.map (·.1) ↔ tree.IsContent extensions names
  ordered : placed.Pairwise fun x y => comesBefore x.1 y.1 = true
  path_eq : ∀ x ∈ placed, x.2.path = directory.below x.1
  read_eq : ∀ x ∈ placed, fs.read x.2.path = .ok x.2.before
  fixed : ∀ x ∈ placed,
    f.fixTexts ((placed.filter (isUpTo x.1 ·.1)).map (·.2.before)) =
      some (.ok ((placed.filter (isUpTo x.1 ·.1)).map (·.2.result)))

/-- The same for a directory in a directory. -/
def CoversEntry (f : Fixer) (fs : FileSystem) (extensions : List String) (directory : Path)
    (entries : List (Name × FileTree)) (name : Name)
    (placed : List (List Name × FixedFile)) : Prop :=
  ∃ inner, (name, FileTree.directory inner) ∈ entries ∧
    f.Covers fs extensions (directory.join ⟨name⟩) (.directory inner) placed

variable {f : Fixer} {fs : FileSystem} {extensions : List String} {path : Path}
  {files : List FixedFile}

section

variable {entries : List (Name × FileTree)} {own : List (Name × FixedFile)}
  {groups : List (Name × List (List Name × FixedFile))}
  (hwf : (FileTree.directory entries).WellFormed)
  (hfiles : ∀ x, x ∈ own.map (fun y => (y.1, y.2.path)) ↔
    x ∈ ContentUnit.namedFiles extensions path entries)
  (hvisible : ∀ name, name ∈ groups.map (·.1) ↔
    Path.isHidden name = false ∧ ∃ inner, (name, FileTree.directory inner) ∈ entries)
  (hcovers : ∀ g ∈ groups, f.CoversEntry fs extensions path entries g.1 g.2)

include hcovers in
theorem ne_nil_of_covers : ∀ g ∈ groups, ∀ x ∈ g.2, x.1 ≠ [] := by
  intro g hg x hx
  obtain ⟨inner, -, hinner⟩ := hcovers g hg
  exact ((hinner.listed x.1).mp (List.mem_map.mpr ⟨x, hx, rfl⟩)).ne_nil

include hwf hfiles hvisible hcovers in
theorem listed_gather (names : List Name) : names ∈ (gather own groups).map (·.1) ↔
    (FileTree.directory entries).IsContent extensions names := by
  have hnodup := hwf.nodup_names
  have hne := ne_nil_of_covers hcovers
  rw [mem_map_gather]
  rcases names with _ | ⟨name, rest⟩
  · refine ⟨?_, fun hcontent => absurd rfl hcontent.ne_nil⟩
    rintro (⟨x, -, hx⟩ | ⟨g, -, x, -, hx⟩) <;> cases hx
  · by_cases hrest : rest = []
    · subst hrest
      rw [FileTree.isContent_singleton_iff hnodup]
      constructor
      · rintro (⟨x, hx, hname⟩ | ⟨g, hg, x, hx, hname⟩)
        · cases hname
          obtain ⟨hfile, hcontent, -⟩ := ContentUnit.mem_namedFiles.mp
            ((hfiles (x.1, x.2.path)).mp (List.mem_map.mpr ⟨x, hx, rfl⟩))
          exact ⟨hfile, hcontent⟩
        · exact absurd (List.cons.inj hname).2 (hne g hg x hx)
      · rintro ⟨hfile, hcontent⟩
        obtain ⟨x, hx, hname⟩ := List.mem_map.mp
          ((hfiles (name, _)).mpr (ContentUnit.mem_namedFiles.mpr ⟨hfile, hcontent, rfl⟩))
        exact Or.inl ⟨x, hx, congrArg (fun y => [y.1]) hname⟩
    · rw [FileTree.isContent_cons_iff hnodup hrest]
      constructor
      · rintro (⟨x, hx, hname⟩ | ⟨g, hg, x, hx, hname⟩)
        · cases hname
          exact absurd rfl hrest
        · cases hname
          obtain ⟨inner, hentry, hinner⟩ := hcovers g hg
          exact ⟨((hvisible g.1).mp (List.mem_map.mpr ⟨g, hg, rfl⟩)).1, inner, hentry,
            (hinner.listed x.1).mp (List.mem_map.mpr ⟨x, hx, rfl⟩)⟩
      · rintro ⟨hhidden, inner, hentry, hcontent⟩
        obtain ⟨g, hg, rfl⟩ := List.mem_map.mp ((hvisible name).mpr ⟨hhidden, inner, hentry⟩)
        obtain ⟨inner', hentry', hinner⟩ := hcovers g hg
        -- There is only one entry of this name.
        have hsame := (FileTree.lookup_of_mem hnodup hentry).symm.trans
          (FileTree.lookup_of_mem hnodup hentry')
        cases hsame
        obtain ⟨x, hx, rfl⟩ := List.mem_map.mp ((hinner.listed rest).mpr hcontent)
        exact Or.inr ⟨g, hg, x, hx, rfl⟩

include hwf hfiles hcovers in
theorem path_eq_gather (hpath : path.bytes ≠ []) :
    ∀ y ∈ gather own groups, y.2.path = path.below y.1 := by
  intro y hy
  rcases mem_gather.mp hy with ⟨x, hx, rfl⟩ | ⟨g, hg, x, hx, rfl⟩
  · rw [Path.below_singleton]
    exact (ContentUnit.mem_namedFiles.mp
      ((hfiles (x.1, x.2.path)).mp (List.mem_map.mpr ⟨x, hx, rfl⟩))).2.2
  · obtain ⟨inner, hentry, hinner⟩ := hcovers g hg
    have hcontent := (hinner.listed x.1).mp (List.mem_map.mpr ⟨x, hx, rfl⟩)
    obtain ⟨content, hfile⟩ := hcontent.isFile
    rw [hinner.path_eq x hx, Path.below_join hpath (hwf.isName_of_mem hentry)
      hcontent.ne_nil]
    exact (hwf.of_mem hentry).isName_of_fileAt? hfile

include hwf hfiles hvisible hcovers in
/-- The content below a directory is covered by its own files and those of the directories in
it. -/
theorem covers_gather (hpath : path.bytes ≠ []) (hown : own.Pairwise fun x y => x.1 < y.1)
    (hread : ∀ x ∈ own, fs.read x.2.path = .ok x.2.before)
    (hfix : ∀ k, f.fixTexts ((own.take k).map (·.2.before)) =
      some (.ok ((own.take k).map (·.2.result))))
    (hgroups : groups.Pairwise fun x y => x.1 < y.1) :
    f.Covers fs extensions path (.directory entries) (gather own groups) := by
  have hne := ne_nil_of_covers hcovers
  refine ⟨listed_gather hwf hfiles hvisible hcovers, ordered_gather hown hgroups hne ?_,
    path_eq_gather hwf hfiles hcovers hpath, ?_, ?_⟩
  · intro g hg
    obtain ⟨inner, -, hinner⟩ := hcovers g hg
    exact hinner.ordered
  · intro y hy
    rcases mem_gather.mp hy with ⟨x, hx, rfl⟩ | ⟨g, hg, x, hx, rfl⟩
    · exact hread x hx
    · obtain ⟨inner, -, hinner⟩ := hcovers g hg
      exact hinner.read_eq x hx
  · intro y hy
    rcases mem_gather.mp hy with ⟨x, hx, rfl⟩ | ⟨g, hg, x, hx, rfl⟩
    · obtain ⟨k, hk⟩ := exists_take_of_isUpTo hown hne hx
      rw [hk, List.map_map, List.map_map]
      exact hfix k
    · obtain ⟨inner, -, hinner⟩ := hcovers g hg
      rw [filter_gather_of_mem hgroups hne hg hx, List.map_map, List.map_map]
      exact hinner.fixed x hx

end

/-- The units in a directory are fixed one after the other, each by itself. -/
theorem exists_of_fixUnits {R : Name → List (List Name × FixedFile) → Prop}
    {units : List (Name × ContentUnit)}
    (hunits : ∀ u ∈ units, ∀ files, (f.fixUnit fs u.2).run = some (.ok files) →
      ∃ placed, files = placed.map (·.2) ∧ R u.1 placed)
    (h : (f.fixUnits fs (units.map (·.2))).run = some (.ok files)) :
    ∃ groups : List (Name × List (List Name × FixedFile)),
      groups.map (·.1) = units.map (·.1) ∧ files = (groups.flatMap fun g => g.2.map (·.2)) ∧
        ∀ g ∈ groups, R g.1 g.2 := by
  induction units generalizing files with
  | nil =>
    rw [List.map_nil, fixUnits] at h
    cases h
    exact ⟨[], rfl, rfl, fun g hg => absurd hg List.not_mem_nil⟩
  | cons u units ih =>
    obtain ⟨hu, hunits⟩ := List.forall_mem_cons.mp hunits
    rw [List.map_cons, fixUnits] at h
    obtain ⟨first, hfirst, h⟩ := exists_of_run_bind_eq_ok h
    obtain ⟨others, hothers, h⟩ := exists_of_run_bind_eq_ok h
    cases h
    obtain ⟨placed, rfl, hplaced⟩ := hu first hfirst
    obtain ⟨groups, hnames, rfl, hgroups⟩ := ih hunits hothers
    exact ⟨(u.1, placed) :: groups, by rw [List.map_cons, List.map_cons, hnames], rfl,
      List.forall_mem_cons.mpr ⟨hplaced, hgroups⟩⟩

/-- Fixing a unit covers the content below its directory. -/
theorem exists_covers {tree : FileTree} (hwf : tree.WellFormed)
    {entries : List (Name × FileTree)} (htree : tree = .directory entries)
    (hpath : path.bytes ≠ [])
    (h : (f.fixUnit fs (ContentUnit.ofEntries extensions path entries)).run = some (.ok files)) :
    ∃ placed, files = placed.map (·.2) ∧ f.Covers fs extensions path tree placed := by
  induction hwf generalizing entries path files with
  | file content => cases htree
  | @directory found hnodup hnames hinner ih =>
    cases htree
    rw [ContentUnit.ofEntries, fixUnit] at h
    obtain ⟨ownFiles, hownFiles, h⟩ := exists_of_run_bind_eq_ok h
    obtain ⟨others, hothers, h⟩ := exists_of_run_bind_eq_ok h
    cases h
    have hnodupFiles : ((ContentUnit.namedFiles extensions path found).map (·.1)).Nodup :=
      hnodup.sublist ContentUnit.sublist_namedFiles
    have hnodupUnits : ((ContentUnit.namedUnits extensions path found).map (·.1)).Nodup :=
      hnodup.sublist ContentUnit.sublist_namedUnits
    obtain ⟨named, hnamed, hmemFiles, hsortedFiles⟩ := ContentUnit.exists_inNameOrder hnodupFiles
    obtain ⟨units, hunits, hmemUnits, hsortedUnits⟩ := ContentUnit.exists_inNameOrder hnodupUnits
    rw [hnamed] at hownFiles
    rw [hunits] at hothers
    obtain ⟨own, rfl, rfl, hread, hfix⟩ := exists_of_fixFiles hownFiles
    rw [List.pairwise_map] at hsortedFiles
    -- The directories in this one are covered by the induction hypothesis.
    have hcovered : ∀ u ∈ units, ∀ files, (f.fixUnit fs u.2).run = some (.ok files) →
        ∃ placed, files = placed.map (·.2) ∧
          f.CoversEntry fs extensions path found u.1 placed := by
      intro u hu files hfixed
      obtain ⟨inner, hentry, -, hunit⟩ := ContentUnit.mem_namedUnits.mp ((hmemUnits _).mp hu)
      rw [hunit] at hfixed
      obtain ⟨placed, hplaced, hcovers⟩ :=
        ih _ hentry rfl (Path.join_ne_empty hpath (hnames _ hentry)) hfixed
      exact ⟨placed, hplaced, inner, hentry, hcovers⟩
    obtain ⟨groups, hgroupNames, rfl, hgroups⟩ := exists_of_fixUnits hcovered hothers
    refine ⟨gather own groups, map_snd_gather.symm, covers_gather (.directory hnodup hnames hinner)
      hmemFiles ?_ hgroups hpath hsortedFiles hread hfix ?_⟩
    · intro name
      rw [hgroupNames, List.mem_map]
      constructor
      · rintro ⟨u, hu, rfl⟩
        obtain ⟨inner, hentry, hhidden, -⟩ := ContentUnit.mem_namedUnits.mp ((hmemUnits u).mp hu)
        exact ⟨hhidden, inner, hentry⟩
      · rintro ⟨hhidden, inner, hentry⟩
        exact ⟨(name, _), (hmemUnits _).mpr (ContentUnit.mem_namedUnits.mpr
          ⟨inner, hentry, hhidden, rfl⟩), rfl⟩
    · have hsorted : (groups.map (·.1)).Pairwise (· < ·) := by
        rw [hgroupNames]
        exact List.pairwise_map.mpr hsortedUnits
      exact List.pairwise_map.mp hsorted

end Fixer

end Formulary
