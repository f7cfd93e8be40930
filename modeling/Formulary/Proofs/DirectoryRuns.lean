import Formulary.Proofs.Coverage
import Formulary.Toml.Config

/-!
# Runs over directories

A run first reads and fixes everything, and only then writes. So a run that fails before it writes
leaves every file as it was (`Job.Fails`), and what a run over a directory writes is what fixing the
files made of them as they were before (`Job.DirectoryRun`), also if the output is below the input
or the other way around.
-/

namespace Formulary

/-! ## Failing -/

/-- Fixing a file of a unit or of the units in it fails, after the files before it in its
directory. -/
inductive Fixer.FailsIn (f : Fixer) (fs : FileSystem) : ContentUnit → Prop
  | file {directory path : Path} {before after : List Path} {children : List ContentUnit}
      {e : Failure} {ds : Definitions}
      (failed : ((before ++ [path]).mapM (f.fixFile fs)).run.run Definitions.empty =
        some (.error e, ds)) :
      FailsIn f fs ⟨directory, before ++ path :: after, children⟩
  | child {directory : Path} {files : List Path} {children : List ContentUnit} {u : ContentUnit}
      (mem : u ∈ children) (failed : FailsIn f fs u) : FailsIn f fs ⟨directory, files, children⟩

/-- Something fails before anything could be written. -/
inductive Job.Fails (job : Job) (steps : Nat) (fs : FileSystem) : Prop
  | config {e : Failure}
      (failed : (job.source fs).load job.readConfig fs = .error e)
  | content {config : Config} {e : FileError}
      (loaded : (job.source fs).load job.readConfig fs = .ok config)
      (failed : job.content fs config.content.extensions = .error e)
  | fixing {config : Config} {unit : ContentUnit}
      (loaded : (job.source fs).load job.readConfig fs = .ok config)
      (found : job.content fs config.content.extensions = .ok unit)
      (failed : (Fixer.ofConfig steps config).FailsIn fs unit)

namespace Fixer

variable {f : Fixer} {fs : FileSystem} {files : List FixedFile}

theorem exists_of_mem_fixUnits {units : List ContentUnit} {u : ContentUnit}
    (h : (f.fixUnits fs units).run = some (.ok files)) (hmem : u ∈ units) :
    ∃ own, (f.fixUnit fs u).run = some (.ok own) := by
  induction units generalizing files with
  | nil => exact absurd hmem List.not_mem_nil
  | cons v units ih =>
    rw [fixUnits] at h
    obtain ⟨first, hfirst, h⟩ := exists_of_run_bind_eq_ok h
    obtain ⟨others, hothers, -⟩ := exists_of_run_bind_eq_ok h
    rcases List.mem_cons.mp hmem with rfl | hmem
    · exact ⟨first, hfirst⟩
    · exact ih hothers hmem

theorem FailsIn.not_ok {u : ContentUnit} (hfails : f.FailsIn fs u) :
    (f.fixUnit fs u).run ≠ some (.ok files) := by
  induction hfails generalizing files with
  | @file directory path before after children e ds hfailed =>
    intro h
    rw [fixUnit] at h
    obtain ⟨own, hown, -⟩ := exists_of_run_bind_eq_ok h
    -- Files that are fixed one after the other stop at the one that fails.
    have hstop : ((before ++ path :: after).mapM (f.fixFile fs)).run.run Definitions.empty =
        some (.error e, ds) := by
      rw [List.append_cons, List.mapM_append, run_bind_of_error hfailed]
    rw [fixFiles, ExceptT.run_mk, hstop] at hown
    cases hown
  | child hmem _ ih =>
    intro h
    rw [fixUnit] at h
    obtain ⟨own, -, h⟩ := exists_of_run_bind_eq_ok h
    obtain ⟨others, hothers, -⟩ := exists_of_run_bind_eq_ok h
    obtain ⟨inner, hinner⟩ := exists_of_mem_fixUnits hothers hmem
    exact ih hinner

end Fixer

/-! ## What a run does -/

namespace Job

variable {job : Job} {steps : Nat} {fs fs' : FileSystem} {source : ConfigSource}
  {files : List FixedFile} {report : RunReport}

theorem prepare_eq_ok_iff : (job.prepare steps fs).run = some (.ok (source, files)) ↔
    source = job.source fs ∧
      ∃ config unit, source.load job.readConfig fs = .ok config ∧
        job.content fs config.content.extensions = .ok unit ∧
        ((Fixer.ofConfig steps config).fixUnit fs unit).run = some (.ok files) := by
  rw [prepare]
  constructor
  · intro h
    rcases hload : (job.source fs).load job.readConfig fs with e | config
    · simp only [hload] at h
      cases h
    · simp only [hload] at h
      rcases hcontent : job.content fs config.content.extensions with e | unit
      · rw [hcontent] at h
        cases h
      · rw [hcontent] at h
        obtain ⟨fixed, hfixed, h⟩ := exists_of_run_bind_eq_ok h
        cases h
        exact ⟨rfl, config, unit, hload, hcontent, hfixed⟩
  · rintro ⟨rfl, config, unit, hload, hcontent, hfixed⟩
    simp only [hload, hcontent]
    rw [ExceptT.run_bind, hfixed]
    rfl

/-- A job that fails prepares no files. -/
theorem Fails.not_prepared (hfails : job.Fails steps fs) :
    (job.prepare steps fs).run ≠ some (.ok (source, files)) := by
  intro h
  obtain ⟨rfl, config, unit, hload, hcontent, hfixed⟩ := prepare_eq_ok_iff.mp h
  cases hfails with
  | config hfailed =>
    rw [hfailed] at hload
    cases hload
  | content hloaded hfailed =>
    cases hloaded.symm.trans hload
    rw [hfailed] at hcontent
    cases hcontent
  | fixing hloaded hfound hfailed =>
    cases hloaded.symm.trans hload
    cases hfound.symm.trans hcontent
    exact hfailed.not_ok hfixed

theorem run_of_stored (hprepared : (job.prepare steps fs).run = some (.ok (source, files)))
    (hstored : (storeAll (job.targets fs files)).run.run fs = (.ok (), fs')) :
    (job.run steps).run.run fs =
      some (.ok ⟨source, files, (job.targets fs files).map (·.1)⟩, fs') := by
  have hrun : (job.run steps).run.run fs = (job.prepare steps fs).run.bind _ := rfl
  rw [hrun, hprepared, Option.bind_some]
  simp only [hstored]
  rfl

/-- A run that ends well has fixed everything before it began to write. -/
theorem exists_of_run_eq_ok (h : (job.run steps).run.run fs = some (.ok report, fs')) :
    ∃ source files, (job.prepare steps fs).run = some (.ok (source, files)) ∧
      (storeAll (job.targets fs files)).run.run fs = (.ok (), fs') ∧
      report = ⟨source, files, (job.targets fs files).map (·.1)⟩ := by
  have hrun : (job.run steps).run.run fs = (job.prepare steps fs).run.bind _ := rfl
  rw [hrun] at h
  obtain ⟨e | ⟨source, files⟩, hprepared, h⟩ := Option.bind_eq_some_iff.mp h
  · cases h
  · rcases hstored : (storeAll (job.targets fs files)).run.run fs with ⟨e | ⟨⟩, fs₁⟩
    · simp only [hstored] at h
      cases h
    · simp only [hstored] at h
      cases h
      exact ⟨source, files, hprepared, hstored, rfl⟩

/-- A run that ends has failed and has written nothing, unless everything was fixed. -/
theorem unchanged_of_not_prepared {result : Except Failure RunReport}
    (h : (job.run steps).run.run fs = some (result, fs'))
    (hnot : ∀ source files, (job.prepare steps fs).run ≠ some (.ok (source, files))) :
    fs' = fs ∧ ∃ e, result = .error e := by
  have hrun : (job.run steps).run.run fs = (job.prepare steps fs).run.bind _ := rfl
  rw [hrun] at h
  obtain ⟨e | ⟨source, files⟩, hprepared, h⟩ := Option.bind_eq_some_iff.mp h
  · cases h
    exact ⟨rfl, e, rfl⟩
  · exact absurd hprepared (hnot source files)

/-! ## Directories -/

/-- The files that are written: with an output all of them, and otherwise those that have
changed. -/
def stored (job : Job) (placed : List (List Name × FixedFile)) :
    List (List Name × FixedFile) :=
  placed.filter fun x => job.output.isSome || x.2.isChanged

/-- Where they are written: below the output, and otherwise where they are. -/
def base (job : Job) : Path := job.output.getD job.input

/-- What a run over a directory has done, with the names on the way to each file. -/
structure DirectoryRun (job : Job) (steps : Nat) (fs fs' : FileSystem) (report : RunReport)
    (config : Config) (placed : List (List Name × FixedFile)) : Prop where
  source_eq : report.source = job.source fs
  config_eq : report.source.load job.readConfig fs = .ok config
  /-- The report lists the files in this order. -/
  files_eq : report.files = placed.map (·.2)
  /-- They are the content below the input, in order, and fixed directory by directory. -/
  covers : ∃ tree, fs.root.get? (fs.placeOf job.input) = some tree ∧
    (Fixer.ofConfig steps config).Covers fs config.content.extensions job.input tree placed
  once : (placed.map (·.1)).Nodup
  before_eq : ∀ x ∈ placed,
    fs.root.fileAt? (fs.placeOf job.input ++ x.1) = some (.text x.2.before)
  written_eq : report.written = (job.stored placed).map fun x => job.base.below x.1
  /-- What is written holds the new texts. -/
  held : ∀ x ∈ job.stored placed,
    fs'.root.fileAt? (fs.placeOf job.base ++ x.1) = some (.text x.2.after)
  /-- Every other file is as it was, and there are no new ones. -/
  kept : ∀ place, (∀ x ∈ job.stored placed, place ≠ fs.placeOf job.base ++ x.1) →
    fs'.root.fileAt? place = fs.root.fileAt? place

theorem sublist_stored (job : Job) (placed : List (List Name × FixedFile)) :
    (job.stored placed).Sublist placed := List.filter_sublist

theorem target?_eq {x : List Name × FixedFile} (hpath : x.2.path = job.input.below x.1)
    (hnames : ∀ name ∈ x.1, Path.IsName name) :
    job.target? true x.2 =
      if job.output.isSome || x.2.isChanged then some (job.base.below x.1) else none := by
  rw [target?, base]
  cases job.output with
  | none => simp only [hpath, Option.isSome_none, Bool.false_or, Option.getD_none]
  | some output =>
    simp only [hpath, Path.relativeTo_below job.input hnames, Option.isSome_some, Bool.true_or,
      if_true, Option.getD_some]
    rfl

/-- The files that are stored, each with the place it goes to. -/
theorem targets_eq {placed : List (List Name × FixedFile)}
    (hdirectory : fs.isDirectory job.input = true)
    (hpaths : ∀ x ∈ placed, x.2.path = job.input.below x.1)
    (hnames : ∀ x ∈ placed, ∀ name ∈ x.1, Path.IsName name) :
    job.targets fs (placed.map (·.2)) =
      (job.stored placed).map fun x => (job.base.below x.1, x.2.after) := by
  rw [targets, hdirectory]
  induction placed with
  | nil => rfl
  | cons x placed ih =>
    obtain ⟨hpath, hpaths⟩ := List.forall_mem_cons.mp hpaths
    obtain ⟨hname, hnames⟩ := List.forall_mem_cons.mp hnames
    rw [List.map_cons, List.filterMap_cons, target?_eq hpath hname, ih hpaths hnames, stored,
      stored, List.filter_cons]
    cases job.output.isSome || x.2.isChanged <;> rfl

theorem exists_of_content {extensions : List String} {unit : ContentUnit}
    (hdirectory : fs.isDirectory job.input = true) (h : job.content fs extensions = .ok unit) :
    job.input.bytes ≠ [] ∧ ∃ entries,
      fs.root.get? (fs.placeOf job.input) = some (.directory entries) ∧
        unit = ContentUnit.ofEntries extensions job.input entries := by
  rw [content, if_pos hdirectory, ContentUnit.load, FileSystem.entries] at h
  rcases hfind : fs.find job.input with e | ⟨content⟩ | ⟨entries⟩
  · rw [hfind] at h
    cases h
  · rw [hfind] at h
    cases h
  · rw [hfind] at h
    cases h
    refine ⟨?_, entries, FileSystem.get?_of_find hfind, rfl⟩
    intro hempty
    rw [FileSystem.find, FileSystem.locate, hempty] at hfind
    cases hfind

/-- A run over a directory that ends well. -/
theorem exists_directoryRun (hwf : fs.root.WellFormed)
    (hdirectory : fs.isDirectory job.input = true)
    (h : (job.run steps).run.run fs = some (.ok report, fs')) :
    ∃ config placed, job.DirectoryRun steps fs fs' report config placed := by
  obtain ⟨source, files, hprepared, hstored, rfl⟩ := exists_of_run_eq_ok h
  obtain ⟨rfl, config, unit, hload, hcontent, hfixed⟩ := prepare_eq_ok_iff.mp hprepared
  obtain ⟨hinput, entries, htree, rfl⟩ := exists_of_content hdirectory hcontent
  obtain ⟨placed, rfl, hcovers⟩ := Fixer.exists_covers (hwf.get? htree) rfl hinput hfixed
  have hcontents : ∀ x ∈ placed, x.1 ≠ [] ∧ ∀ name ∈ x.1, Path.IsName name := by
    intro x hx
    have hx := (hcovers.listed x.1).mp (List.mem_map.mpr ⟨x, hx, rfl⟩)
    obtain ⟨content, hfile⟩ := hx.isFile
    exact ⟨hx.ne_nil, (hwf.get? htree).isName_of_fileAt? hfile⟩
  have hplace : ∀ directory, ∀ x ∈ placed,
      fs.placeOf (directory.below x.1) = fs.placeOf directory ++ x.1 :=
    fun directory x hx => fs.placeOf_below directory (hcontents x hx).1 (hcontents x hx).2
  -- Files at different places go to different places, so no text is written over.
  have honce : placed.Pairwise fun x y => x.1 ≠ y.1 := by
    refine hcovers.ordered.imp fun {x y} hbefore heq => ?_
    rw [heq, comesBefore_irrefl] at hbefore
    cases hbefore
  have htargets := targets_eq hdirectory hcovers.path_eq fun x hx => (hcontents x hx).2
  have hsublist := job.sublist_stored placed
  rw [htargets] at hstored
  obtain ⟨hheld, hkept⟩ := fileAt?_storeAll hstored (by
    refine List.pairwise_map.mpr ((honce.sublist hsublist).imp_of_mem fun {x y} hx hy hne => ?_)
    rw [hplace _ x (hsublist.subset hx), hplace _ y (hsublist.subset hy)]
    exact fun heq => hne (List.append_cancel_left heq))
  refine ⟨config, placed, rfl, hload, rfl, ⟨_, htree, hcovers⟩, List.pairwise_map.mpr honce, ?_, ?_,
    ?_, ?_⟩
  · intro x hx
    rw [← hplace _ x hx, ← hcovers.path_eq x hx]
    exact FileSystem.fileAt?_of_read (hcovers.read_eq x hx)
  · rw [htargets, List.map_map]
    rfl
  · intro x hx
    rw [← hplace _ x (hsublist.subset hx)]
    exact hheld (job.base.below x.1, x.2.after) (List.mem_map.mpr ⟨x, hx, rfl⟩)
  · intro place hother
    refine hkept place fun target htarget => ?_
    obtain ⟨x, hx, rfl⟩ := List.mem_map.mp htarget
    rw [hplace _ x (hsublist.subset hx)]
    exact hother x hx

end Job

/-- A directory in which one file defines a macro that two others use, of which one is further down.
Of the two names with a dot at the start one is no text. -/
def sampleInput : List (Name × FileTree) :=
  [(.ofText "b.md", .file (.text r"$\f$")),
    (.ofText "sub", .directory [(.ofText "c.md", .file (.text r"$\f$"))]),
    (.ofText ".hidden.md", .file (.text "$")),
    (Name.dot :: 0xFF :: Name.ofText ".md", .file (.text "$x $")),
    (.ofText "a.md", .file (.text r"$\newcommand\f{1}$"))]

def sampleFiles : FileSystem := ⟨.directory [(.ofText "in", .directory sampleInput)], []⟩

def sampleJob : Job := ⟨.ofText "in", none, none, none, Config.parse?⟩

theorem sampleFiles_wellFormed : sampleFiles.root.WellFormed := by
  have hsub : (FileTree.directory [(.ofText "c.md", .file (.text r"$\f$"))]).WellFormed :=
    .directory (by decide +kernel) (by decide +kernel) (by simp [FileTree.WellFormed.file])
  have hinput : (FileTree.directory sampleInput).WellFormed :=
    .directory (by decide +kernel) (by decide +kernel)
      (by simp [sampleInput, FileTree.WellFormed.file, hsub])
  exact .directory (by decide +kernel) (by decide +kernel) (by simp [hinput])

/-- The path of the file with a name that is no text. -/
def samplePath : Path := ⟨Name.ofText "in/." ++ 0xFF :: Name.ofText ".md"⟩

/-- The files that are listed, with their new texts. -/
def sampleTexts : List (String × String) :=
  [("in/.\uFFFD.md", "$x$"), ("in/a.md", "$$"), ("in/b.md", "$1$"), ("in/sub/c.md", r"$\f$")]

/-- The unit of the directory. -/
def sampleUnit : ContentUnit :=
  ⟨.ofText "in", [samplePath, .ofText "in/a.md", .ofText "in/b.md"],
    [⟨.ofText "in/sub", [.ofText "in/sub/c.md"], []⟩]⟩

theorem sampleJob_content : sampleJob.content sampleFiles ["md", "txt"] = .ok sampleUnit := by
  have hown : ContentUnit.namedFiles ["md", "txt"] (.ofText "in") sampleInput =
      [(Name.ofText "b.md", .ofText "in/b.md"),
        (Name.dot :: 0xFF :: Name.ofText ".md", samplePath),
        (Name.ofText "a.md", .ofText "in/a.md")] := by decide +kernel
  have hbelow : ContentUnit.namedFiles ["md", "txt"] (.ofText "in/sub")
      [(Name.ofText "c.md", .file (.text r"$\f$"))] =
      [(Name.ofText "c.md", .ofText "in/sub/c.md")] := by decide +kernel
  have hjoin : Path.join (.ofText "in") ⟨Name.ofText "sub"⟩ = .ofText "in/sub" := by
    decide +kernel
  have hhidden : Path.isHidden (.ofText "sub") = false := by decide +kernel
  have hba : ¬Name.ofText "b.md" ≤ Name.ofText "a.md" := by decide +kernel
  have hb : ¬Name.ofText "b.md" ≤ Name.dot :: 0xFF :: Name.ofText ".md" := by decide +kernel
  have ha : Name.dot :: 0xFF :: Name.ofText ".md" ≤ Name.ofText "a.md" := by decide +kernel
  have hunits : ContentUnit.namedUnits ["md", "txt"] (.ofText "in") sampleInput =
      [(Name.ofText "sub", ⟨.ofText "in/sub", [.ofText "in/sub/c.md"], []⟩)] := by
    simp [sampleInput, ContentUnit.namedUnits, ContentUnit.ofEntries, ContentUnit.inNameOrder,
      hhidden, hjoin, hbelow]
  have hdirectory : sampleFiles.isDirectory sampleJob.input = true := by decide +kernel
  have hentries : sampleFiles.entries sampleJob.input = .ok sampleInput := rfl
  rw [Job.content, if_pos hdirectory, ContentUnit.load, hentries]
  simp only [Except.map, sampleJob, ContentUnit.ofEntries, hown, hunits]
  simp [ContentUnit.inNameOrder, List.mergeSort, sampleUnit, -List.not_le, hba, hb, ha]

theorem sampleJob_prepared : ∃ files fs',
    (sampleJob.prepare 200 sampleFiles).run = some (.ok (.builtIn, files)) ∧
      files.map (fun file => (file.path.display, file.after)) = sampleTexts ∧
      (sampleJob.targets sampleFiles files).map (·.1) =
        [samplePath, .ofText "in/a.md", .ofText "in/b.md"] ∧
      (Job.storeAll (sampleJob.targets sampleFiles files)).run.run sampleFiles = (.ok (), fs') := by
  have hcheck : ((Fixer.ofConfig 200 .standard).fixUnit sampleFiles sampleUnit).run.any
      (fun result => result.toOption.any fun files =>
        files.map (fun file => (file.path.display, file.after)) == sampleTexts &&
          (sampleJob.targets sampleFiles files).map (·.1) ==
            [samplePath, .ofText "in/a.md", .ofText "in/b.md"] &&
          ((Job.storeAll (sampleJob.targets sampleFiles files)).run.run sampleFiles).1.isOk) =
      true := by decide +kernel
  simp only [Option.any_eq_true, Bool.and_eq_true, beq_iff_eq] at hcheck
  obtain ⟨e | files, hfixed, found, hresult, ⟨hfiles, hwritten⟩, hok⟩ := hcheck
  · cases hresult
  · cases hresult
    rcases hstored : (Job.storeAll (sampleJob.targets sampleFiles files)).run.run sampleFiles with
      ⟨e | ⟨⟩, fs'⟩
    · rw [hstored] at hok
      cases hok
    · exact ⟨files, fs', Job.prepare_eq_ok_iff.mpr
        ⟨by decide +kernel, .standard, _, rfl, sampleJob_content, hfixed⟩, hfiles, hwritten,
        hstored⟩

end Formulary
