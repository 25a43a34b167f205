import Codemod.Proofs.DiskAgreement
import Codemod.Proofs.EditedStatements
import Codemod.Proofs.Reload

/-!
# Naming default exports twice

A record of a naming run is true: the file has no default export any more and exports a declaration of the
name on record. The second pass mends imports and mentions, which makes no statement a default export. So a
run in which all goes well leaves nothing to do: on the project that is loaded again from its disk, a second
run finds no default export, and changes no file.

Both rest on the texts being parsed with the statements that the edits describe. A run may also rewrite the
configuration of its project, where that is one of the modules, and the project that is loaded again is
then another one.

Main statements:

* `exportJob_defaultless` and `importJob_defaultless` say that both passes leave no default exports;
* `Workspace.Defaultless.naming_rests` says that a naming run does nothing where there are none;
* `records_true_and_naming_done_once` puts this together for loaded projects.
-/

namespace Codemod

open Syntax Journaled

/-! ### What is planned for a default export -/

namespace NamedExport

variable {f : SourceFile} {name : String} {es : List Edit}

theorem plan_outcome (f : SourceFile) :
    (plan f).outcome = f.defaultExports.outcome >>= fun
      | [] => .ok none
      | [d] => some <$> edits f d
      | ds => .error (.multipleDefaultExports f.path ds.length) := by
  have hsteady : ∀ ds : List DefaultExport, Steady (match ds with
      | [] => Pure.pure none
      | [d] => some <$> Journaled.ofExcept (edits f d)
      | ds => Journaled.fail (.multipleDefaultExports f.path ds.length)) := by
    intro ds
    split
    · exact pure_steady _
    · exact (ofExcept_steady _).map _
    · exact fail_steady _
  refine (outcome_bind hsteady).trans (congrArg _ (funext fun ds => ?_))
  split
  · rfl
  · exact (outcome_map _ _).trans (by rw [outcome_ofExcept])
  · rfl

/-- A plan is made for a single default export. -/
theorem plan_eq_some (h : (plan f).outcome = .ok (some (name, es))) :
    ∃ d, f.defaultExports.outcome = .ok [d] ∧ edits f d = .ok (name, es) := by
  rw [plan_outcome] at h
  obtain ⟨ds, hds, h⟩ := Except.bind_eq_ok h
  split at h
  · cases h
  case h_2 d =>
    refine ⟨d, hds, ?_⟩
    cases hedits : edits f d with
    | error e =>
      rw [hedits] at h
      cases h
    | ok r =>
      rw [hedits] at h
      cases h
      rfl
  · cases h

/-- Nothing is planned where no default export is found. -/
theorem plan_eq_none (h : (plan f).outcome = .ok none) : f.defaultExports.outcome = .ok [] := by
  rw [plan_outcome] at h
  obtain ⟨ds, hds, h⟩ := Except.bind_eq_ok h
  split at h
  · exact hds
  case h_2 d =>
    cases hedits : edits f d <;> rw [hedits] at h <;> cases h
  · cases h

/-- Where no default export is recognized there is nothing to plan. -/
theorem plan_of_defaultless (hf : f.Defaultless) :
    (∃ e, (plan f).outcome = .error e) ∨ (plan f).outcome = .ok none := by
  rw [plan_outcome]
  cases hds : f.defaultExports.outcome with
  | error e => exact .inl ⟨e, rfl⟩
  | ok ds =>
    obtain ⟨rfl, -⟩ := SourceFile.defaultExportsOf_eq_ok_iff.mp hds
    have hnone : (f.statements.filter isDefaultExport).filterMap DefaultExport.ofStatement? = [] := by
      refine List.filterMap_eq_nil_iff.mpr fun t ht => ?_
      obtain ⟨hmem, hdefault⟩ := List.mem_filter.mp ht
      simpa using hf t hmem hdefault
    rw [hnone]
    exact .inr rfl

end NamedExport

/-- Without names there is nothing to plan for the imports. -/
theorem NamedImport.plan_of_no_names {f : SourceFile} {resolve : Resolver} {plans : List (List Edit)}
    (h : (plan f resolve []).outcome = .ok plans) : plans = [] := by
  refine List.eq_nil_iff_forall_not_mem.mpr fun es hes => ?_
  obtain ⟨d, -, hplan⟩ := ((plansOf_eq_ok h).2 es).mp hes
  have hnone : newName? f resolve [] d = none := by
    cases hname : newName? f resolve [] d with
    | none => rfl
    | some name =>
      obtain ⟨-, _, _, -, -, hget⟩ := newName?_eq_some_iff.mp hname
      cases hget
  have hfirst := importPlan_eq_ok hplan
  rw [hnone] at hfirst
  cases hfirst

/-! ### The first run -/

section

variable {w : Workspace} {f : SourceFile}

/-- A task of the first pass that tells a name has made the edits for the only default export. -/
theorem exportJob_record {name : String} (h : (exportJob.ending w f).result = .ok (some name)) :
    ∃ d edits, f.defaultExports.outcome = .ok [d] ∧ NamedExport.edits f d = .ok (name, edits) := by
  have hplanned : ∀ {a edits}, exportJob w.config w.knows f = .ok (some a, some edits) →
      ∃ d, f.defaultExports.outcome = .ok [d] ∧ NamedExport.edits f d = .ok (a, edits) := by
    intro a edits hjob
    obtain ⟨own, hown, hplan⟩ := exportJob_eq_ok hjob
    cases hown
    exact NamedExport.plan_eq_some hplan
  have hends := exportJob.ends w f
  generalize exportJob.ending w f = e at h hends
  cases hends with
  | failed | unapplied | refused => cases h
  | idle hjob =>
    cases h
    exact absurd hjob (exportJob_commits _ _ f name)
  | clean hjob | written hjob =>
    cases h
    obtain ⟨d, hd, hedits⟩ := hplanned hjob
    exact ⟨d, _, hd, hedits⟩

/-- A task of the first pass that tells no name has found no default export, and left the file alone. -/
theorem exportJob_no_record (h : (exportJob.ending w f).result = .ok none) :
    f.defaultExports.outcome = .ok [] ∧ (exportJob.ending w f).file = f := by
  have hnamed : ∀ {edits}, exportJob w.config w.knows f ≠ .ok (none, some edits) := by
    intro edits hjob
    obtain ⟨name, hname, -⟩ := exportJob_eq_ok hjob
    cases hname
  have hends := exportJob.ends w f
  generalize exportJob.ending w f = e at h hends ⊢
  cases hends with
  | failed | unapplied | refused => cases h
  | clean hjob | written hjob =>
    cases h
    exact absurd hjob hnamed
  | idle hjob =>
    cases h
    refine ⟨NamedExport.plan_eq_none ?_, rfl⟩
    unfold exportJob at hjob
    cases hplan : (NamedExport.plan f).outcome with
    | error e =>
      rw [hplan] at hjob
      cases hjob
    | ok r =>
      rw [hplan] at hjob
      cases r with
      | none => rfl
      | some r => cases hjob

/-- A file whose task in the first pass succeeds is left without default exports. -/
theorem exportJob_defaultless {value : Option String} (h : (exportJob.ending w f).result = .ok value)
    (hdescribed : ∀ d name, value = some name → f.defaultExports.outcome = .ok [d] →
      f.Described (exportJob.ending w f).file d name) : (exportJob.ending w f).file.Defaultless := by
  cases value with
  | none =>
    obtain ⟨hnone, hfile⟩ := exportJob_no_record h
    rw [hfile]
    exact SourceFile.defaultless_of_defaultExports hnone
  | some name =>
    obtain ⟨d, -, hd, -⟩ := exportJob_record h
    exact SourceFile.defaultless_of_defaultExports ((hdescribed d name rfl hd).defaultExports hd)

end

/-- Besides imports the file `g` has only statements with the outlines of statements of `f`. So it is
described by edits of imports and of names that are mentioned in other statements. -/
def SourceFile.Retouched (f g : SourceFile) : Prop :=
  ∀ t' ∈ g.statements, t'.is .importStatement = true ∨ ∃ t ∈ f.statements, t.outline = t'.outline

instance (f g : SourceFile) : Decidable (f.Retouched g) := by
  unfold SourceFile.Retouched
  infer_instance

/-- Names that are mentioned make no default export. -/
theorem SourceFile.Retouched.defaultless {f g : SourceFile} (h : f.Retouched g) (hf : f.Defaultless) :
    g.Defaultless := by
  intro t' ht' hdefault
  rcases h t' ht' with himport | ⟨t, ht, houtline⟩
  · have hkind := of_decide_eq_true himport
    simp [isDefaultExport, Tree.is, hkind] at hdefault
  · rw [← DefaultExport.isSome_ofStatement?_of_outline houtline]
    exact hf t ht ((isDefaultExport_of_outline houtline).trans hdefault)

/-- A file without default exports whose task in the second pass succeeds is left without any. -/
theorem importJob_defaultless {names : Keyed Path String} {w : Workspace} {f : SourceFile} {n : Nat}
    (h : ((importJob names).ending w f).result = .ok n) (hf : f.Defaultless)
    (hretouched : ((importJob names).ending w f).written =
      some ((importJob names).ending w f).file.text → f.Retouched ((importJob names).ending w f).file) :
    ((importJob names).ending w f).file.Defaultless := by
  obtain ⟨_, -, -, hsame | hwritten⟩ := importJob_eq_ok h
  · rw [hsame]
    exact hf
  · exact (hretouched hwritten).defaultless hf

/-! ### The second run -/

/-- Whether no file of the project has a default export that is recognized. -/
def Workspace.Defaultless (w : Workspace) : Prop := ∀ f ∈ w.files, f.Defaultless

/-- The first pass leaves a file without default exports alone and tells no name. -/
theorem exportJob_rests {w : Workspace} {f : SourceFile} (hf : f.Defaultless) :
    exportJob.Rests w f ∧ ∀ name, (exportJob.ending w f).result ≠ .ok (some name) := by
  rcases NamedExport.plan_of_defaultless hf with ⟨e, hplan⟩ | hplan
  · have hjob : exportJob w.config w.knows f = .error e := by
      unfold exportJob
      rw [hplan]
      rfl
    unfold Job.Rests
    rw [Job.ending_of_error hjob]
    exact ⟨⟨rfl, rfl⟩, fun name h => by cases h⟩
  · have hjob : exportJob w.config w.knows f = .ok (none, none) := by
      unfold exportJob
      rw [hplan]
      rfl
    unfold Job.Rests
    rw [Job.ending_of_none hjob]
    exact ⟨⟨rfl, rfl⟩, fun name h => by cases h⟩

/-- Without names the second pass leaves an unchanged file alone. -/
theorem importJob_rests {w : Workspace} {f : SourceFile} (hclean : f.dirty = false) :
    (importJob []).Rests w f := by
  unfold Job.Rests
  cases hplan : (NamedImport.plan f (w.resolve f.path) []).outcome with
  | error e =>
    have hjob : importJob [] w.config w.knows f = .error e := by
      show Except.map _ (NamedImport.plan f (w.resolve f.path) []).outcome = _
      rw [hplan]
      rfl
    rw [Job.ending_of_error hjob]
    exact ⟨rfl, rfl⟩
  | ok plans =>
    have hjob : importJob [] w.config w.knows f = .ok (0, some []) := by
      show Except.map _ (NamedImport.plan f (w.resolve f.path) []).outcome = _
      rw [hplan, NamedImport.plan_of_no_names hplan]
      rfl
    rw [Job.ending_of_some hjob, Ending.ofCommit_of_clean (SourceFile.edited_nil f) hclean]
    exact ⟨rfl, rfl⟩

/-- A naming run does nothing where there are no default exports. -/
theorem Workspace.Defaultless.naming_rests {w : Workspace} (hw : w.Separate) (h : w.Defaultless)
    (hclean : ∀ f ∈ w.files, f.dirty = false) {limit : Nat} {σ₁ σ₂ : List Path} {r : NamingRun}
    (hr : nameDefaultsBy limit σ₁ σ₂ w = some r) :
    r.records = [] ∧ r.exports.written = [] ∧ r.imports.written = [] ∧ r.workspace.Alike w := by
  obtain ⟨hexports, himports⟩ := nameDefaultsBy_eq_some.mp hr
  obtain ⟨hsound, hcompleted⟩ := passBy_sound hw hexports
  obtain ⟨hwritten, halike⟩ := hcompleted.rests fun f hf => (exportJob_rests (h f hf)).1
  have hrecords : r.records = [] := by
    refine List.filterMap_eq_nil_iff.mpr fun v hv => ?_
    obtain ⟨f, hf, rfl⟩ := List.mem_map.mp (hcompleted.visits.mem_iff.mp hv)
    have hunnamed := (exportJob_rests (w := w) (h f hf)).2
    cases hresult : (exportJob.ending w f).result with
    | error e => rfl
    | ok value =>
      cases value with
      | none => rfl
      | some name => exact absurd hresult (hunnamed name)
  rw [hrecords] at himports
  obtain ⟨-, hcompleted'⟩ := passBy_sound (hw.congr hsound.paths) himports
  obtain ⟨hwritten', halike'⟩ := hcompleted'.rests fun f hf =>
    importJob_rests (hclean f (halike.files ▸ hf))
  exact ⟨hrecords, hwritten, hwritten', halike'.trans halike⟩

/-! ### Both runs -/

/-- The texts that a naming run has written are parsed with the statements that its edits describe. -/
structure NamingRun.ReadAsDescribed (w : Workspace) (r : NamingRun) : Prop where
  exports : ∀ f ∈ w.files, ∀ d name g, f.defaultExports.outcome = .ok [d] →
    r.records.get? f.path = some name → r.exports.workspace.file? f.path = some g → f.Described g d name
  imports : ∀ f ∈ r.exports.workspace.files, ∀ g, r.workspace.file? f.path = some g →
    (f.path, g.text) ∈ r.imports.written → f.Retouched g

/-- Parses the files that a naming run has left, and compares them with what its edits describe. -/
def NamingRun.readsAsDescribed (w : Workspace) (r : NamingRun) : Bool :=
  (w.files.all fun f => (r.exports.workspace.file? f.path).all fun g =>
    (r.records.get? f.path).all fun name => f.defaultExports.outcome.toOption.all fun ds =>
      ds.all fun d => decide (f.Described g d name)) &&
  r.exports.workspace.files.all fun f => (r.workspace.file? f.path).all fun g => decide (f.Retouched g)

theorem NamingRun.ReadAsDescribed.of_check {w : Workspace} {r : NamingRun}
    (h : r.readsAsDescribed w = true) : r.ReadAsDescribed w := by
  obtain ⟨hexports, himports⟩ := (Bool.and_eq_true _ _).mp h
  constructor
  · intro f hf d name g hd hname hg
    have hfile := List.all_eq_true.mp hexports f hf
    rw [hg, hname, hd] at hfile
    exact of_decide_eq_true (List.all_eq_true.mp hfile d (List.mem_singleton_self d))
  · intro f hf g hg _
    have hfile := List.all_eq_true.mp himports f hf
    rw [hg] at hfile
    exact of_decide_eq_true hfile

/-- A naming run in which no task fails leaves no default export. -/
theorem NamingRun.defaultless {w : Workspace} (hw : w.Separate) {limit : Nat} {σ₁ σ₂ : List Path}
    {r : NamingRun} (hr : nameDefaultsBy limit σ₁ σ₂ w = some r) (hok : r.result.ok = true)
    (hread : r.ReadAsDescribed w) : r.workspace.Defaultless := by
  obtain ⟨hexports, himports⟩ := nameDefaultsBy_eq_some.mp hr
  obtain ⟨hsound, hcompleted⟩ := passBy_sound hw hexports
  have hw₁ := hw.congr hsound.paths
  obtain ⟨-, hcompleted₂⟩ := passBy_sound hw₁ himports
  obtain ⟨hokExports, hokImports⟩ := Bool.and_eq_true_iff.mp hok
  have hfirst : r.exports.workspace.Defaultless := by
    intro g hg
    rw [hcompleted.files] at hg
    obtain ⟨f, hf, rfl⟩ := List.mem_map.mp hg
    obtain ⟨value, hresult⟩ := hcompleted.exists_of_ok hokExports f hf
    have hfile := Workspace.file?_of_mem hw.nodup hf
    refine exportJob_defaultless hresult fun d name hvalue hd => hread.exports f hf d name _ hd ?_ ?_
    · exact (hcompleted.records_eq_some_iff hsound hw.nodup).mpr ⟨f, hfile, hvalue ▸ hresult⟩
    · exact hcompleted.file? hw.nodup hfile
  intro g hg
  unfold NamingRun.workspace at hg
  rw [hcompleted₂.files] at hg
  obtain ⟨f, hf, rfl⟩ := List.mem_map.mp hg
  obtain ⟨n, hresult⟩ := hcompleted₂.exists_of_ok hokImports f hf
  refine importJob_defaultless hresult (hfirst f hf) fun hwritten => hread.imports f hf _ ?_ ?_
  · exact hcompleted₂.file? hw₁.nodup (Workspace.file?_of_mem hw₁.nodup hf)
  · exact (hcompleted₂.mem_written _ _).mpr ⟨f, hf, rfl, hwritten⟩

/-- A record is true: where the work on a file tells a name, the file had one default export, and the text
that it has then, if it is parsed as described, has none and exports a declaration of the name. -/
theorem Workspace.nameDefaultExport_true {w w' : Workspace} (hw : w.paths.Nodup) {f : SourceFile}
    (hf : w.file? f.path = some f) {name : String} {j j' : Journal}
    (h : nameDefaultExport f w j = (.ok (some name), w', j')) :
    ∃ d g, f.defaultExports.outcome = .ok [d] ∧ w'.file? f.path = some g ∧
      (f.Described g d name → g.defaultExports.outcome = .ok [] ∧
        ∃ t ∈ g.statements, g.ExportsName name t) := by
  obtain ⟨j₁, hends⟩ := exportJob_ends w f j hw hf
  rw [h] at hends
  obtain ⟨hresult, hrest⟩ := Prod.mk.inj hends
  obtain ⟨rfl, -⟩ := Prod.mk.inj hrest
  obtain ⟨d, edits, hd, hedits⟩ := exportJob_record hresult.symm
  refine ⟨d, (exportJob.ending w f).file, hd, ?_, fun hdescribed =>
    ⟨hdescribed.defaultExports hd, hdescribed.exportsName hd hedits⟩⟩
  rw [← Job.ending_path exportJob w f] at hf ⊢
  exact Workspace.file?_settle ⟨_, hf⟩

/-- A naming run goes on from the project that was loaded. -/
theorem Workspace.Follows.naming {disk : FileSystem} {cwd : Path} {name : String} {j j' : Journal}
    {w : Workspace} (hload : Workspace.load disk cwd name j = (.ok w, j')) {limit : Nat}
    {σ₁ σ₂ : List Path} {r : NamingRun} (hr : nameDefaultsBy limit σ₁ σ₂ w = some r) :
    w.Follows r.workspace := by
  obtain ⟨hexports, himports⟩ := nameDefaultsBy_eq_some.mp hr
  have hw := load_separate hload
  have hfresh := load_fresh hload
  have hfirst : w.Follows r.exports.workspace := .pass hw hfresh (.refl hfresh) hexports
  exact .pass hw hfresh hfirst himports

/-- Records are true, and naming is done once. Where the work on a file tells a name and the new text is
parsed with the statements that the edits describe, the file has no default export any more and exports a
declaration of that name. And for every project loaded from disk and every naming run in which no task
fails, when the texts that it wrote are parsed so: the project can be loaded from the disk that the run
left, and a second run on it gives no records, writes nothing, and leaves every file as it is in memory and
on disk, as long as the configuration file is not itself a source, or is read as it was. The runs of the
library are among these runs, by `nameDefaults_follows_schedules`. -/
theorem records_true_and_naming_done_once :
    (∀ (w w' : Workspace) (f : SourceFile) (name : String) (j j' : Journal), w.paths.Nodup →
      w.file? f.path = some f → Workspace.nameDefaultExport f w j = (.ok (some name), w', j') →
      ∃ d g, f.defaultExports.outcome = .ok [d] ∧ w'.file? f.path = some g ∧
        (f.Described g d name → g.defaultExports.outcome = .ok [] ∧
          ∃ t ∈ g.statements, g.ExportsName name t)) ∧
    ∀ (disk : FileSystem) (cwd : Path) (name : String) (j j' : Journal) (w : Workspace) (limit : Nat)
      (σ₁ σ₂ : List Path) (r : NamingRun), Workspace.load disk cwd name j = (.ok w, j') →
      nameDefaultsBy limit σ₁ σ₂ w = some r → r.result.ok = true → r.ReadAsDescribed w →
      (w.config.path ∉ w.paths →
        ∃ j₂, Workspace.load r.workspace.disk cwd name j = (.ok r.workspace, j₂)) ∧
      ∀ w₂ j₁ j₂, Workspace.load r.workspace.disk cwd name j₁ = (.ok w₂, j₂) →
        w.config.path ∉ w.paths ∨ w₂.config = w.config →
        ∀ limit₂ τ₁ τ₂ r₂, nameDefaultsBy limit₂ τ₁ τ₂ w₂ = some r₂ →
          r₂.records = [] ∧ r₂.exports.written = [] ∧ r₂.imports.written = [] ∧
          r₂.workspace.Alike w₂ := by
  refine ⟨fun w w' f name j j' hw hf h => Workspace.nameDefaultExport_true hw hf h, ?_⟩
  intro disk cwd name j j' w limit σ₁ σ₂ r hload hr hok hread
  have hw := Workspace.load_separate hload
  have hfollows := Workspace.Follows.naming hload hr
  obtain ⟨hreload, hsame⟩ := hfollows.reload hload
  refine ⟨hreload, fun w₂ j₁ j₂ hload₂ hconfig limit₂ τ₁ τ₂ r₂ hr₂ => ?_⟩
  obtain rfl := hsame w₂ j₁ j₂ hload₂ hconfig
  exact Workspace.Defaultless.naming_rests (hw.congr hfollows.paths) (NamingRun.defaultless hw hr hok hread)
    (fun f hf => (hfollows.fresh f hf).clean) hr₂

/-- A module that exports what it declares further down. -/
def sampleModule : SourceFile :=
  ⟨samplePath "a.ts", .typescript,
    Bytes.ofString "export default twice;\n// Twice.\nfunction twice() \x7b return 2; \x7d\n", false⟩

/-- A project with no other module. -/
def moduleProject : Workspace := { sampleProject with files := [sampleModule] }

theorem sampleModule_named :
    ∃ w' j', Workspace.nameDefaultExport sampleModule moduleProject [] = (.ok (some "twice"), w', j') ∧
      ∀ d g, sampleModule.defaultExports.outcome = .ok [d] → w'.file? sampleModule.path = some g →
        sampleModule.Described g d "twice" := by
  have hname : (Workspace.nameDefaultExport sampleModule moduleProject []).1.toOption =
      some (some "twice") := by decide +kernel
  have hparse : ((Workspace.nameDefaultExport sampleModule moduleProject []).2.1.file?
      sampleModule.path).all (fun g => sampleModule.defaultExports.outcome.toOption.all fun ds =>
        ds.all fun d => decide (sampleModule.Described g d "twice")) = true := by decide +kernel
  cases hrun : Workspace.nameDefaultExport sampleModule moduleProject [] with
  | mk result rest =>
    rw [hrun] at hname hparse
    cases result with
    | error e => cases hname
    | ok value =>
      cases hname
      refine ⟨rest.1, rest.2, rfl, fun d g hd hg => ?_⟩
      rw [hd, hg] at hparse
      exact of_decide_eq_true (List.all_eq_true.mp hparse d (List.mem_singleton_self d))

/-- A naming run over the sample project. -/
def namedRun : NamingRun :=
  (nameDefaultsBy 2 (sampleSchedule "abababaa") (sampleSchedule "babababb") loadedProject).getD
    ⟨.start loadedProject, .start loadedProject⟩

theorem namedRun_eq : nameDefaultsBy 2 (sampleSchedule "abababaa") (sampleSchedule "babababb")
    loadedProject = some namedRun := by
  obtain ⟨r, hr⟩ := Option.isSome_iff_exists.mp (show (nameDefaultsBy 2 (sampleSchedule "abababaa")
    (sampleSchedule "babababb") loadedProject).isSome = true by decide +kernel)
  unfold namedRun
  rw [hr]
  rfl

theorem namedRun_readAsDescribed : namedRun.ReadAsDescribed loadedProject :=
  .of_check (by decide +kernel)

/-- In the sample module the function is exported in place of its name. The run over the sample project
gives one record, and a second run gives none. -/
theorem sampleProject_named_once :
    (∃ w' j' d g, Workspace.nameDefaultExport sampleModule moduleProject [] =
        (.ok (some "twice"), w', j') ∧
      w'.file? sampleModule.path = some g ∧ sampleModule.Described g d "twice" ∧
      g.defaultExports.outcome = .ok [] ∧ ∃ t ∈ g.statements, g.ExportsName "twice" t) ∧
    namedRun.records = [(samplePath "a.ts", "a")] ∧
    ∃ r₂, nameDefaultsBy 1 (sampleSchedule "aaabbb") (sampleSchedule "aaabbb") namedRun.workspace = some r₂ ∧
      r₂.records = [] ∧ r₂.exports.written = [] ∧ r₂.imports.written = [] ∧
      r₂.workspace.Alike namedRun.workspace := by
  constructor
  · obtain ⟨w', j', hrun, hparse⟩ := sampleModule_named
    obtain ⟨d, g, hd, hg, htrue⟩ := records_true_and_naming_done_once.1 _ w' sampleModule "twice" [] j'
      (by decide) (by decide) hrun
    exact ⟨w', j', d, g, hrun, hg, hparse d g hd hg, htrue (hparse d g hd hg)⟩
  · obtain ⟨j, hload⟩ := loadedProject_load
    obtain ⟨r₂, hr₂⟩ := Option.isSome_iff_exists.mp (show (nameDefaultsBy 1 (sampleSchedule "aaabbb")
      (sampleSchedule "aaabbb") namedRun.workspace).isSome = true by decide +kernel)
    obtain ⟨hreload, hsecond⟩ := records_true_and_naming_done_once.2 _ _ _ _ _ _ _ _ _ _ hload namedRun_eq
      (by decide +kernel) namedRun_readAsDescribed
    obtain ⟨j₂, hload₂⟩ := hreload (by decide +kernel)
    exact ⟨by decide +kernel, r₂, hr₂, hsecond _ _ _ hload₂ (.inl (by decide +kernel)) 1 _ _ r₂ hr₂⟩

/-! ### A configuration that is a module -/

/-- A module that is a configuration as well. A separator ends a comment of the module, while a comment of
the configuration goes on to the end of the line, so that each of them has the code of the other one in
comments. With the default export the end of the first line goes, and the configuration is then what stood
in a comment of it. -/
def twofoldText : String :=
  "//\u2028const f = 1; export default f;\n/*\n" ++
    "\x7b\"include\": [\"*.ts\"]\x7d /*/ //\u2028/*\n" ++ "\x7b\"include\": [\"c.ts\"]\x7d //\u2028*/\n"

/-- A disk with that module and another one that has a default export. -/
def twofoldDisk : FileSystem :=
  (FileSystem.empty.place (samplePath "c.ts") (.file (Bytes.ofString twofoldText))).place
    (samplePath "b.ts") (.file (Bytes.ofString "export default 1;\n"))

/-- A run in which all goes well rewrites the configuration of its project. The project that is loaded
again has another file, and a second run has a record of it and changes it. -/
theorem rewritten_configuration_names_more :
    ∃ w j r w₂ j₂ r₂,
      Workspace.load twofoldDisk ⟨.root, ["p", "src"]⟩ "c.ts" [] = (.ok w, j) ∧
      nameDefaultsBy 1 (sampleSchedule "ccccc") (sampleSchedule "ccc") w = some r ∧
      r.result.ok = true ∧ r.ReadAsDescribed w ∧
      Workspace.load r.workspace.disk ⟨.root, ["p", "src"]⟩ "c.ts" [] = (.ok w₂, j₂) ∧
      nameDefaultsBy 1 (sampleSchedule "bbbbbccc") (sampleSchedule "bbbccc") w₂ = some r₂ ∧
      r₂.records = [(samplePath "b.ts", "b")] ∧
      r₂.exports.written = [(samplePath "b.ts", Bytes.ofString "export const b = 1;\n")] := by
  have hruns : ((Workspace.load twofoldDisk ⟨.root, ["p", "src"]⟩ "c.ts" []).1.toOption.any fun w =>
      (nameDefaultsBy 1 (sampleSchedule "ccccc") (sampleSchedule "ccc") w).any fun r =>
        (r.result.ok && r.readsAsDescribed w) &&
        (Workspace.load r.workspace.disk ⟨.root, ["p", "src"]⟩ "c.ts" []).1.toOption.any fun w₂ =>
          (nameDefaultsBy 1 (sampleSchedule "bbbbbccc") (sampleSchedule "bbbccc") w₂).any fun r₂ =>
            decide (r₂.records = [(samplePath "b.ts", "b")] ∧ r₂.exports.written =
              [(samplePath "b.ts", Bytes.ofString "export const b = 1;\n")])) = true := by
    decide +kernel
  obtain ⟨w, hw, hfirst⟩ := (Option.any_eq_true _ _).mp hruns
  obtain ⟨r, hr, hwell⟩ := (Option.any_eq_true _ _).mp hfirst
  obtain ⟨hgood, hagain⟩ := (Bool.and_eq_true _ _).mp hwell
  obtain ⟨hok, hread⟩ := (Bool.and_eq_true _ _).mp hgood
  obtain ⟨w₂, hw₂, hsecond⟩ := (Option.any_eq_true _ _).mp hagain
  obtain ⟨r₂, hr₂, hmore⟩ := (Option.any_eq_true _ _).mp hsecond
  obtain ⟨j, hload⟩ := exists_run_of_toOption hw
  obtain ⟨j₂, hload₂⟩ := exists_run_of_toOption hw₂
  exact ⟨w, j, r, w₂, j₂, r₂, hload, hr, hok, .of_check hread, hload₂, hr₂, of_decide_eq_true hmore⟩

end Codemod
