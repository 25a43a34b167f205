import Codemod.Proofs.KeyedLists
import Codemod.Proofs.Sequential

/-!
# Runs do not depend on the schedule

However the tasks of a run are interleaved and however many of them may work at a time, the run leaves
the same files in memory and on disk, gives the same names, and reports the same outcomes. Only the order
in which the reports list the outcomes is that of the tasks.

The second pass of a naming run begins when every task of the first one has reported, so that it knows
all names, and the order in which they were given plays no part.

Main statements:

* `Completed.agree` says that two passes from the same start end alike;
* `runs_schedule_independent` says so of whole runs, and that the runs of the library are among them.
-/

namespace Codemod

variable {α : Type}

/-- Two workspaces that no work can tell apart: the same files with the same texts and the same marks of
change, and the same content at every place on disk. -/
structure Workspace.Alike (w w' : Workspace) : Prop where
  config : w.config = w'.config
  files : w.files = w'.files
  lookup? : ∀ q, w.disk.lookup? q = w'.disk.lookup? q

namespace Workspace.Alike

variable {w w' : Workspace}

theorem refl (w : Workspace) : w.Alike w := ⟨rfl, rfl, fun _ => rfl⟩

theorem trans {w'' : Workspace} (h : w.Alike w') (h' : w'.Alike w'') : w.Alike w'' :=
  ⟨h.config.trans h'.config, h.files.trans h'.files, fun q => (h.lookup? q).trans (h'.lookup? q)⟩

theorem paths (h : w.Alike w') : w.paths = w'.paths := by
  unfold Workspace.paths
  rw [h.files]

theorem separate (h : w.Alike w') (hw : w.Separate) : w'.Separate :=
  hw.congr h.paths.symm

end Workspace.Alike

theorem Ending.ofCommit_congr {w w' : Workspace} (h : w.Alike w') (f : SourceFile)
    (edits : List Edit) : ofCommit w f edits = ofCommit w' f edits := by
  cases hg : f.edited edits with
  | error e => rw [ofCommit_of_error hg, ofCommit_of_error hg]
  | ok g =>
    cases hd : g.dirty with
    | false => rw [ofCommit_of_clean hg hd, ofCommit_of_clean hg hd]
    | true =>
      rcases FileSystem.write_congr g.text (fun d _ => h.lookup? d) (h.lookup? g.path) with
        ⟨e, hwrite, hwrite'⟩ | ⟨hwrite, hwrite'⟩
      · rw [ofCommit_of_refused hg hd hwrite, ofCommit_of_refused hg hd hwrite']
      · rw [ofCommit_of_written hg hd hwrite, ofCommit_of_written hg hd hwrite']

/-- A job ends alike in workspaces that are alike. -/
theorem Job.ending_congr {job : Job α} {w w' : Workspace} (h : w.Alike w') (f : SourceFile) :
    job.ending w f = job.ending w' f := by
  have hsame : job w.config w.knows f = job w'.config w'.knows f := by
    rw [h.config, Workspace.knows_congr h.paths]
  cases hjob : job w'.config w'.knows f with
  | error e => rw [ending_of_error hjob, ending_of_error (hsame.trans hjob)]
  | ok r =>
    obtain ⟨a, edits | edits⟩ := r
    · rw [ending_of_none hjob, ending_of_none (hsame.trans hjob)]
    · rw [ending_of_some hjob, ending_of_some (hsame.trans hjob), Ending.ofCommit_congr h]

/-- Two passes with the same job and the same start end alike. -/
theorem Completed.agree {job : Job α} {w w' : Workspace} {s s' : PassState α}
    (h : Completed job w s) (h' : Completed job w' s') (hw : w.Alike w') :
    s.workspace.Alike s'.workspace ∧ s.visits.Perm s'.visits := by
  refine ⟨⟨?_, ?_, fun q => ?_⟩, ?_⟩
  · rw [h.config, h'.config, hw.config]
  · rw [h.files, h'.files, hw.files]
    exact List.map_congr_left fun f _ => by rw [Job.ending_congr hw]
  · by_cases hq : q ∈ w.paths
    · obtain ⟨f, hf, rfl⟩ := List.mem_map.mp hq
      rw [h.lookup? f hf, h'.lookup? f (hw.files ▸ hf), Job.ending_congr hw, hw.lookup?]
    · rw [h.elsewhere q hq, h'.elsewhere q (hw.paths ▸ hq), hw.lookup?]
  · refine h.visits.trans (List.Perm.trans ?_ h'.visits.symm)
    rw [hw.files]
    exact .of_eq (List.map_congr_left fun f _ => by rw [Job.ending_congr hw])

/-! ### The names of the first pass -/

theorem recordsOf_keys_nodup {visits : List (Outcome × Option (Option String))}
    (h : (visits.map (·.1.path)).Nodup) : (recordsOf visits).keys.Nodup := by
  have hsub : (recordsOf visits).keys.Sublist (visits.map (·.1.path)) := by
    unfold recordsOf Keyed.keys
    rw [List.map_filterMap]
    induction visits with
    | nil => exact .slnil
    | cons v rest ih =>
      rw [List.map_cons, List.filterMap_cons]
      have hrest := ih (List.nodup_cons.mp h).2
      cases v.2.join with
      | none => exact hrest.cons _
      | some name => exact hrest.cons_cons _
  exact hsub.nodup h

/-- A module has a name after the first pass exactly when the work on it gave that name. -/
theorem Completed.records_eq_some_iff {w : Workspace} {s : PassState (Option String)}
    (h : Completed exportJob w s) (hs : Sound exportJob w s) (hw : w.paths.Nodup) {p : Path}
    {name : String} : (recordsOf s.visits).get? p = some name ↔
      ∃ f, w.file? p = some f ∧ (exportJob.ending w f).result = .ok (some name) := by
  rw [Keyed.get?_eq_some_iff (recordsOf_keys_nodup hs.visits_nodup), ← h.ok_mem_visits_iff hw]
  unfold recordsOf
  rw [List.mem_filterMap]
  constructor
  · rintro ⟨v, hv, hname⟩
    obtain ⟨f, -, hvisit⟩ := (h.mem_visits_iff hw).mp hv
    rw [hvisit] at hv hname
    cases hr : (exportJob.ending w f).result with
    | error e => rw [hr] at hname; cases hname
    | ok value =>
      rw [hr] at hv hname
      cases value with
      | none => cases hname
      | some n => cases hname; exact hv
  · exact fun hv => ⟨_, hv, rfl⟩

/-- What is to be done to the imports of a file depends on what each module's name is alone. -/
theorem NamedImport.plan_congr (f : SourceFile) (resolve : Resolver) {names names' : Keyed Path String}
    (h : names.get? = names'.get?) : plan f resolve names = plan f resolve names' := by
  have himport : ∀ r, importPlan f resolve names r = importPlan f resolve names' r := by
    intro r
    unfold importPlan
    rw [h]
  unfold plan
  induction f.imports with
  | nil => rfl
  | cons r rest ih =>
    unfold plansOf
    rw [himport, ih]

theorem importJob_congr {names names' : Keyed Path String} (h : names.get? = names'.get?) :
    importJob names = importJob names' := by
  funext c known f
  unfold importJob
  rw [NamedImport.plan_congr f _ h]

/-! ### Reports -/

/-- A report in order has no outcome with a fault. -/
theorem Report.fault_eq_none_of_visits {name : String} {visits : List (Outcome × Option α)}
    (h : (Report.mk name (visits.map (·.1))).ok = true) : ∀ v ∈ visits, v.1.fault = none := by
  intro v hv
  exact Report.ok_iff.mp h v.1 (List.mem_map_of_mem hv)

/-- A pass that is reported without failures has ended well for every file. -/
theorem Completed.exists_of_ok {job : Job α} {w : Workspace} {s : PassState α} {name : String}
    (h : Completed job w s) (hok : Report.ok ⟨name, s.visits.map (·.1)⟩ = true) :
    ∀ f ∈ w.files, ∃ a, (job.ending w f).result = .ok a := by
  intro f hf
  have hvisit := h.visits.mem_iff.mpr (List.mem_map_of_mem hf)
  have hnone := Report.fault_eq_none_of_visits hok _ hvisit
  cases hresult : (job.ending w f).result with
  | error e =>
    rw [hresult] at hnone
    cases hnone
  | ok a => exact ⟨a, rfl⟩

/-! ### Whole runs -/

/-- A naming run whose two passes followed schedules. -/
structure NamingRun where
  exports : PassState (Option String)
  imports : PassState Nat

namespace NamingRun

/-- The names that default exports got. -/
def records (r : NamingRun) : Keyed Path String :=
  recordsOf r.exports.visits

/-- What the run gives. -/
def result (r : NamingRun) : NamingResult where
  records := r.records
  exports := ⟨"rename-default-exports", r.exports.visits.map (·.1)⟩
  imports := ⟨"repair-default-imports", r.imports.visits.map (·.1)⟩

/-- The workspace that the run leaves. -/
def workspace (r : NamingRun) : Workspace := r.imports.workspace

/-- Two runs that leave the same, give the same names and report the same outcomes. -/
structure Agree (r r' : NamingRun) : Prop where
  workspace : r.workspace.Alike r'.workspace
  records : r.records.Perm r'.records
  exports : r.result.exports.outcomes.Perm r'.result.exports.outcomes
  imports : r.result.imports.outcomes.Perm r'.result.imports.outcomes

end NamingRun

/-- A naming run. The second pass begins when the first one is done, and `limit` tasks may work at a
time in each. -/
def nameDefaultsBy (limit : Nat) (σ₁ σ₂ : List Path) (w : Workspace) : Option NamingRun :=
  (passBy limit exportJob σ₁ w).bind fun exports =>
    (passBy limit (importJob (recordsOf exports.visits)) σ₂ exports.workspace).map fun imports =>
      ⟨exports, imports⟩

theorem nameDefaultsBy_eq_some {limit : Nat} {σ₁ σ₂ : List Path} {w : Workspace} {r : NamingRun} :
    nameDefaultsBy limit σ₁ σ₂ w = some r ↔ passBy limit exportJob σ₁ w = some r.exports ∧
      passBy limit (importJob r.records) σ₂ r.exports.workspace = some r.imports := by
  unfold nameDefaultsBy
  rw [Option.bind_eq_some_iff]
  constructor
  · rintro ⟨s, hs, h⟩
    obtain ⟨t, ht, rfl⟩ := Option.map_eq_some_iff.mp h
    exact ⟨hs, ht⟩
  · rintro ⟨hs, ht⟩
    exact ⟨r.exports, hs, Option.map_eq_some_iff.mpr ⟨r.imports, ht, rfl⟩⟩

theorem nameDefaultsBy_agree {w : Workspace} (hw : w.Separate) {limit limit' : Nat}
    {σ₁ σ₂ τ₁ τ₂ : List Path} {r r' : NamingRun} (h : nameDefaultsBy limit σ₁ σ₂ w = some r)
    (h' : nameDefaultsBy limit' τ₁ τ₂ w = some r') : r.Agree r' := by
  obtain ⟨he, hi⟩ := nameDefaultsBy_eq_some.mp h
  obtain ⟨he', hi'⟩ := nameDefaultsBy_eq_some.mp h'
  obtain ⟨hs, hc⟩ := passBy_sound hw he
  obtain ⟨hs', hc'⟩ := passBy_sound hw he'
  obtain ⟨halike, hvisits⟩ := hc.agree hc' (.refl w)
  have hrecords : r.records.Perm r'.records := hvisits.filterMap _
  have hnames : r.records.get? = r'.records.get? :=
    Keyed.get?_perm hrecords (recordsOf_keys_nodup hs.visits_nodup)
  rw [← importJob_congr hnames] at hi'
  obtain ⟨-, hd⟩ := passBy_sound (hw.congr hs.paths) hi
  obtain ⟨-, hd'⟩ := passBy_sound (hw.congr hs'.paths) hi'
  obtain ⟨hend, himports⟩ := hd.agree hd' halike
  exact ⟨hend, hrecords, hvisits.map _, himports.map _⟩

/-- The naming run of the library follows schedules. -/
theorem nameDefaults_follows_schedules {w : Workspace} (hw : w.Separate) {limit : Nat}
    (hlimit : 1 ≤ limit) (j : Journal) :
    ∃ σ₁ σ₂ r, nameDefaultsBy limit σ₁ σ₂ w = some r ∧
      (nameDefaults limit w j).1 = .ok r.result ∧ (nameDefaults limit w j).2.1 = r.workspace := by
  obtain ⟨σ₁, s, hs, hvisits, hws⟩ :=
    pass_follows_schedule exportJob_ends hlimit "rename-default-exports" hw j
  have hmiddle := hw.congr (passBy_sound hw hs).1.paths
  obtain ⟨σ₂, t, ht, hvisits', hws'⟩ := pass_follows_schedule (importJob_ends (recordsOf s.visits))
    hlimit "repair-default-imports" hmiddle (pass "rename-default-exports"
      Workspace.nameDefaultExport w j).2.2
  refine ⟨σ₁, σ₂, ⟨s, t⟩, nameDefaultsBy_eq_some.mpr ⟨hs, ht⟩, ?_⟩
  have hpos : ¬ (limit : Int) ≤ 0 := by omega
  unfold nameDefaults
  rw [if_neg hpos]
  rw [hvisits, hws] at hvisits' hws'
  unfold NamingRun.result NamingRun.records NamingRun.workspace
  dsimp only
  rw [hvisits, hvisits', hws']
  exact ⟨rfl, rfl⟩

/-- The rooting run of the library follows a schedule. -/
theorem rootAllSpecifiers_follows_schedule {w : Workspace} (hw : w.Separate) {limit : Nat}
    (hlimit : 1 ≤ limit) (marker : String) (j : Journal) :
    ∃ σ s, passBy limit (rootJob marker) σ w = some s ∧
      (rootAllSpecifiers marker limit w j).1 =
        .ok ⟨"relative-to-absolute", s.visits.map (·.1)⟩ ∧
      (rootAllSpecifiers marker limit w j).2.1 = s.workspace := by
  obtain ⟨σ, s, hs, hvisits, hws⟩ :=
    pass_follows_schedule (rootJob_ends marker) hlimit "relative-to-absolute" hw j
  refine ⟨σ, s, hs, ?_⟩
  have hpos : ¬ (limit : Int) ≤ 0 := by omega
  unfold rootAllSpecifiers
  rw [if_neg hpos, hvisits, hws]
  exact ⟨rfl, rfl⟩

/-- For every project, every limit and every interleaving of the tasks: a naming run and a rooting run
leave the same in memory and on disk, give the same names and report the same outcomes, and the runs of
the library are among the interleavings. Every loaded project stands apart, by `load_separate`. -/
theorem runs_schedule_independent {w : Workspace} (hw : w.Separate) (marker : String) {limit : Nat}
    (hlimit : 1 ≤ limit) (j : Journal) :
    ((∃ σ₁ σ₂ r, nameDefaultsBy limit σ₁ σ₂ w = some r ∧
        (nameDefaults limit w j).1 = .ok r.result ∧ (nameDefaults limit w j).2.1 = r.workspace) ∧
      ∀ (limit' : Nat) (σ₁ σ₂ τ₁ τ₂ : List Path) (r r' : NamingRun),
        nameDefaultsBy limit σ₁ σ₂ w = some r → nameDefaultsBy limit' τ₁ τ₂ w = some r' →
        r.Agree r') ∧
    ((∃ σ s, passBy limit (rootJob marker) σ w = some s ∧
        (rootAllSpecifiers marker limit w j).1 =
          .ok ⟨"relative-to-absolute", s.visits.map (·.1)⟩ ∧
        (rootAllSpecifiers marker limit w j).2.1 = s.workspace) ∧
      ∀ (limit' : Nat) (σ τ : List Path) (s s' : PassState Nat),
        passBy limit (rootJob marker) σ w = some s → passBy limit' (rootJob marker) τ w = some s' →
        s.workspace.Alike s'.workspace ∧ (s.visits.map (·.1)).Perm (s'.visits.map (·.1))) := by
  refine ⟨⟨nameDefaults_follows_schedules hw hlimit j, ?_⟩,
    rootAllSpecifiers_follows_schedule hw hlimit marker j, ?_⟩
  · intro limit' σ₁ σ₂ τ₁ τ₂ r r' h h'
    exact nameDefaultsBy_agree hw h h'
  · intro limit' σ τ s s' h h'
    obtain ⟨halike, hvisits⟩ := (passBy_sound hw h).2.agree (passBy_sound hw h').2 (.refl w)
    exact ⟨halike, hvisits.map _⟩

/-- A place in the sample project. -/
def samplePath (name : String) : Path := ⟨.root, ["p", "src", name]⟩

/-- A module with a default export beside one that imports it. -/
def sampleProject : Workspace :=
  let value := Bytes.ofString "export default 1;\n"
  let user := Bytes.ofString "import x, \x7b y \x7d from \"./a\";\nx;\n"
  { disk := ⟨[(⟨.root, ["p"]⟩, .directory), (⟨.root, ["p", "src"]⟩, .directory),
      (samplePath "a.ts", .file value), (samplePath "b.ts", .file user)]⟩
    config := ⟨⟨.root, ["p", "tsconfig.json"]⟩, none, [], none, false, ["**/*"], [], [], none⟩
    files := [⟨samplePath "a.ts", .typescript, value, false⟩,
      ⟨samplePath "b.ts", .typescript, user, false⟩] }

theorem sampleProject_separate : sampleProject.Separate :=
  ⟨by decide, by decide, by decide⟩

/-- A schedule of the sample project, by the names of the files. -/
def sampleSchedule (names : String) : List Path :=
  names.toList.map fun c => samplePath (String.ofList [c, '.', 't', 's'])

/-- Two interleavings of the sample project: one in which the tasks overlap, and one in which the files
take their turns in the other order. -/
theorem sampleProject_schedules_agree :
    ∃ r r', nameDefaultsBy 2 (sampleSchedule "abababaa") (sampleSchedule "babababb") sampleProject =
        some r ∧
      nameDefaultsBy 1 (sampleSchedule "bbbaaaaa") (sampleSchedule "bbbbbaaa") sampleProject =
        some r' ∧ r.Agree r' := by
  obtain ⟨r, hr⟩ := Option.isSome_iff_exists.mp (show (nameDefaultsBy 2 (sampleSchedule "abababaa")
    (sampleSchedule "babababb") sampleProject).isSome = true by decide +kernel)
  obtain ⟨r', hr'⟩ := Option.isSome_iff_exists.mp (show (nameDefaultsBy 1 (sampleSchedule "bbbaaaaa")
    (sampleSchedule "bbbbbaaa") sampleProject).isSome = true by decide +kernel)
  have hagree := (runs_schedule_independent sampleProject_separate "src" (show 1 ≤ 2 by decide) []).1.2
  exact ⟨r, r', hr, hr', hagree 1 _ _ _ _ r r' hr hr'⟩

end Codemod
