import Codemod.Proofs.Project

/-!
# The work on one file as a function

The work of a pass on one file consists of a plan and, where the plan calls for it, one commit. A job is
the plan alone: it looks at the configuration, at which files there are and at the file itself. How the
work ends, in memory and on disk, is then a function of the job, and the work does what that function
says.

Main statements:

* `Workspace.commit_ends` says what a commit gives and what workspace it leaves;
* `exportJob_ends`, `importJob_ends` and `rootJob_ends` say that the works of the three passes end as
  their jobs say.
-/

namespace Codemod

variable {α β : Type}

/-- How the work on one file ends: with which result, how the file is left in memory, and what was
written to disk. -/
structure Ending (α : Type) where
  result : Except Fault α
  file : SourceFile
  written : Option Bytes

namespace Ending

/-- The same ending with another value. -/
def map (g : α → β) (e : Ending α) : Ending β :=
  ⟨e.result.map g, e.file, e.written⟩

/-- How a commit ends. Edits that cannot be applied change nothing; edits that cannot be written stay in
memory. -/
def ofCommit (w : Workspace) (f : SourceFile) (edits : List Edit) : Ending Unit :=
  match f.edited edits with
  | .error e => ⟨.error e, f, none⟩
  | .ok g =>
    if g.dirty then
      match w.disk.write g.path g.text with
      | .error e => ⟨.error (.io e), g, none⟩
      | .ok _ => ⟨.ok (), { g with dirty := false }, some g.text⟩
    else ⟨.ok (), g, none⟩

section

variable {w : Workspace} {f g : SourceFile} {edits : List Edit}

theorem ofCommit_of_error {e : Fault} (h : f.edited edits = .error e) :
    ofCommit w f edits = ⟨.error e, f, none⟩ := by
  simp only [ofCommit, h]

theorem ofCommit_of_clean (h : f.edited edits = .ok g) (hd : g.dirty = false) :
    ofCommit w f edits = ⟨.ok (), g, none⟩ := by
  simp [ofCommit, h, hd]

theorem ofCommit_of_refused {e : IoFault} (h : f.edited edits = .ok g) (hd : g.dirty = true)
    (hwrite : w.disk.write g.path g.text = .error e) :
    ofCommit w f edits = ⟨.error (.io e), g, none⟩ := by
  simp [ofCommit, h, hd, hwrite]

theorem ofCommit_of_written {d : FileSystem} (h : f.edited edits = .ok g) (hd : g.dirty = true)
    (hwrite : w.disk.write g.path g.text = .ok d) :
    ofCommit w f edits = ⟨.ok (), { g with dirty := false }, some g.text⟩ := by
  simp [ofCommit, h, hd, hwrite]

end

@[simp] theorem map_result (g : α → β) (e : Ending α) : (e.map g).result = e.result.map g := rfl

end Ending

/-- From the configuration, the files of the project and a file: the value that the work on the file
gives, and the edits that it commits, if it commits any. -/
abbrev Job (α : Type) := Config → (Path → Bool) → SourceFile → Except Fault (α × Option (List Edit))

/-- How a job ends in a workspace. -/
def Job.ending (job : Job α) (w : Workspace) (f : SourceFile) : Ending α :=
  match job w.config w.knows f with
  | .error e => ⟨.error e, f, none⟩
  | .ok (a, none) => ⟨.ok a, f, none⟩
  | .ok (a, some edits) => (Ending.ofCommit w f edits).map fun _ => a

namespace Job

/-- The ways in which a job can end: it makes no plan, has nothing to commit, or commits edits that
cannot be applied, change nothing, cannot be written or are written. -/
inductive Ends (job : Job α) (w : Workspace) (f : SourceFile) : Ending α → Prop
  | failed {e : Fault} (hjob : job w.config w.knows f = .error e) : Ends job w f ⟨.error e, f, none⟩
  | idle {a : α} (hjob : job w.config w.knows f = .ok (a, none)) : Ends job w f ⟨.ok a, f, none⟩
  | unapplied {a : α} {edits : List Edit} {e : Fault}
      (hjob : job w.config w.knows f = .ok (a, some edits)) (hedit : f.edited edits = .error e) :
      Ends job w f ⟨.error e, f, none⟩
  | clean {a : α} {edits : List Edit} {g : SourceFile}
      (hjob : job w.config w.knows f = .ok (a, some edits)) (hedit : f.edited edits = .ok g)
      (hdirty : g.dirty = false) : Ends job w f ⟨.ok a, g, none⟩
  | refused {a : α} {edits : List Edit} {g : SourceFile} {e : IoFault}
      (hjob : job w.config w.knows f = .ok (a, some edits)) (hedit : f.edited edits = .ok g)
      (hdirty : g.dirty = true) (hwrite : w.disk.write g.path g.text = .error e) :
      Ends job w f ⟨.error (.io e), g, none⟩
  | written {a : α} {edits : List Edit} {g : SourceFile} {d : FileSystem}
      (hjob : job w.config w.knows f = .ok (a, some edits)) (hedit : f.edited edits = .ok g)
      (hdirty : g.dirty = true) (hwrite : w.disk.write g.path g.text = .ok d) :
      Ends job w f ⟨.ok a, { g with dirty := false }, some g.text⟩

variable {job : Job α} {w : Workspace} {f : SourceFile} {a : α}

theorem ending_of_error {e : Fault} (h : job w.config w.knows f = .error e) :
    job.ending w f = ⟨.error e, f, none⟩ := by
  simp only [ending, h]

theorem ending_of_none (h : job w.config w.knows f = .ok (a, none)) :
    job.ending w f = ⟨.ok a, f, none⟩ := by
  simp only [ending, h]

theorem ending_of_some {edits : List Edit} (h : job w.config w.knows f = .ok (a, some edits)) :
    job.ending w f = (Ending.ofCommit w f edits).map fun _ => a := by
  simp only [ending, h]

/-- A job ends in one of the ways in which it can. -/
theorem ends (job : Job α) (w : Workspace) (f : SourceFile) : job.Ends w f (job.ending w f) := by
  cases hjob : job w.config w.knows f with
  | error e =>
    rw [ending_of_error hjob]
    exact .failed hjob
  | ok r =>
    obtain ⟨a, edits | edits⟩ := r
    · rw [ending_of_none hjob]
      exact .idle hjob
    · rw [ending_of_some hjob]
      cases hedit : f.edited edits with
      | error e =>
        rw [Ending.ofCommit_of_error hedit]
        exact .unapplied hjob hedit
      | ok g =>
        cases hd : g.dirty with
        | false =>
          rw [Ending.ofCommit_of_clean hedit hd]
          exact .clean hjob hedit hd
        | true =>
          cases hwrite : w.disk.write g.path g.text with
          | error e =>
            rw [Ending.ofCommit_of_refused hedit hd hwrite]
            exact .refused hjob hedit hd hwrite
          | ok d =>
            rw [Ending.ofCommit_of_written hedit hd hwrite]
            exact .written hjob hedit hd hwrite

end Job

/-- Gives a default export a name, and tells it. -/
def exportJob : Job (Option String) := fun _ _ f =>
  (NamedExport.plan f).outcome.map fun
    | none => (none, none)
    | some (name, edits) => (some name, some edits)

/-- What the first pass commits is what it planned. -/
theorem exportJob_eq_ok {c : Config} {known : Path → Bool} {f : SourceFile}
    {value : Option String} {edits : List Edit} (h : exportJob c known f = .ok (value, some edits)) :
    ∃ name, value = some name ∧ (NamedExport.plan f).outcome = .ok (some (name, edits)) := by
  unfold exportJob at h
  cases ho : (NamedExport.plan f).outcome with
  | error e => rw [ho] at h; cases h
  | ok r =>
    rw [ho] at h
    cases r with
    | none => cases h
    | some ne =>
      cases h
      exact ⟨ne.1, rfl, rfl⟩

/-- Imports default exports by the names that they got, and tells how many imports changed. -/
def importJob (names : Keyed Path String) : Job Nat := fun c known f =>
  (NamedImport.plan f (Resolution.resolve c known f.path) names).outcome.map fun plan =>
    (plan.length, some plan.flatten)

/-- Writes relative specifiers from the source root, and tells how many changed. -/
def rootJob (marker : String) : Job Nat := fun c known f =>
  (RootedImport.plan f (Resolution.resolve c known f.path) marker c.root).outcome.map fun edits =>
    (edits.length, some edits)

/-- A file after a batch of edits has the text that they make, and is dirty unless it is as before. -/
theorem SourceFile.edited_eq_ok {f g : SourceFile} {edits : List Edit} (h : f.edited edits = .ok g) :
    Edit.applyAll edits f.text = .ok g.text ∧ (g = f ∨ g = { f with text := g.text, dirty := true }) := by
  unfold SourceFile.edited at h
  split at h
  case isTrue hempty =>
    cases h
    rw [List.isEmpty_iff.mp hempty]
    exact ⟨rfl, .inl rfl⟩
  case isFalse =>
    split at h
    · cases h
      exact ⟨‹_›, .inr rfl⟩
    · cases h

theorem SourceFile.edited_path {f g : SourceFile} {edits : List Edit} (h : f.edited edits = .ok g) :
    g.path = f.path := by
  rcases (SourceFile.edited_eq_ok h).2 with rfl | hg
  · rfl
  · rw [hg]

theorem SourceFile.edited_dirty {f g : SourceFile} {edits : List Edit} (h : f.edited edits = .ok g)
    (hf : f.dirty = true) : g.dirty = true := by
  rcases (SourceFile.edited_eq_ok h).2 with rfl | hg
  · exact hf
  · rw [hg]

theorem Ending.ofCommit_path (w : Workspace) (f : SourceFile) (edits : List Edit) :
    (ofCommit w f edits).file.path = f.path := by
  unfold ofCommit
  split
  · rfl
  · have hg := SourceFile.edited_path ‹_›
    split
    · split
      · exact hg
      · exact hg
    · exact hg

/-- The file is still the one at its path when the work on it ends. -/
@[simp] theorem Job.ending_path (job : Job α) (w : Workspace) (f : SourceFile) :
    (job.ending w f).file.path = f.path := by
  unfold Job.ending
  split
  · rfl
  · rfl
  · exact Ending.ofCommit_path w f _

/-- A file whose changes are not on disk stays marked until a write. -/
theorem Job.ending_dirty {job : Job α} {w : Workspace} {f : SourceFile} (hf : f.dirty = true)
    (h : (job.ending w f).written = none) : (job.ending w f).file.dirty = true := by
  have hends := job.ends w f
  generalize job.ending w f = e at h hends
  cases hends with
  | failed | idle | unapplied => exact hf
  | clean _ hedit hdirty => exact SourceFile.edited_dirty hedit hf
  | refused _ _ hdirty => exact hdirty
  | written => cases h

/-- What a write leaves on disk. -/
theorem FileSystem.write_eq_put {fs fs' : FileSystem} {p : Path} {b : Bytes}
    (h : fs.write p b = .ok fs') : fs' = fs.put p (.file b) := by
  unfold FileSystem.write at h
  split at h
  · cases h
  · split at h
    · cases h
    · cases h; rfl

namespace Work

theorem bind_ok {x : Work α} {k : α → Work β} {w w' : Workspace} {j j' : Journal} {a : α}
    (h : x w j = (.ok a, w', j')) : (x >>= k) w j = k a w' j' := by
  show Work.bind x k w j = _
  simp only [Work.bind, h]

theorem bind_error {x : Work α} {k : α → Work β} {w w' : Workspace} {j j' : Journal} {e : Fault}
    (h : x w j = (.error e, w', j')) : (x >>= k) w j = (.error e, w', j') := by
  show Work.bind x k w j = _
  simp only [Work.bind, h]

/-- Work that only looks gives its outcome and leaves the workspace alone. -/
theorem ofJournaled_run {x : Journaled Fault α} (h : x.Steady) (w : Workspace) (j : Journal) :
    Work.ofJournaled x w j = (x.outcome, w, j ++ (x []).2) := by
  rw [Work.ofJournaled, h j]

end Work

namespace Workspace

/-- The workspace in which the work on one file has ended. -/
def settle (w : Workspace) (e : Ending α) : Workspace :=
  match e.written with
  | none => w.setFile e.file
  | some b => { w.setFile e.file with disk := w.disk.put e.file.path (.file b) }

@[simp] theorem settle_map (w : Workspace) (e : Ending α) (g : α → β) :
    w.settle (e.map g) = w.settle e := rfl

@[simp] theorem paths_settle (w : Workspace) (e : Ending α) : (w.settle e).paths = w.paths := by
  unfold settle
  split
  · exact paths_setFile
  · exact paths_setFile

theorem file?_settle {w : Workspace} {e : Ending α} (h : ∃ f, w.file? e.file.path = some f) :
    (w.settle e).file? e.file.path = some e.file := by
  have hfile : (w.setFile e.file).file? e.file.path = some e.file := by
    rw [file?_setFile h, if_pos rfl]
  unfold settle
  split
  · exact hfile
  · exact hfile

theorem setFile_setFile (w : Workspace) {f g : SourceFile} (h : f.path = g.path) :
    (w.setFile f).setFile g = w.setFile g := by
  unfold setFile
  simp only [List.map_map, mk.injEq, true_and]
  refine List.map_congr_left fun x _ => ?_
  by_cases hx : x.path = g.path
  · simp [hx, h]
  · have hx' : ¬ x.path = f.path := fun e => hx (e.trans h)
    simp [hx, hx']

/-- Work that changes nothing leaves the workspace as it was. -/
theorem settle_self {w : Workspace} {f : SourceFile} (hw : w.paths.Nodup)
    (hf : w.file? f.path = some f) (r : Except Fault α) : w.settle ⟨r, f, none⟩ = w :=
  setFile_self hw hf

/-- What a save of a changed file gives, and what it leaves. -/
theorem save_of_dirty {g : SourceFile} (h : g.dirty = true) (w : Workspace) (j : Journal) :
    ∃ j', save g w j =
      match w.disk.write g.path g.text with
      | .error e => (.error (.io e), w, j')
      | .ok d => (.ok true, { w.setFile { g with dirty := false } with disk := d }, j') := by
  unfold save
  rw [if_pos h]
  show ∃ j', Work.bind Work.workspace _ w j = _
  simp only [Work.bind, Work.workspace]
  cases w.disk.write g.path g.text with
  | error e => exact ⟨j, rfl⟩
  | ok d => exact ⟨_, rfl⟩

/-- A commit ends as the edits and the disk decide. -/
theorem commit_ends {w : Workspace} {f : SourceFile} (hw : w.paths.Nodup)
    (hf : w.file? f.path = some f) (edits : List Edit) (j : Journal) :
    ∃ j', commit f edits w j =
      ((Ending.ofCommit w f edits).result, w.settle (Ending.ofCommit w f edits), j') := by
  cases he : f.edited edits with
  | error e =>
    refine ⟨j, ?_⟩
    rw [commit_error he w j, Ending.ofCommit_of_error he, settle_self hw hf]
  | ok g =>
    have hedit : edit f edits w j = (.ok g, w.setFile g, j) := by
      unfold edit
      rw [he]
      rfl
    have hcommit : ∀ r w' j', save g (w.setFile g) j = (r, w', j') →
        commit f edits w j = (r.map fun _ => (), w', j') := by
      intro r w' j' hr
      refine (Work.bind_ok hedit).trans ?_
      cases r with
      | ok b => exact Work.bind_ok hr
      | error e => exact Work.bind_error hr
    cases hd : g.dirty with
    | false =>
      rw [Ending.ofCommit_of_clean he hd]
      exact ⟨j, hcommit _ _ _ (save_of_clean hd _ _)⟩
    | true =>
      obtain ⟨j', hsave⟩ := save_of_dirty hd (w.setFile g) j
      refine ⟨j', ?_⟩
      rw [disk_setFile] at hsave
      cases hwrite : w.disk.write g.path g.text with
      | error e =>
        rw [hwrite] at hsave
        rw [Ending.ofCommit_of_refused he hd hwrite]
        exact hcommit _ _ _ hsave
      | ok d =>
        rw [hwrite] at hsave
        rw [Ending.ofCommit_of_written he hd hwrite, hcommit _ _ _ hsave,
          setFile_setFile w (show g.path = ({ g with dirty := false } : SourceFile).path from rfl),
          FileSystem.write_eq_put hwrite]
        rfl

end Workspace

/-- A job describes a work when the work on each file of a project ends as the job says. -/
def Job.Describes (job : Job α) (work : SourceFile → Work α) : Prop :=
  ∀ (w : Workspace) (f : SourceFile) (j : Journal), w.paths.Nodup → w.file? f.path = some f →
    ∃ j', work f w j = ((job.ending w f).result, w.settle (job.ending w f), j')

open Workspace

section

variable {w : Workspace} {f : SourceFile} (hw : w.paths.Nodup) (hf : w.file? f.path = some f)

include hw hf

/-- Work that commits edits, and then only notes and tells a value, ends as a job that plans both. -/
theorem ends_of_commit {job : Job α} {a : α} {edits : List Edit} {rest : Unit → Work α}
    (hjob : job w.config w.knows f = .ok (a, some edits)) (j : Journal)
    (hrest : ∀ w j, ∃ j', rest () w j = (.ok a, w, j')) :
    ∃ j', (commit f edits >>= rest) w j =
      ((job.ending w f).result, w.settle (job.ending w f), j') := by
  obtain ⟨j', hc⟩ := commit_ends hw hf edits j
  rw [Job.ending_of_some hjob, Ending.map_result, settle_map]
  cases hr : (Ending.ofCommit w f edits).result with
  | error e =>
    rw [hr] at hc
    exact ⟨j', Work.bind_error hc⟩
  | ok u =>
    rw [hr] at hc
    rw [Work.bind_ok hc]
    exact hrest _ j'

/-- Work that plans, commits its plan and tells a value ends as the plan says. -/
theorem ends_of_plan {γ : Type} {plan : Journaled Fault γ} {edits : γ → List Edit} {value : γ → α}
    (hplan : plan.Steady) (j : Journal) {job : Job α}
    (hjob : job w.config w.knows f = plan.outcome.map fun c => (value c, some (edits c))) :
    ∃ j', (Work.ofJournaled plan >>= fun c => commit f (edits c) >>= fun _ => pure (value c)) w j =
      ((job.ending w f).result, w.settle (job.ending w f), j') := by
  have hrun := Work.ofJournaled_run hplan w j
  cases ho : plan.outcome with
  | error e =>
    rw [ho] at hrun hjob
    rw [Work.bind_error hrun, Job.ending_of_error hjob]
    exact ⟨_, by rw [settle_self hw hf]⟩
  | ok c =>
    rw [ho] at hrun hjob
    rw [Work.bind_ok hrun]
    exact ends_of_commit hw hf hjob _ fun _ j => ⟨j, rfl⟩

end

/-- The work of the first pass of a naming run ends as its job says. -/
theorem exportJob_ends : exportJob.Describes nameDefaultExport := by
  intro w f j hw hf
  have hrun := Work.ofJournaled_run (NamedExport.plan_steady f) w j
  have hjob : exportJob w.config w.knows f = (NamedExport.plan f).outcome.map fun
      | none => (none, none)
      | some (name, edits) => (some name, some edits) := rfl
  unfold nameDefaultExport
  cases ho : (NamedExport.plan f).outcome with
  | error e =>
    rw [ho] at hrun hjob
    rw [Work.bind_error hrun, Job.ending_of_error hjob]
    exact ⟨_, by rw [settle_self hw hf]⟩
  | ok r =>
    rw [ho] at hrun hjob
    rw [Work.bind_ok hrun]
    cases r with
    | none =>
      rw [Job.ending_of_none hjob]
      exact ⟨_, by rw [settle_self hw hf]; rfl⟩
    | some ne => exact ends_of_commit hw hf hjob _ fun _ _ => ⟨_, rfl⟩

/-- The work of the second pass of a naming run ends as its job says. -/
theorem importJob_ends (names : Keyed Path String) :
    (importJob names).Describes (nameDefaultImports names) := by
  intro w f j hw hf
  have hlook : Work.workspace w j = (.ok w, w, j) := rfl
  unfold nameDefaultImports
  rw [Work.bind_ok hlook]
  exact ends_of_plan hw hf (NamedImport.plan_steady f _ names) j rfl

/-- The work of a rooting run ends as its job says. -/
theorem rootJob_ends (marker : String) : (rootJob marker).Describes (rootSpecifiers marker) := by
  intro w f j hw hf
  have hlook : Work.workspace w j = (.ok w, w, j) := rfl
  unfold rootSpecifiers
  rw [Work.bind_ok hlook]
  exact ends_of_plan hw hf (RootedImport.plan_steady f _ marker _) j rfl

end Codemod
