import Codemod.Workspace

/-!
# Runs

A pass does the same work on every file of a project. A file whose work fails is reported and stops no
other file. A run is one pass or several, each of which waits for the one before it.

Main statements:

* `Report.length_outcomes` says that every outcome counts as a success or as a failure, and
  `Report.ok_iff` when a report is in order;
* `pass_outcomes_length` says that a pass has one outcome for every file.
-/

namespace Codemod

/-- How the work on one file ended. -/
structure Outcome where
  path : Path
  fault : Option Fault
  deriving DecidableEq, Repr

/-- The outcomes of a pass. -/
structure Report where
  name : String
  outcomes : List Outcome
  deriving DecidableEq, Repr

namespace Report

/-- The outcomes without a fault. -/
def succeeded (r : Report) : List Outcome :=
  r.outcomes.filter fun o => o.fault.isNone

/-- The outcomes with a fault. -/
def failed (r : Report) : List Outcome :=
  r.outcomes.filter fun o => o.fault.isSome

/-- Whether no file failed. -/
def ok (r : Report) : Bool :=
  r.failed.isEmpty

/-- One line about the pass. -/
def summary (r : Report) : String :=
  s!"{r.name}: {r.outcomes.length} files, {r.failed.length} failed"

/-- Every outcome counts as a success or as a failure. -/
theorem length_outcomes (r : Report) : r.outcomes.length = r.succeeded.length + r.failed.length := by
  unfold succeeded failed
  induction r.outcomes with
  | nil => rfl
  | cons o rest ih =>
    cases h : o.fault with
    | none => simp [h, ih]; omega
    | some f => simp [h, ih]; omega

/-- A report is in order when no outcome in it has a fault. -/
theorem ok_iff {r : Report} : r.ok = true ↔ ∀ o ∈ r.outcomes, o.fault = none := by
  simp [ok, failed, List.isEmpty_iff, List.filter_eq_nil_iff]

end Report

/-- A number of files to be worked on at once that allows no work. -/
structure NoCapacity where
  given : Int
  deriving DecidableEq, Repr

/-- The wording of the fault. -/
def NoCapacity.message (f : NoCapacity) : String :=
  s!"max_concurrent must be > 0, got {f.given}"

/-- A whole run: it works on a workspace and appends to the journal. -/
abbrev Run (α : Type) := Workspace → Journal → α × Workspace × Journal

/-- The work of a pass on one file. A failure is noted. -/
def visit {α : Type} (name : String) (work : SourceFile → Work α) (p : Path) :
    Run (Outcome × Option α) := fun w j =>
  match w.file? p with
  | none => ((⟨p, none⟩, none), w, j)
  | some f =>
    match work f w j with
    | (.ok a, w, j) => ((⟨p, none⟩, some a), w, j)
    | (.error e, w, j) =>
      ((⟨p, some e⟩, none), w, j ++ [⟨.error, s!"[{name}] {p.toString}: {e.message}"⟩])

/-- The work of a pass on files one after the other. -/
def visitAll {α : Type} (name : String) (work : SourceFile → Work α) :
    List Path → Run (List (Outcome × Option α))
  | [], w, j => ([], w, j)
  | p :: rest, w, j =>
    match visit name work p w j with
    | (first, w, j) =>
      match visitAll name work rest w j with
      | (more, w, j) => (first :: more, w, j)

/-- A pass over all files of a project. The line about it comes last. -/
def pass {α : Type} (name : String) (work : SourceFile → Work α) :
    Run (Report × List (Outcome × Option α)) := fun w j =>
  match visitAll name work (w.files.map (·.path)) w j with
  | (visits, w, j) =>
    let report : Report := ⟨name, visits.map (·.1)⟩
    ((report, visits), w, j ++ [⟨.info, report.summary⟩])

theorem visitAll_length {α : Type} (name : String) (work : SourceFile → Work α) (ps : List Path)
    (w : Workspace) (j : Journal) : (visitAll name work ps w j).1.length = ps.length := by
  induction ps generalizing w j with
  | nil => rfl
  | cons p rest ih =>
    simp only [visitAll, List.length_cons]
    rw [ih]

/-- A pass has one outcome for every file. -/
theorem pass_outcomes_length {α : Type} (name : String) (work : SourceFile → Work α) (w : Workspace)
    (j : Journal) : (pass name work w j).1.1.outcomes.length = w.files.length := by
  simp [pass, visitAll_length]

/-- The names that default exports got, by the files that they were given in. -/
def recordsOf (visits : List (Outcome × Option (Option String))) : Keyed Path String :=
  visits.filterMap fun v => v.2.join.map fun name => (v.1.path, name)

/-- What a run over the default exports gives. -/
structure NamingResult where
  records : Keyed Path String
  exports : Report
  imports : Report
  deriving Repr

/-- Whether no file failed in either pass. -/
def NamingResult.ok (r : NamingResult) : Bool :=
  r.exports.ok && r.imports.ok

/-- Names every default export, and then imports every default export that got a name by that name. -/
def nameDefaults (maxConcurrent : Int) : Run (Except NoCapacity NamingResult) := fun w j =>
  if maxConcurrent ≤ 0 then (.error ⟨maxConcurrent⟩, w, j)
  else
    match pass "rename-default-exports" Workspace.nameDefaultExport w j with
    | ((exports, visits), w, j) =>
      let records := recordsOf visits
      match pass "repair-default-imports" (Workspace.nameDefaultImports records) w j with
      | ((imports, _), w, j) => (.ok ⟨records, exports, imports⟩, w, j)

/-- Writes every relative specifier from the source root. -/
def rootAllSpecifiers (marker : String) (maxConcurrent : Int) : Run (Except NoCapacity Report) :=
  fun w j =>
    if maxConcurrent ≤ 0 then (.error ⟨maxConcurrent⟩, w, j)
    else
      match pass "relative-to-absolute" (Workspace.rootSpecifiers marker) w j with
      | ((report, _), w, j) => (.ok report, w, j)

end Codemod
