import Codemod.CommandLine.Request
import Codemod.Run

/-!
# Sessions

A session does what a request asks for. It ends with lines for the two outputs; a project that cannot be
loaded and files that could not be changed are errors.

Main statements:

* `Conclusion.exitCode_eq_zero_iff` says that a session succeeds exactly when it has no errors to tell;
* `failureLines_eq_nil_iff` says that nothing is told about reports without failures.
-/

namespace Codemod.CommandLine

/-- What a session tells at its end. -/
structure Conclusion where
  output : List String := []
  errors : List String := []
  deriving DecidableEq, Repr

/-- The code that a session ends with. -/
def Conclusion.exitCode (c : Conclusion) : Nat :=
  if c.errors.isEmpty then 0 else 1

/-- A session succeeds exactly when it has no errors to tell. -/
theorem Conclusion.exitCode_eq_zero_iff {c : Conclusion} : c.exitCode = 0 ↔ c.errors = [] := by
  cases h : c.errors with
  | nil => simp [exitCode, h]
  | cons e rest => simp [exitCode, h]

/-- The code that a program ends with when its words are not understood. -/
def usageExitCode : Nat := 2

/-- What is told about the failures of a report. -/
def failuresOf (r : Report) : List String :=
  r.outcomes.filterMap fun o => o.fault.map fun f => s!"[{r.name}] {o.path.toString}: {f.message}"

/-- What is told about the failures of reports; their number comes last. -/
def failureLines (rs : List Report) : List String :=
  let lines := rs.flatMap failuresOf
  if lines.isEmpty then [] else lines ++ [s!"{lines.length} file(s) failed"]

/-- Nothing is told about reports without failures. -/
theorem failureLines_eq_nil_iff {rs : List Report} :
    failureLines rs = [] ↔ ∀ r ∈ rs, failuresOf r = [] := by
  unfold failureLines
  cases h : rs.flatMap failuresOf with
  | nil => simpa using h
  | cons l more =>
    simp only [List.isEmpty_cons, Bool.false_eq_true, if_false, List.append_eq_nil_iff]
    constructor
    · rintro ⟨h', _⟩
      cases h'
    · intro hall
      have hnil : rs.flatMap failuresOf = [] := by simpa using hall
      rw [hnil] at h
      cases h

/-- Why a session broke off. -/
inductive Breakdown where
  | load (f : Workspace.LoadFault)
  | noCapacity (f : NoCapacity)

/-- What a session leaves behind. -/
abbrev Session := Except Breakdown Conclusion × FileSystem × Journal

/-- The conclusion of a session whose project could not be loaded. Faults that are not about the
configuration as a whole break the session off. -/
def refusal (f : Workspace.LoadFault) : Except Breakdown Conclusion :=
  match f with
  | .config c =>
    match c.message? with
    | some m => .ok { errors := [s!"Error: {m}"] }
    | none => .error (.load f)
  | .file _ => .error (.load f)

/-- Runs a command on a project that was loaded. -/
def Command.run (c : Command) (s : Settings) (w : Workspace) (j : Journal) : Session :=
  match c with
  | .namedExports =>
    match nameDefaults s.maxConcurrent w j with
    | (.error e, w, j) => (.error (.noCapacity e), w.disk, j)
    | (.ok r, w, j) =>
      (.ok ⟨[s!"Converted {r.records.length} default export(s) to named exports"],
        failureLines [r.exports, r.imports]⟩, w.disk, j)
  | .rootedSpecifiers =>
    match rootAllSpecifiers s.rootMarker s.maxConcurrent w j with
    | (.error e, w, j) => (.error (.noCapacity e), w.disk, j)
    | (.ok r, w, j) =>
      (.ok ⟨[s!"Processed imports of {r.succeeded.length} file(s)"], failureLines [r]⟩, w.disk, j)

/-- Does what a request asks for, in the directory `cwd`. -/
def Request.run (q : Request) (env : Environment) (cwd : Path) (disk : FileSystem) : Session :=
  match Settings.ofEnvironment env q.choices with
  | .error f => (.ok { errors := [s!"Error: {f.message}"] }, disk, [])
  | .ok s =>
    match Workspace.load disk cwd s.config.toString [] with
    | (.error f, j) => (refusal f, disk, j)
    | (.ok w, j) => q.command.run s w j

end Codemod.CommandLine
