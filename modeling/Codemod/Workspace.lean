import Codemod.Config.Chain
import Codemod.Config.Sources
import Codemod.NamedExport
import Codemod.NamedImport
import Codemod.RootedImport

/-!
# Workspaces

A workspace is a project in memory together with the disk that it was loaded from. Work changes a
workspace, appends to the journal and may fail; what it has done to the workspace before it fails stays
done.

Main statements:

* `Workspace.save_of_clean` says that an unchanged file is not written;
* `Workspace.commit_error` says that edits that cannot be applied change nothing.
-/

namespace Codemod

/-- A project in memory and the disk. -/
structure Workspace where
  disk : FileSystem
  config : Config
  /-- The files of the project in path order. -/
  files : List SourceFile

/-- Work on a workspace. -/
def Work (α : Type) := Workspace → Journal → Except Fault α × Workspace × Journal

namespace Work

variable {α β : Type}

/-- Gives a value and does nothing. -/
def pure (a : α) : Work α := fun w j => (.ok a, w, j)

/-- Runs one piece of work and then the one that its value selects. -/
def bind (x : Work α) (f : α → Work β) : Work β := fun w j =>
  match x w j with
  | (.ok a, w, j) => f a w j
  | (.error e, w, j) => (.error e, w, j)

instance : Monad Work where
  pure := pure
  bind := bind

/-- Fails. -/
def fail (e : Fault) : Work α := fun w j => (.error e, w, j)

/-- The workspace. -/
def workspace : Work Workspace := fun w j => (.ok w, w, j)

/-- Replaces the workspace. -/
def put (w : Workspace) : Work Unit := fun _ j => (.ok (), w, j)

/-- Work that leaves the workspace alone. -/
def ofJournaled (x : Journaled Fault α) : Work α := fun w j =>
  match x j with
  | (r, j) => (r, w, j)

/-- A result that is there already. -/
def ofExcept : Except Fault α → Work α
  | .ok a => pure a
  | .error e => fail e

/-- Appends a line to the journal. -/
def note (level : Level) (message : String) : Work Unit := ofJournaled (.note level message)

end Work

namespace Workspace

/-- Why a project could not be loaded. -/
inductive LoadFault where
  | config (f : Config.Fault)
  | file (f : Fault)

/-- Reads a source file from disk. -/
def readSource (disk : FileSystem) (p : Path) : Except Fault SourceFile :=
  match disk.read p with
  | .error f => .error (.io f)
  | .ok text => SourceFile.ofText p text

/-- Loads the project of the configuration that a text names, read from the directory `cwd`. -/
def load (disk : FileSystem) (cwd : Path) (s : String) : Journaled LoadFault Workspace := do
  let config ← (Config.load disk cwd s).mapError .config
  let paths ← (config.sources disk).mapError .config
  let files ← .ofExcept ((paths.mapM (readSource disk)).mapError .file)
  .note .info s!"Loaded {files.length} source files from {config.path.toString}"
  return ⟨disk, config, files⟩

/-- The file of the project at a path. -/
def file? (w : Workspace) (p : Path) : Option SourceFile :=
  w.files.find? fun f => f.path = p

/-- Whether a path is that of a file of the project. -/
def knows (w : Workspace) (p : Path) : Bool :=
  (w.file? p).isSome

/-- The workspace with a file in the place of that at the same path. -/
def setFile (w : Workspace) (f : SourceFile) : Workspace :=
  { w with files := w.files.map fun g => if g.path = f.path then f else g }

/-- The file of the project that a specifier in another file means, if it means one. -/
def resolve (w : Workspace) (importer : Path) (spec : String) : Except Fault (Option Path) :=
  Resolution.resolve w.config w.knows importer spec

/-- Applies edits to a file in memory. -/
def edit (f : SourceFile) (edits : List Edit) : Work SourceFile := do
  let f ← .ofExcept (f.edited edits)
  .put ((← .workspace).setFile f)
  return f

/-- Applies edits with any texts to a file in memory. -/
def apply (w : Workspace) (f : SourceFile) (edits : List (Edit CodePoints)) : Except Edit.Refusal SourceFile × Workspace :=
  match f.applied edits with
  | .ok g => (.ok g, w.setFile g)
  | .error x => (.error x, w)

/-- Writes a file to disk if it was changed; tells whether it was. -/
def save (f : SourceFile) : Work Bool :=
  if f.dirty then do
    let w ← .workspace
    match w.disk.write f.path f.text with
    | .error e => .fail (.io e)
    | .ok disk =>
      .put { w.setFile { f with dirty := false } with disk := disk }
      .note .debug s!"Saved {f.path.toString}"
      return true
  else return false

/-- An unchanged file is not written. -/
theorem save_of_clean {f : SourceFile} (h : f.dirty = false) (w : Workspace) (j : Journal) :
    save f w j = (.ok false, w, j) := by
  simp only [save, h]
  rfl

/-- Applies edits to a file and writes it to disk. -/
def commit (f : SourceFile) (edits : List Edit) : Work Unit := do
  let f ← edit f edits
  let _ ← save f
  return ()

/-- Edits that cannot be applied change nothing. -/
theorem commit_error {f : SourceFile} {edits : List Edit} {e : Fault} (h : f.edited edits = .error e)
    (w : Workspace) (j : Journal) : commit f edits w j = (.error e, w, j) := by
  have key : edit f edits w j = (.error e, w, j) := by
    unfold edit
    rw [h]
    rfl
  show Work.bind (edit f edits) _ w j = _
  simp [Work.bind, key]

/-! ### The work on one file -/

/-- Gives the default export of a file a name, and tells that name. -/
def nameDefaultExport (f : SourceFile) : Work (Option String) := do
  match ← .ofJournaled (NamedExport.plan f) with
  | none => return none
  | some (name, edits) =>
    commit f edits
    .note .info s!"{f.path.toString}: default export -> export '{name}'"
    return some name

/-- Imports default exports by the names that they got, and tells how many imports changed. -/
def nameDefaultImports (names : Keyed Path String) (f : SourceFile) : Work Nat := do
  let w ← .workspace
  let plan ← .ofJournaled (NamedImport.plan f (w.resolve f.path) names)
  commit f plan.flatten
  return plan.length

/-- Writes the relative specifiers of a file from the source root, and tells how many changed. -/
def rootSpecifiers (marker : String) (f : SourceFile) : Work Nat := do
  let w ← .workspace
  let edits ← .ofJournaled (RootedImport.plan f (w.resolve f.path) marker w.config.root)
  commit f edits
  return edits.length

end Workspace
end Codemod
