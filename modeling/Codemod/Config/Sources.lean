import Codemod.Config.Basic
import Codemod.Config.Layer
import Codemod.Log.Journal

/-!
# The source files of a project

`Config.sources` lists the files that belong to a project: the files that the configuration names,
and the files under the root that a pattern includes and none excludes. The list is in path order
and has no repetitions.

Main statements:

* `mem_insertPath` says that inserting a path adds it and nothing else;
* `mem_walk_iff` says which files the patterns select.
-/

namespace Codemod.Config

/-- Directories whose contents never belong to a project. -/
def skippedDirectories : List String := ["node_modules", ".git"]

/-- Inserts a path at its place in a list in path order, unless it is there. -/
def insertPath (p : Path) : List Path → List Path
  | [] => [p]
  | q :: rest =>
    if p = q then q :: rest
    else if p.le q then p :: q :: rest
    else q :: insertPath p rest

/-- Inserting a path adds it and nothing else. -/
theorem mem_insertPath {p q : Path} {l : List Path} : q ∈ insertPath p l ↔ q = p ∨ q ∈ l := by
  induction l with
  | nil => simp [insertPath]
  | cons r rest ih =>
    unfold insertPath
    split
    case isTrue h => subst h; simp
    case isFalse =>
      split
      case isTrue => simp
      case isFalse =>
        simp only [List.mem_cons, ih]
        constructor
        · rintro (h | h | h) <;> simp [h]
        · rintro (h | h | h) <;> simp [h]

/-- The paths of a list, in path order and without repetitions. -/
def pathOrder (l : List Path) : List Path :=
  l.foldl (fun acc p => insertPath p acc) []

/-- Whether a file name ends with one of the extensions. -/
def hasExtension (extensions : List String) (name : String) : Bool :=
  extensions.any fun ext => Text.hasSuffix ext name

/-- Whether the patterns select the file with the given segments below the root. -/
def selectsFile (c : Config) (ss : List String) : Bool :=
  let path := Path.relativeText ss
  !ss.dropLast.any (skippedDirectories.contains ·) &&
    hasExtension c.extensions (ss.getLast?.getD "") &&
    c.included.any (fun p => (Glob.ofString p true false).selects path) &&
    !c.effectiveExcluded.any (fun p => (Glob.ofString p true true).selects path)

/-- The files under the root that the patterns select. -/
def walk (c : Config) (fs : FileSystem) : List Path :=
  (fs.files.map (·.1)).filter fun p =>
    match c.root.below? p with
    | some ss => c.selectsFile ss
    | none => false

/-- The patterns select a file exactly when it lies under the root and is selected there. -/
theorem mem_walk_iff {c : Config} {fs : FileSystem} {p : Path} :
    p ∈ c.walk fs ↔
      p ∈ fs.files.map (·.1) ∧ ∃ ss, c.root.below? p = some ss ∧ c.selectsFile ss = true := by
  unfold walk
  rw [List.mem_filter]
  refine and_congr_right fun _ => ?_
  cases h : c.root.below? p with
  | none => simp
  | some ss => simp

/-- The files that the configuration names; a name that leads to no file is noted. -/
def namedFiles (c : Config) (fs : FileSystem) : List String → Journaled Fault (List Path)
  | [] => pure []
  | s :: rest => do
    let p ← .ofExcept (locate c.root s)
    if fs.isFile p then
      return p :: (← namedFiles c fs rest)
    else
      .note .warning s!"tsconfig 'files' entry not found: {s}"
      namedFiles c fs rest

/-- The source files of a project. -/
def sources (c : Config) (fs : FileSystem) : Journaled Fault (List Path) := do
  let named ← c.namedFiles fs c.files
  return pathOrder (named ++ c.walk fs)

end Codemod.Config
