import Codemod.FileSystem

/-!
# Rotated files

Lines are appended to a file until it would grow too large. Then it is put aside under its name with a
number, where the newest such file has number one, and a new file is begun. Only so many files are put
aside as there are backups; without backups the file goes on growing.
-/

namespace Codemod.Log

/-- A file that is rotated. -/
structure Rotation where
  path : Path
  maxBytes : Nat
  backups : Nat
  deriving DecidableEq, Repr

namespace Rotation

/-- The path of a file that was put aside. -/
def backup (r : Rotation) (n : Nat) : Path :=
  r.path.replaceName s!"{r.path.name}.{n}"

/-- Moves a file, if it is there, to another place. -/
def move (fs : FileSystem) (source target : Path) : FileSystem :=
  match fs.content? source with
  | some b => (fs.remove source).put target (.file b)
  | none => fs

/-- Moves every file that was put aside on by one, those with the highest numbers first. -/
def shift (r : Rotation) : Nat → FileSystem → FileSystem
  | 0, fs => fs
  | n + 1, fs => r.shift n (move fs (r.backup (n + 1)) (r.backup (n + 2)))

/-- Puts the file aside and begins a new one. -/
def roll (r : Rotation) (fs : FileSystem) : FileSystem :=
  match r.backups with
  | 0 => fs
  | n + 1 => (move (r.shift n fs) r.path (r.backup 1)).put r.path (.file [])

/-- What the file holds. -/
def content (r : Rotation) (fs : FileSystem) : Bytes :=
  (fs.content? r.path).getD []

/-- Whether a line fits into the file, its end included. -/
def fits (r : Rotation) (fs : FileSystem) (line : Bytes) : Bool :=
  (r.content fs).length + line.length + 1 < r.maxBytes

/-- Appends a line, after the file was put aside if the line does not fit. -/
def append (r : Rotation) (fs : FileSystem) (line : Bytes) : FileSystem :=
  let fs := if r.fits fs line then fs else r.roll fs
  fs.put r.path (.file (r.content fs ++ line ++ [Bytes.newline]))

/-- Makes sure that the file is there. -/
def create (r : Rotation) (fs : FileSystem) : Except IoFault FileSystem :=
  fs.write r.path (r.content fs)

end Rotation
end Codemod.Log
