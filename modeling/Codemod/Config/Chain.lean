import Codemod.Config.Layer
import Codemod.Json.Comments
import Codemod.Log.Journal

/-!
# Loading a configuration

A configuration file may extend others. `readChain` unites the layers of a file and of all that it
extends: the files named by `extends` from left to right, each over the ones before it, and the file
itself over all of them. A file that is met again below itself is an error; a file that is met again
elsewhere is read again.

Main statements:

* `readChain_seen` says that a file which is met below itself is refused.
-/

namespace Codemod.Config

/-- The characters of a file with every line end written as a line feed. -/
def unifyLineEnds : List Char → List Char
  | [] => []
  | '\r' :: '\n' :: rest => '\n' :: unifyLineEnds rest
  | '\r' :: rest => '\n' :: unifyLineEnds rest
  | c :: rest => c :: unifyLineEnds rest

/-- The text of a file. -/
def readText (fs : FileSystem) (p : Path) : Except ReadFault String :=
  match fs.read p with
  | .error f => .error (.io f)
  | .ok b =>
    match Utf8.decode b with
    | .error f => .error (.encoding f)
    | .ok s => .ok (String.ofList (unifyLineEnds s.toList))

/-- The members of a configuration file. -/
def readMembers (fs : FileSystem) (p : Path) : Except Fault Json.Members :=
  if !fs.contains p then .error (.notFound p)
  else
    match readText fs p with
    | .error f => .error (.unreadable p f)
    | .ok s =>
      match Json.readWithComments s with
      | .error (.malformed c place) => .error (.malformed p c place)
      | .error .tooManyDigits => .error .tooManyDigits
      | .ok (.object ms) => .ok ms
      | .ok _ => .error (.notAnObject p)

/-- Unites the layers of the files that a configuration extends, from left to right. `read` gives
the united layer of one of them. -/
def readReferences (read : Path → Journaled Fault Layer) (p : Path) (base : Layer) :
    List Json.Value → Journaled Fault Layer
  | [] => pure base
  | .text s :: rest => do
    match ← .ofExcept (referenced p.parent s) with
    | none =>
      .note .warning s!"Ignoring non-relative 'extends' {Text.quoted s} in {p.toString}"
      readReferences read p base rest
    | some q =>
      let layer ← read q
      readReferences read p (layer.onto base) rest
  | _ :: _ => .fail (.wrongShape .reference)

/-- The united layer of a configuration file and all that it extends. `seen` holds the files that
this one is extended by. Every file on the way from the first one is another file, so that the
number of files bounds the depth. -/
def readChain (fs : FileSystem) : Nat → List Path → Path → Journaled Fault Layer
  | 0, _, p => .fail (.circular p)
  | fuel + 1, seen, p =>
    if seen.contains p then .fail (.circular p)
    else do
      let ms ← .ofExcept (readMembers fs p)
      let layer ← .ofExcept (Layer.ofMembers p.parent ms)
      let refs ← .ofExcept (references ms)
      let base ← readReferences (readChain fs fuel (p :: seen)) p .empty refs
      return layer.onto base

/-- A file that is met below itself is refused. -/
theorem readChain_seen {fs : FileSystem} {fuel : Nat} {seen : List Path} {p : Path} {j : Journal}
    (h : p ∈ seen) : readChain fs fuel seen p j = (.error (.circular p), j) := by
  cases fuel with
  | zero => rfl
  | succ n => simp [readChain, h, Journaled.fail]

/-- The targets of the aliases. -/
def aliasTargets : List (String × Json.Value) → Except Fault (Keyed String (List Json.Value))
  | [] => .ok []
  | m :: ms => do
    match m.2.items? with
    | some vs => return (m.1, vs) :: (← aliasTargets ms)
    | none => .error (.wrongShape .sequence)

/-- The aliases of a configuration. -/
def aliasesOf : Option Json.Value → Except Fault (Keyed String (List Json.Value))
  | none => .ok []
  | some (.object ms) => aliasTargets ms
  | some _ => .error (.wrongShape .members)

/-- The directory that alias targets are relative to. -/
def aliasBaseOf : Option Json.Value → Except Fault (Option Path)
  | none => .ok none
  | some v =>
    if v.isSet then
      match v with
      | .text s => .ok (some (Path.ofString s))
      | _ => .error (.wrongShape .text)
    else .ok none

/-- A pattern written from the root, as seen from a directory. -/
def fromDirectory (dir : Path) (s : String) : String :=
  if Text.hasPrefix "/" s then Path.relativeTo dir (Path.ofString s) else s

/-- The configuration at `p` from its united layer. A configuration that names files includes
nothing by default. -/
def ofLayer (p : Path) (l : Layer) : Except Fault Config := do
  let aliases ← aliasesOf l.aliases
  let aliasBase ← aliasBaseOf l.aliasBase
  let included := if l.files.isSome then [] else defaultIncluded
  return {
    path := p
    baseUrl := l.baseUrl
    aliases := aliases
    aliasBase := aliasBase
    allowJs := (l.allowJs.map Json.Value.isSet).getD false
    included := (l.included.getD included).map (fromDirectory p.parent)
    excluded := (l.excluded.getD defaultExcluded).map (fromDirectory p.parent)
    files := (l.files.getD []).map (fromDirectory p.parent)
    outDir := l.outDir }

/-- Loads the configuration that a text names, read from the working directory `cwd`. -/
def load (fs : FileSystem) (cwd : Path) (s : String) : Journaled Fault Config := do
  let p ← .ofExcept (locate cwd s)
  let layer ← readChain fs (fs.entries.length + 2) [] p
  .ofExcept (ofLayer p layer)

end Codemod.Config
