import Codemod.Config.Basic
import Codemod.Config.Fault

/-!
# Reading one configuration file

`Layer.ofMembers` takes what a configuration file declares from its JSON members and anchors every
path and pattern at the directory of the file. Values are read as widely as sequences and objects
can be read: the items of a text are its characters, the items of an object its keys, and options
may be given as a list of pairs.

Main statements:

* `options_object` says that options given as an object are taken as they are;
* `anchorPattern_of_absolute` says that an absolute pattern needs no anchor.
-/

namespace Codemod.Config

/-- A key and a value from one item of options that are given as a list. Keys that are no texts are
allowed and never asked for. -/
def optionPair : Json.Value → Except Fault (Option (String × Json.Value))
  | v =>
    match v.items? with
    | none => .error (.wrongShape .text)
    | some [k, w] =>
      match k with
      | .text s => .ok (some (s, w))
      | .list _ | .object _ => .error (.wrongShape .key)
      | _ => .ok none
    | some _ => .error (.wrongShape .pair)

/-- The members of options that are given as a list of pairs, later ones hiding earlier ones. -/
def optionsOfPairs (seen : Json.Members) : List Json.Value → Except Fault Json.Members
  | [] => .ok seen
  | v :: vs => do
    match ← optionPair v with
    | some (k, w) => optionsOfPairs (Keyed.set seen k w) vs
    | none => optionsOfPairs seen vs

/-- The options of a configuration. -/
def options : Option Json.Value → Except Fault Json.Members
  | none => .ok []
  | some (.object ms) => .ok ms
  | some v =>
    match v.items? with
    | some vs => optionsOfPairs [] vs
    | none => .error (.wrongShape .sequence)

/-- Options given as an object are taken as they are. -/
theorem options_object (ms : Json.Members) : options (some (.object ms)) = .ok ms := rfl

/-- The location that a text names when it is read from a directory. -/
def locate (dir : Path) (s : String) : Except Fault Path :=
  let p := Path.ofString s
  if p.segments.any fun seg => seg.toList.contains '\x00' then .error .nullCharacter
  else .ok (dir.absolute p)

/-- The location that an option names, if the option is there. -/
def locateOption (dir : Path) (ms : Json.Members) (key : String) : Except Fault (Option Path) :=
  match Keyed.get? ms key with
  | none => .ok none
  | some (.text s) => some <$> locate dir s
  | some _ => .error (.wrongShape .text)

/-- A pattern written from the root. -/
def anchorPattern (dir : Path) (s : String) : String :=
  if Text.hasPrefix "/" s then s else (dir.joinText s).toString

/-- An absolute pattern needs no anchor. -/
theorem anchorPattern_of_absolute {dir : Path} {s : String} (h : Text.hasPrefix "/" s = true) :
    anchorPattern dir s = s := by
  simp [anchorPattern, h]

/-- The texts among the items of a list. -/
def patternTexts (dir : Path) : List Json.Value → Except Fault (List String)
  | [] => .ok []
  | .text s :: vs => (anchorPattern dir s :: ·) <$> patternTexts dir vs
  | _ :: _ => .error (.wrongShape .text)

/-- The patterns under a key, if the key is there. -/
def patterns (dir : Path) (ms : Json.Members) (key : String) : Except Fault (Option (List String)) :=
  match Keyed.get? ms key with
  | none => .ok none
  | some v =>
    match v.items? with
    | some vs => some <$> patternTexts dir vs
    | none => .error (.wrongShape .sequence)

/-- The layer that the members of a configuration file in directory `dir` declare. The targets of
aliases are relative to the base directory of the same file, or else to the file's directory. -/
def Layer.ofMembers (dir : Path) (ms : Json.Members) : Except Fault Layer := do
  let opts ← options (Keyed.get? ms "compilerOptions")
  let baseUrl ← locateOption dir opts "baseUrl"
  let outDir ← locateOption dir opts "outDir"
  let aliases := Keyed.get? opts "paths"
  let aliasBase :=
    if aliases.isSome then some (.text (baseUrl.getD dir).toString)
    else Keyed.get? opts "__pathsBase"
  let included ← patterns dir ms "include"
  let excluded ← patterns dir ms "exclude"
  let files ← patterns dir ms "files"
  return {
    baseUrl := baseUrl
    outDir := outDir
    aliases := aliases
    aliasBase := aliasBase
    allowJs := Keyed.get? opts "allowJs"
    included := included
    excluded := excluded
    files := files }

/-- The references of a configuration to those it extends. -/
def references (ms : Json.Members) : Except Fault (List Json.Value) :=
  match Keyed.get? ms "extends" with
  | none | some .null => .ok []
  | some (.text s) => .ok [.text s]
  | some v =>
    match v.items? with
    | some vs => .ok vs
    | none => .error (.wrongShape .sequence)

/-- The configuration file that a reference means, seen from a directory; only references that are
written as paths mean one. The extension `.json` may be left out. -/
def referenced (dir : Path) (s : String) : Except Fault (Option Path) :=
  if Text.hasPrefix "./" s || Text.hasPrefix "../" s || Text.hasPrefix "/" s then do
    let p ← locate dir s
    if p.extension = ".json" then return some p
    else if p.name = "" then .error (.unnamedPath p)
    else return some (p.replaceName (p.name ++ ".json"))
  else .ok none

end Codemod.Config
