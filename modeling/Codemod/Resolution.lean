import Codemod.Config.Basic
import Codemod.Fault

/-!
# Resolving module specifiers

A specifier, seen from an importing file, stands for a list of candidate files that depends on the
configuration alone; it is resolved to the first candidate that belongs to the project. Some
candidates cannot be formed; reaching one of them is a fault.

Main statements:

* `firstKnown_mem` says that a resolved file is a candidate and belongs to the project;
* `resolve_mem` says that a specifier is only ever resolved to a file of the project.
-/

namespace Codemod.Resolution

/-- A specifier that starts from the directory of the importing file. -/
def isRelative (s : String) : Bool :=
  Text.hasPrefix "./" s || Text.hasPrefix "../" s

/-- The extensions that may be left out, in the order in which they are tried. -/
def extensions (c : Config) : List String :=
  [".ts", ".tsx", ".d.ts", ".mts", ".cts"] ++
    if c.allowJs then [".js", ".jsx", ".mjs", ".cjs"] else []

/-- The extensions of emitted files, with those of the sources that they may be emitted from. -/
def emitted : List (String × List String) :=
  [(".js", [".ts", ".tsx"]), (".jsx", [".tsx"]), (".mjs", [".mts"]), (".cjs", [".cts"])]

/-- The base name of the file that stands for its directory. -/
def indexName : String := "index"

/-- A candidate, or the reason why it cannot be formed. -/
abbrev Candidate := Except Fault Path

/-- The same place with another last segment. -/
def renamed (p : Path) (name : String) : Candidate :=
  if p.name = "" then .error (.unnamedPath p)
  else if name = "" || name = "." then .error (.invalidName name)
  else .ok (p.replaceName name)

/-- The sources that an emitted file may come from. -/
def sourceCandidates (p : Path) : List Candidate :=
  emitted.flatMap fun e =>
    match Text.dropSuffix? e.1 p.name with
    | none => []
    | some name =>
      match renamed p name with
      | .error f => [.error f]
      | .ok stem => e.2.map fun ext => renamed stem (stem.name ++ ext)

/-- The candidates of one place: the file itself if it has the extension of a source, the sources
that it may be emitted from, the file with an extension added, and the files that stand for the
directory. -/
def placeCandidates (exts : List String) (p : Path) : List Candidate :=
  (if exts.contains p.extension then [.ok p] else []) ++
    sourceCandidates p ++
    exts.map (fun ext => renamed p (p.name ++ ext)) ++
    exts.map fun ext => .ok (p.child (indexName ++ ext))

/-- A pattern split at its first wildcard. -/
def splitWildcard (pattern : List Char) : List Char × List Char :=
  (pattern.takeWhile (· != '*'), (pattern.dropWhile (· != '*')).drop 1)

/-- The part of a specifier that a wildcard stands for, when the specifier starts with `pre`, ends
with `post` and is long enough for both. -/
def captured? (pre post spec : List Char) : Option (List Char) :=
  if pre.isPrefixOf spec && post.isSuffixOf spec && pre.length + post.length ≤ spec.length then
    some ((spec.take (spec.length - post.length)).drop pre.length)
  else none

/-- A target with what the wildcard stands for put in the place of each wildcard. -/
def fillTarget (target captured : List Char) : List Char :=
  target.flatMap fun c => if c == '*' then captured else [c]

/-- The place that an alias target means, read from the base directory. -/
def targetPlace (base : Path) (captured : Option (List Char)) : Json.Value → Candidate
  | .text t =>
    match captured with
    | some cs => .ok (base.joinText (String.ofList (fillTarget t.toList cs)))
    | none => .ok (base.joinText t)
  | v =>
    match captured with
    | some _ => .error (.wildcardAliasTarget v.typeName)
    | none => .error (.aliasTarget v.typeName)

/-- What matching an alias against a specifier gives: the length of what precedes the wildcard, and
what the wildcard stands for. -/
def aliasMatch? (pattern spec : List Char) : Option (Nat × Option (List Char)) :=
  if pattern.contains '*' then
    let (pre, post) := splitWildcard pattern
    (captured? pre post spec).map fun cs => (pre.length, some cs)
  else if pattern = spec then some (pattern.length, none)
  else none

/-- Inserts an item into a list that is sorted by descending rank, behind the items of its rank. -/
def insertByRank {α : Type} (x : Nat × α) : List (Nat × α) → List (Nat × α)
  | [] => [x]
  | y :: rest => if y.1 < x.1 then x :: y :: rest else y :: insertByRank x rest

/-- Items by descending rank, those of one rank in their given order. -/
def byRank {α : Type} (l : List (Nat × α)) : List (Nat × α) :=
  l.foldl (fun acc x => insertByRank x acc) []

/-- The places that the matching aliases mean, the longest beginning first. -/
def aliasPlaces (c : Config) (spec : String) : Except Fault (List Path) := do
  let base := c.aliasBase.getD c.root
  let found ← c.aliases.filterMapM fun a =>
    match aliasMatch? a.1.toList spec.toList with
    | none => pure none
    | some (rank, captured) => do
      let places ← a.2.mapM (targetPlace base captured)
      return some (rank, places)
  return (byRank found).flatMap (·.2)

/-- The places that a specifier may mean, in the order in which they are tried. -/
def places (c : Config) (importer : Path) (spec : String) : Except Fault (List Path) :=
  if isRelative spec || spec = "." || spec = ".." then .ok [importer.parent.joinText spec]
  else if Text.hasPrefix "/" spec then .ok [Path.ofString spec]
  else do
    let aliased ← aliasPlaces c spec
    return aliased ++ (c.baseUrl.map (·.joinText spec)).toList

/-- The candidates of a specifier, in the order in which they are tried. -/
def candidates (c : Config) (importer : Path) (spec : String) : Except Fault (List Candidate) := do
  let ps ← places c importer spec
  return ps.flatMap fun p => placeCandidates (extensions c) p.normalize

/-- The first candidate that belongs to the project. -/
def firstKnown (known : Path → Bool) : List Candidate → Except Fault (Option Path)
  | [] => .ok none
  | .error f :: _ => .error f
  | .ok p :: rest => if known p then .ok (some p) else firstKnown known rest

/-- The file of the project that a specifier means, if it means one. -/
def resolve (c : Config) (known : Path → Bool) (importer : Path) (spec : String) :
    Except Fault (Option Path) := do
  firstKnown known (← candidates c importer spec)

/-- A resolved file is a candidate and belongs to the project. -/
theorem firstKnown_mem {known : Path → Bool} {l : List Candidate} {p : Path}
    (h : firstKnown known l = .ok (some p)) : .ok p ∈ l ∧ known p = true := by
  induction l with
  | nil => simp [firstKnown] at h
  | cons x rest ih =>
    cases x with
    | error f => simp [firstKnown] at h
    | ok q =>
      unfold firstKnown at h
      split at h
      case isTrue hq =>
        cases h
        exact ⟨by simp, hq⟩
      case isFalse =>
        exact ⟨List.mem_cons_of_mem _ (ih h).1, (ih h).2⟩

/-- A specifier is only ever resolved to a file of the project. -/
theorem resolve_mem {c : Config} {known : Path → Bool} {importer p : Path} {spec : String}
    (h : resolve c known importer spec = .ok (some p)) : known p = true := by
  unfold resolve at h
  cases hc : candidates c importer spec with
  | error f => simp [hc, bind, Except.bind] at h
  | ok l =>
    simp only [hc, bind, Except.bind] at h
    exact (firstKnown_mem h).2

end Codemod.Resolution
