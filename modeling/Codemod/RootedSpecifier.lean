import Codemod.Fault
import Codemod.Resolution

/-!
# Specifiers from the source root

A file can be named from the root of the sources: the specifier is the path of the file from the
first segment that is the root marker on, without the extension of a source and without a final
`/index`.

Main statements:

* `rooted_marker` says that such a specifier exists exactly when the marker is a segment;
* `dropFirstSuffix_nil` says that a text that ends with none of the extensions is left as it is.
-/

namespace Codemod

namespace RootedSpecifier

/-- The extensions that are left out, longer ones before those that they end with. -/
def droppedExtensions : List String :=
  [".d.ts", ".tsx", ".ts", ".mts", ".cts", ".jsx", ".js", ".mjs", ".cjs"]

/-- A text without the first of the given ends that it has. -/
def dropFirstSuffix (s : String) : List String → String
  | [] => s
  | e :: rest =>
    match Text.dropSuffix? e s with
    | some r => r
    | none => dropFirstSuffix s rest

/-- A text that ends with none of the given ends is left as it is. -/
theorem dropFirstSuffix_nil {s : String} {ends : List String}
    (h : ∀ e ∈ ends, Text.dropSuffix? e s = none) : dropFirstSuffix s ends = s := by
  induction ends with
  | nil => rfl
  | cons e rest ih => simp [dropFirstSuffix, h e (by simp), ih fun x hx => h x (by simp [hx])]

/-- The parts of a path, the anchor counting as one. -/
def parts (p : Path) : List String :=
  if p.isAbsolute then p.anchor.text :: p.segments else p.segments

/-- The lists of parts in which the marker is looked for: those below the project root first, so
that a directory above the project cannot be taken for the source root. -/
def searched (target : Path) (root : Option Path) : List (List String) :=
  (root.bind (·.below? target)).toList ++ [parts target]

/-- The parts from the marker on. -/
def fromMarker? (marker : String) (ls : List (List String)) : Option (List String) :=
  (ls.find? (·.contains marker)).map (·.dropWhile (· != marker))

/-- The specifier of parts: joined by slashes, without extension and final index. -/
def ofParts (ps : List String) : String :=
  let s := dropFirstSuffix ("/".intercalate ps) droppedExtensions
  (Text.dropSuffix? ("/" ++ Resolution.indexName) s).getD s

end RootedSpecifier

/-- The specifier of a file from the source root. -/
def rootedSpecifier (target : Path) (marker : String) (root : Option Path) : Except Fault String :=
  match RootedSpecifier.fromMarker? marker (RootedSpecifier.searched target root) with
  | some ps => .ok (RootedSpecifier.ofParts ps)
  | none => .error (.rootMarkerNotFound target marker)

/-- A specifier from the source root exists exactly when the marker is one of the parts searched. -/
theorem rooted_marker {target : Path} {marker : String} {root : Option Path} :
    (rootedSpecifier target marker root).toOption.isSome = true ↔
      ∃ ps ∈ RootedSpecifier.searched target root, marker ∈ ps := by
  unfold rootedSpecifier RootedSpecifier.fromMarker?
  cases h : (RootedSpecifier.searched target root).find? (·.contains marker) with
  | none =>
    rw [List.find?_eq_none] at h
    simp only [Option.map_none, Except.toOption, Option.isSome_none, Bool.false_eq_true, false_iff]
    rintro ⟨ps, hps, hm⟩
    exact h ps hps (by simpa using hm)
  | some ps =>
    have hm := List.find?_some h
    have hps := List.mem_of_find?_eq_some h
    simp only [Option.map_some, Except.toOption, Option.isSome_some, true_iff]
    exact ⟨ps, hps, by simpa using hm⟩

end Codemod
