import Codemod.Path

/-!
# Source dialects

The extension of a file decides in which dialect it is read: TypeScript proper, or the dialect with
markup elements, which also reads JavaScript.

Main statements:

* `Dialect.ofExtension?_isSome_iff` lists the extensions of source files.
-/

namespace Codemod

/-- How a source file is read. -/
inductive Dialect where
  /-- TypeScript, where `<T>x` is a type assertion. -/
  | typescript
  /-- TypeScript with markup, where `<T>` opens an element. -/
  | tsx
  deriving DecidableEq, Repr

namespace Dialect

/-- The extensions of TypeScript sources. -/
def typescriptExtensions : List String := [".ts", ".tsx", ".mts", ".cts"]

/-- The extensions of JavaScript sources. -/
def javascriptExtensions : List String := [".js", ".jsx", ".mjs", ".cjs"]

/-- The name of a dialect. -/
def name : Dialect → String
  | .typescript => "typescript"
  | .tsx => "tsx"

/-- The dialect of a name. -/
def ofName? (s : String) : Option Dialect :=
  [typescript, tsx].find? fun d => d.name == s

/-- The dialect that goes with an extension. -/
def ofExtension? (ext : String) : Option Dialect :=
  if [".ts", ".mts", ".cts"].contains ext then some .typescript
  else if [".tsx", ".js", ".jsx", ".mjs", ".cjs"].contains ext then some .tsx
  else none

/-- The dialect of the file at a path. -/
def ofPath? (p : Path) : Option Dialect :=
  ofExtension? p.extension

/-- The extensions that have a dialect are those of TypeScript and of JavaScript sources. -/
theorem ofExtension?_isSome_iff {ext : String} :
    (ofExtension? ext).isSome = true ↔ ext ∈ typescriptExtensions ++ javascriptExtensions := by
  unfold ofExtension? typescriptExtensions javascriptExtensions
  constructor
  · intro h
    split at h
    case isTrue hts => simp at hts; rcases hts with h | h | h <;> simp [h]
    case isFalse =>
      split at h
      case isTrue hjs => simp at hjs; rcases hjs with h | h | h | h | h <;> simp [h]
      case isFalse => simp at h
  · intro h
    simp at h
    rcases h with h | h | h | h | h | h | h | h <;> subst h <;> decide

end Dialect
end Codemod
