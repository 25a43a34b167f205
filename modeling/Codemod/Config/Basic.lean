import Codemod.Dialect
import Codemod.Glob
import Codemod.Json.Value

/-!
# Project configurations

A configuration says which files belong to a project and how module specifiers are resolved. It is
put together from layers, one for each configuration file of an `extends` chain; what a layer
declares hides what the layers under it declare.

Main statements:

* `Layer.onto_assoc` says that layers can be united in any grouping;
* `Layer.onto_empty` and `Layer.empty_onto` say that an empty layer changes nothing.
-/

namespace Codemod

/-- A project configuration. -/
structure Config where
  /-- The configuration file that was asked for. -/
  path : Path
  /-- The directory against which bare specifiers are tried. -/
  baseUrl : Option Path
  /-- Specifier patterns with the targets that they stand for. -/
  aliases : Keyed String (List Json.Value)
  /-- The directory that alias targets are relative to. -/
  aliasBase : Option Path
  allowJs : Bool
  /-- Patterns of the files that belong to the project. -/
  included : List String
  /-- Patterns of the files that do not. -/
  excluded : List String
  /-- Files that belong to the project whatever the patterns say. -/
  files : List String
  /-- The directory that output goes to; nothing in it belongs to the project. -/
  outDir : Option Path

namespace Config

/-- The patterns of a configuration that includes nothing by name. -/
def defaultIncluded : List String := ["**/*"]

/-- The patterns of a configuration that excludes nothing by name. -/
def defaultExcluded : List String := ["node_modules", "bower_components", "jspm_packages"]

/-- The directory of the configuration, which is the root of the project. -/
def root (c : Config) : Path :=
  c.path.parent

/-- The extensions of the files that belong to the project. -/
def extensions (c : Config) : List String :=
  if c.allowJs then Dialect.typescriptExtensions ++ Dialect.javascriptExtensions
  else Dialect.typescriptExtensions

/-- The exclusion patterns, the output directory counting as one when it lies in the project. -/
def effectiveExcluded (c : Config) : List String :=
  match c.outDir.bind (c.root.below? ·) with
  | some ss => c.excluded ++ [Path.relativeText ss]
  | none => c.excluded

/-- What one configuration file declares. Paths are anchored at the directory of that file. -/
structure Layer where
  baseUrl : Option Path
  outDir : Option Path
  aliases : Option Json.Value
  aliasBase : Option Json.Value
  allowJs : Option Json.Value
  included : Option (List String)
  excluded : Option (List String)
  files : Option (List String)

namespace Layer

/-- The layer that declares nothing. -/
def empty : Layer := ⟨none, none, none, none, none, none, none, none⟩

/-- One layer laid over another: what it declares hides what the other declares. -/
def onto (top base : Layer) : Layer where
  baseUrl := top.baseUrl.or base.baseUrl
  outDir := top.outDir.or base.outDir
  aliases := top.aliases.or base.aliases
  aliasBase := top.aliasBase.or base.aliasBase
  allowJs := top.allowJs.or base.allowJs
  included := top.included.or base.included
  excluded := top.excluded.or base.excluded
  files := top.files.or base.files

/-- Layers can be united in any grouping. -/
theorem onto_assoc (a b c : Layer) : (a.onto b).onto c = a.onto (b.onto c) := by
  simp [onto, Option.or_assoc]

/-- An empty layer over another changes nothing. -/
@[simp] theorem empty_onto (a : Layer) : empty.onto a = a := by
  simp [onto, empty]

/-- An empty layer under another changes nothing. -/
@[simp] theorem onto_empty (a : Layer) : a.onto empty = a := by
  simp [onto, empty]

end Layer
end Config
end Codemod
