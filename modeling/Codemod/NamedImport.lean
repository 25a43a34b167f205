import Codemod.SourceFile.Exports
import Codemod.SourceFile.Modules

/-!
# From default imports to named ones

When a module's default export got a name, the default imports of that module become imports of the
name, and every other mention of the local name is replaced. Scopes are not looked at: a binding inside
the file that hides the local name is renamed together with it.

Main statements:

* `Syntax.Tree.root_mem_occurrences` says that every node occurs in its tree;
* `NamedImport.edits_nil_of_clause` says that an import that binds nothing is refused.
-/

namespace Codemod

open Syntax

namespace Syntax.Tree

mutual

/-- A node and all nodes below it in the order of the source, each with the nodes that hold it, the
nearest first. -/
def occurrences (above : List Tree) : Tree → List (Tree × List Tree)
  | .node k r s e cs =>
    (.node k r s e cs, above) :: occurrencesIn (.node k r s e cs :: above) cs

/-- The nodes of a list and all nodes below them. -/
def occurrencesIn (above : List Tree) : List Tree → List (Tree × List Tree)
  | [] => []
  | t :: rest => occurrences above t ++ occurrencesIn above rest

end

/-- Every node occurs in its tree. -/
theorem root_mem_occurrences (above : List Tree) (t : Tree) : (t, above) ∈ t.occurrences above := by
  cases t
  simp [occurrences]

end Syntax.Tree

namespace NamedImport

/-- Whether a node is a name that can refer to something bound in the file. -/
def isName (t : Tree) : Bool :=
  t.is .identifier || t.is .typeIdentifier || t.is .shorthandProperty

/-- Whether the specifier that is held by the given nodes belongs to a re-export. -/
def isReexport : List Tree → Bool
  | _clause :: statement :: _ => (statement.child? .source).isSome
  | _ => false

/-- The text that replaces a mention of `old`, if it is replaced. A property that is written by its
value's name alone keeps its own name, and so does what an export clause exports. -/
def replacement? (old new : String) (t : Tree) (above : List Tree) : Option String :=
  if t.is .shorthandProperty then some s!"{old}: {new}"
  else match above with
    | [] => some new
    | holder :: rest =>
      if holder.is .exportSpecifier then
        if isReexport rest then none
        else if (holder.child? .alias).isNone then some s!"{new} as {old}"
        else if t.role = some .name then some new
        else none
      else some new

/-- Edits that replace every mention of `old` outside the imports. -/
def referenceEdits (f : SourceFile) (old new : String) : List Edit :=
  let imports := f.imports.map (·.statement)
  let sought := Bytes.ofString old
  (f.tree.occurrences []).filterMap fun o =>
    if isName o.1 && o.1.text f.text = sought && !imports.any (·.encloses o.1) then
      (replacement? old new o.1 o.2).map (SourceFile.replaceEdit o.1)
    else none

/-- Edits that turn an import into one of named imports, `name` among them. A namespace import goes
into a statement of its own, since one clause cannot hold both. -/
def importEdits (f : SourceFile) (r : ModuleReference) (name : String) : Except Fault (List Edit) :=
  match r.clause? with
  | none => .error .missingClause
  | some clause => do
    let kept ← r.specifiers.mapM f.textOf
    let plain ← r.unaliasedNames f
    let all := if plain.contains name then kept else kept ++ [name]
    let named := "\x7b " ++ ", ".intercalate all ++ " \x7d"
    match r.namespace? with
    | none => return [SourceFile.replaceEdit clause named]
    | some ns =>
      let head ← f.decode r.statement.start clause.start
      let tail ← f.decode clause.stop r.statement.stop
      let whole ← f.textOf ns
      return [SourceFile.replaceEdit r.statement (head ++ whole ++ tail ++ "\n" ++ head ++ named ++ tail)]

/-- An import that binds nothing is refused. -/
theorem edits_nil_of_clause {f : SourceFile} {r : ModuleReference} {name : String}
    (h : r.clause? = none) : importEdits f r name = .error .missingClause := by
  simp [importEdits, h]

/-- The file of the project that a specifier in some file means, if it means one. -/
abbrev Resolver := String → Except Fault (Option Path)

/-- The edits for one import: none when it binds no default or when its module's default export got no
name. `names` holds the names that default exports got. -/
def importPlan (f : SourceFile) (resolve : Resolver) (names : Keyed Path String) (r : ModuleReference) :
    Journaled Fault (Option (List Edit)) := do
  let spec ← .ofExcept (r.specifier f)
  match ← .ofExcept (resolve spec) with
  | none =>
    .note .debug s!"{f.path.toString}: unresolved import {Text.quoted spec}"
    return none
  | some target =>
    match names.get? target, r.defaultName? with
    | some name, some bound =>
      let binding ← .ofExcept (f.textOf bound)
      let mentions := if binding = name then [] else referenceEdits f binding name
      let clause ← .ofExcept (importEdits f r name)
      .note .debug (s!"{f.path.toString}: import {binding} from {Text.quoted spec} -> " ++
        "\x7b " ++ name ++ " \x7d")
      return some (mentions ++ clause)
    | _, _ => return none

/-- The edits for all imports of a list, one entry for each that changes. -/
def plansOf (f : SourceFile) (resolve : Resolver) (names : Keyed Path String) :
    List ModuleReference → Journaled Fault (List (List Edit))
  | [] => pure []
  | r :: rest => do
    let first ← importPlan f resolve names r
    return first.toList ++ (← plansOf f resolve names rest)

/-- What has to be done to a file, for each import that changes. -/
def plan (f : SourceFile) (resolve : Resolver) (names : Keyed Path String) :
    Journaled Fault (List (List Edit)) :=
  plansOf f resolve names f.imports

end NamedImport
end Codemod
