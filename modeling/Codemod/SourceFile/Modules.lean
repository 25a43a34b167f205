import Codemod.SourceFile.Basic

/-!
# References to other modules

Import statements and re-exports name another module by a specifier between quotes.

Main statements:

* `SourceFile.imports_sublist` says that the imports are among the references, in the same order.
-/

namespace Codemod

open Syntax

/-- A statement that refers to another module. -/
structure ModuleReference where
  statement : Tree
  /-- The specifier with its quotes. -/
  source : Tree
  deriving Repr

namespace ModuleReference

/-- Whether the reference is an import. -/
def isImport (r : ModuleReference) : Bool :=
  r.statement.is .importStatement

/-- The specifier. -/
def specifier (r : ModuleReference) (f : SourceFile) : Except Fault String := do
  let s ← f.textOf r.source
  return String.ofList (s.toList.drop 1).dropLast

/-- The quote in which the specifier is written. -/
def quote (r : ModuleReference) (f : SourceFile) : Except Fault String := do
  let s ← f.textOf r.source
  return String.ofList (s.toList.take 1)

/-! ### What an import binds -/

/-- All that an import binds. -/
def clause? (r : ModuleReference) : Option Tree :=
  r.statement.childOfKind? .importClause

/-- The part of a clause that is of a kind. -/
def clausePart? (r : ModuleReference) (k : Kind) : Option Tree :=
  r.clause?.bind (·.childOfKind? k)

/-- The name of the default import. -/
def defaultName? (r : ModuleReference) : Option Tree :=
  r.clausePart? .identifier

/-- The list of named imports. -/
def named? (r : ModuleReference) : Option Tree :=
  r.clausePart? .namedImports

/-- The import of a whole module. -/
def namespace? (r : ModuleReference) : Option Tree :=
  r.clausePart? .namespaceImport

/-- The named imports. -/
def specifiers (r : ModuleReference) : List Tree :=
  match r.named? with
  | some t => t.children.filter (·.is .importSpecifier)
  | none => []

/-- The names of the named imports, as the other module exports them. -/
def importedNames (r : ModuleReference) (f : SourceFile) : Except Fault (List String) :=
  (r.specifiers.filterMap (·.child? .name)).mapM f.textOf

/-- The names of those named imports that keep their names. -/
def unaliasedNames (r : ModuleReference) (f : SourceFile) : Except Fault (List String) :=
  ((r.specifiers.filter fun s => (s.child? .alias).isNone).filterMap (·.child? .name)).mapM f.textOf

end ModuleReference

namespace SourceFile

/-- The reference that a statement makes to another module. -/
def reference? (t : Tree) : Option ModuleReference :=
  if t.is .importStatement || t.is .exportStatement then
    match t.child? .source with
    | some s => if s.is .string then some ⟨t, s⟩ else none
    | none => none
  else none

/-- The statements that refer to other modules, in order. -/
def references (f : SourceFile) : List ModuleReference :=
  f.statements.filterMap reference?

/-- The import statements with a specifier, in order. -/
def imports (f : SourceFile) : List ModuleReference :=
  f.references.filter (·.isImport)

/-- The imports are among the references, in the same order. -/
theorem imports_sublist (f : SourceFile) : f.imports.Sublist f.references :=
  List.filter_sublist

end SourceFile
end Codemod
