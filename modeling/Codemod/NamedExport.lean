import Codemod.Identifier
import Codemod.Resolution
import Codemod.SourceFile.Exports

/-!
# From default exports to named ones

A default export becomes an export with a name. An exported name keeps its declaration, which is
exported instead; an exported declaration loses the word that makes it the default; an exported value
is bound to the name that the path of its file suggests.

Main statements:

* `NamedExport.edits_expression_name` says that the name that is bound to a value can be bound;
* `NamedExport.plan_of_many` says that a file with several default exports is refused.
-/

namespace Codemod

open Syntax

/-- The name that a path suggests: that of the file, or of its directory when the file stands for
it. -/
def Path.suggestedName (p : Path) : String :=
  if p.stem = Resolution.indexName then p.parent.name else p.stem

namespace NamedExport

/-- The end of a run of spaces and tabs. -/
def skipSpaces (text : Bytes) (offset : Nat) : Nat :=
  offset + ((text.drop offset).takeWhile fun b => b == 32 || b == 9).length

/-- Exports the declarations of a name and removes the default export of it. -/
def identifierEdits (f : SourceFile) (d : DefaultExport) : Except Fault (String × List Edit) := do
  let name ← f.textOf d.target
  let definitions ← f.findDeclarations name
  if definitions.isEmpty then .error (.definitionNotFound f.path name)
  else
    let exported ← (definitions.filter fun t => !t.is .exportStatement).mapM fun t => do
      f.replaceStatement t ("export " ++ (← f.textOf t)) true
    return (name, exported ++ [f.removeStatement d.statement])

/-- Takes the word away that makes a declaration the default export, with the blanks behind it. -/
def declarationEdits (f : SourceFile) (d : DefaultExport) : Except Fault (String × List Edit) :=
  match d.target.child? .name with
  | none => .error (.unnamedDeclaration f.path)
  | some n => do
    let name ← f.textOf n
    return (name, (d.statement.childOfKind? .defaultWord).toList.map fun word =>
      ⟨word.start, skipSpaces f.text word.stop, ""⟩)

/-- Binds an exported value to the suggested name. -/
def expressionEdits (f : SourceFile) (d : DefaultExport) : Except Fault (String × List Edit) :=
  let name := f.path.suggestedName
  if isIdentifier name then do
    let value ← f.textOf d.target
    let mark := if d.statement.children.getLast?.any (·.is .semicolon) then ";" else ""
    let edit ← f.replaceStatement d.statement s!"export const {name} = {value}{mark}" true
    return (name, [edit])
  else .error (.invalidExportName f.path name)

/-- The name under which a default export is exported from now on, and the edits that do so. -/
def edits (f : SourceFile) (d : DefaultExport) : Except Fault (String × List Edit) :=
  match d.form with
  | .identifier => identifierEdits f d
  | .declaration => declarationEdits f d
  | .expression => expressionEdits f d

/-- The name that is bound to a value can be bound. -/
theorem edits_expression_name {f : SourceFile} {d : DefaultExport} {r : String × List Edit}
    (hd : d.form = .expression) (h : edits f d = .ok r) : isIdentifier r.1 = true := by
  simp only [edits, hd, expressionEdits] at h
  split at h
  case isFalse => cases h
  case isTrue hn =>
    cases hv : f.textOf d.target with
    | error e => simp [hv, bind, Except.bind] at h
    | ok value =>
      simp only [hv, bind, Except.bind] at h
      split at h
      case h_1 => cases h
      case h_2 => cases h; exact hn

/-- What has to be done to a file: nothing when it has no default export. -/
def plan (f : SourceFile) : Journaled Fault (Option (String × List Edit)) := do
  match ← f.defaultExports with
  | [] => return none
  | [d] => some <$> .ofExcept (edits f d)
  | ds => .fail (.multipleDefaultExports f.path ds.length)

/-- A file with several default exports is refused. -/
theorem plan_of_many {f : SourceFile} {j j' : Journal} {a b : DefaultExport} {rest : List DefaultExport}
    (h : f.defaultExports j = (.ok (a :: b :: rest), j')) :
    plan f j = (.error (.multipleDefaultExports f.path (rest.length + 2)), j') := by
  unfold plan
  rw [Journaled.bind_ok h]
  rfl

end NamedExport
end Codemod
