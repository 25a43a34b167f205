import Codemod.RootedSpecifier
import Codemod.SourceFile.Exports
import Codemod.SourceFile.Modules

/-!
# From relative specifiers to rooted ones

Every specifier that starts from the directory of its file and means a file of the project is written
from the source root instead, in the quotes in which it stands.

Main statements:

* `RootedImport.referencePlan_of_not_relative` says that other specifiers are left as they are.
-/

namespace Codemod

open Syntax

namespace RootedImport

/-- The edit for one reference, if it changes. -/
def referencePlan (f : SourceFile) (resolve : String → Except Fault (Option Path)) (marker : String)
    (root : Path) (r : ModuleReference) : Journaled Fault (Option Edit) := do
  let spec ← .ofExcept (r.specifier f)
  if Resolution.isRelative spec then
    match ← .ofExcept (resolve spec) with
    | none =>
      .note .debug s!"{f.path.toString}: unresolved import {Text.quoted spec}"
      return none
    | some target =>
      let rooted ← .ofExcept (rootedSpecifier target marker root)
      .note .info s!"{f.path.toString}: {spec} -> {rooted}"
      let quote ← .ofExcept (r.quote f)
      return some (SourceFile.replaceEdit r.source (quote ++ rooted ++ quote))
  else return none

/-- A specifier that is not relative is left as it is. -/
theorem referencePlan_of_not_relative {f : SourceFile} {resolve : String → Except Fault (Option Path)}
    {marker spec : String} {root : Path} {r : ModuleReference} {j : Journal}
    (hs : r.specifier f = .ok spec) (h : Resolution.isRelative spec = false) :
    referencePlan f resolve marker root r j = (.ok none, j) := by
  unfold referencePlan
  rw [hs]
  refine (Journaled.bind_ok (show Journaled.ofExcept (.ok spec) j = (.ok spec, j) from rfl)).trans ?_
  simp only [h]
  rfl

/-- The edits for all references of a list. -/
def plansOf (f : SourceFile) (resolve : String → Except Fault (Option Path)) (marker : String)
    (root : Path) : List ModuleReference → Journaled Fault (List Edit)
  | [] => pure []
  | r :: rest => do
    let first ← referencePlan f resolve marker root r
    return first.toList ++ (← plansOf f resolve marker root rest)

/-- What has to be done to a file. -/
def plan (f : SourceFile) (resolve : String → Except Fault (Option Path)) (marker : String)
    (root : Path) : Journaled Fault (List Edit) :=
  plansOf f resolve marker root f.references

end RootedImport
end Codemod
