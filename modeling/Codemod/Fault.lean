import Codemod.FileSystem
import Codemod.Text.Utf8

/-!
# Faults of the work on files

Why the work on a source file cannot be done. A fault belongs to one file: it ends the work on that file
and on no other.
-/

namespace Codemod

/-- Why the work on a file ended. -/
inductive Fault where
  /-- A text that has to be read is not UTF-8. -/
  | undecodable (f : Utf8.Fault)
  /-- No dialect goes with the extension of the file. -/
  | unsupportedExtension (ext : String)
  /-- Two edits overlap, or an edit ends behind the text. -/
  | overlappingEdits (p : Path) (start : Nat)
  /-- The default-exported name is declared nowhere at the top level. -/
  | definitionNotFound (p : Path) (name : String)
  | multipleDefaultExports (p : Path) (count : Nat)
  /-- The name that the path suggests for a default export cannot be bound. -/
  | invalidExportName (p : Path) (name : String)
  /-- A default-exported declaration declares no name. -/
  | unnamedDeclaration (p : Path)
  /-- No segment of the path of a target is the root marker. -/
  | rootMarkerNotFound (p : Path) (marker : String)
  /-- A path without a last segment cannot be given another one. -/
  | unnamedPath (p : Path)
  /-- A text cannot be the last segment of a path. -/
  | invalidName (name : String)
  /-- The target of an exact alias is no text but a value of the given type. -/
  | aliasTarget (typeName : String)
  /-- The target of an alias with a wildcard is no text but a value of the given type. -/
  | wildcardAliasTarget (typeName : String)
  /-- An import that binds nothing has no clause to change. -/
  | missingClause
  | io (f : IoFault)
  deriving DecidableEq, Repr

/-- The wording of a fault. -/
def Fault.message : Fault → String
  | .undecodable f => f.message
  | .unsupportedExtension ext => s!"Unsupported file extension: {ext}"
  | .overlappingEdits p start => s!"Overlapping edits in {p.toString} at byte {start}"
  | .definitionNotFound p name =>
    s!"Couldn't find definition of exported object '{name}' in {p.toString}"
  | .multipleDefaultExports p count => s!"{p.toString} has {count} default exports, expected at most one"
  | .invalidExportName p name =>
    s!"Cannot derive an export name for {p.toString}: '{name}' is not a valid identifier"
  | .unnamedDeclaration p => s!"Default-exported declaration has no name in {p.toString}"
  | .rootMarkerNotFound p marker => s!"Root marker '{marker}' not found in resolved path {p.toString}"
  | .unnamedPath p => s!"PosixPath({Text.quoted p.toString}) has an empty name"
  | .invalidName name => s!"Invalid name {Text.quoted name}"
  | .aliasTarget t => s!"unsupported operand type(s) for /: 'PosixPath' and '{t}'"
  | .wildcardAliasTarget t => s!"'{t}' object has no attribute 'replace'"
  | .missingClause => ""
  | .io f => f.message

end Codemod
