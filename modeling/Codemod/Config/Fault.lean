import Codemod.FileSystem
import Codemod.Json.Fault
import Codemod.Text.Utf8

/-!
# Faults in configurations

A configuration cannot be loaded because a file of its chain cannot be found, read or understood,
because the chain closes on itself, or because a value in it has a shape that its key cannot have.
-/

namespace Codemod.Config

/-- Why the text of a configuration could not be obtained. -/
inductive ReadFault where
  | io (f : IoFault)
  | encoding (f : Utf8.Fault)
  deriving DecidableEq, Repr

/-- The wording of a read fault. -/
def ReadFault.message : ReadFault → String
  | .io f => f.message
  | .encoding f => f.message

/-- Which shape a value of a configuration should have had. -/
inductive Shape where
  /-- A sequence, as every list-valued key needs. -/
  | sequence
  /-- Key and value, as each item of options that are given as a list. -/
  | pair
  /-- A scalar, as each key of options that are given as a list. -/
  | key
  /-- A text, as every path and pattern. -/
  | text
  /-- An object, as the aliases. -/
  | members
  /-- A text that names a configuration to extend. -/
  | reference
  deriving DecidableEq, Repr

/-- Why a configuration could not be loaded. -/
inductive Fault where
  /-- A configuration extends itself, possibly through others. -/
  | circular (p : Path)
  | notFound (p : Path)
  | unreadable (p : Path) (f : ReadFault)
  | malformed (p : Path) (cause : Json.Cause) (place : Json.Place)
  | notAnObject (p : Path)
  /-- A value is not of the shape that its key needs. -/
  | wrongShape (expected : Shape)
  /-- A whole number of the text has too many digits. -/
  | tooManyDigits
  /-- A path holds the null character. -/
  | nullCharacter
  /-- A path without a last segment cannot be given another name. -/
  | unnamedPath (p : Path)
  deriving DecidableEq, Repr

/-- The wording of a fault that concerns a whole configuration; the others have none that is
shown. -/
def Fault.message? : Fault → Option String
  | .circular p => some s!"Circular 'extends' in {p.toString}"
  | .notFound p => some s!"tsconfig.json not found: {p.toString}"
  | .unreadable p f => some s!"Cannot read {p.toString}: {f.message}"
  | .malformed p c place => some s!"Invalid JSON in {p.toString}: {(Json.Fault.malformed c place).message}"
  | .notAnObject p => some s!"Expected an object at the top level of {p.toString}"
  | _ => none

/-- Whether a fault is reported as one of the configuration; the others are faults of its values
that were not foreseen. -/
def Fault.isReported (f : Fault) : Bool :=
  f.message?.isSome

end Codemod.Config
