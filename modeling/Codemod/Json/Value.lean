import Codemod.Decimal.Binary64
import Codemod.Keyed

/-!
# JSON values

The members of an object are a keyed list: they keep the order in which the keys were first written,
and a key that is written again keeps its place and takes the new value. Beside the values stand the
questions that a reader of a configuration asks of a value of unknown shape: whether it counts as
set, and what its items are.
-/

namespace Codemod.Json

/-- A JSON value. Whole numbers are exact, numbers with a fraction or an exponent are rounded. -/
inductive Value where
  | null
  | bool (b : Bool)
  | int (i : Int)
  | real (x : Decimal.Binary64)
  | text (s : String)
  | list (vs : List Value)
  | object (ms : List (String × Value))
  deriving Inhabited

/-- The members of an object. -/
abbrev Members := Keyed String Value

namespace Members

/-- Members with repeated keys united. -/
def ofList (ms : List (String × Value)) : Members :=
  Keyed.merge [] ms

end Members

namespace Value

/-- The word for the type of a value in messages about a value of the wrong type. -/
def typeName : Value → String
  | .null => "NoneType"
  | .bool _ => "bool"
  | .int _ => "int"
  | .real _ => "float"
  | .text _ => "str"
  | .list _ => "list"
  | .object _ => "dict"

/-- Whether a value counts as set: not null, false, zero or empty. -/
def isSet : Value → Bool
  | .null => false
  | .bool b => b
  | .int i => i != 0
  | .real x => !x.isZero
  | .text s => s != ""
  | .list vs => !vs.isEmpty
  | .object ms => !ms.isEmpty

/-- The items of a value read as a sequence: the characters of a text, the items of a list, the keys
of an object. Other values are no sequences. -/
def items? : Value → Option (List Value)
  | .text s => some (s.toList.map fun c => .text (String.ofList [c]))
  | .list vs => some vs
  | .object ms => some (ms.map fun m => .text m.1)
  | _ => none

end Value
end Codemod.Json
