import Codemod.Json.Value
import Codemod.Text.Quoted

/-!
# Values in messages

A message shows a value by its literal: texts between quotes, lists and objects with their parts. A
text that is shown by itself stands without quotes.

Main statements:

* `Value.shown_text` says that a text is shown as it is.
-/

namespace Codemod.Json

namespace Value

/-- Pieces with a comma and a blank between them. -/
def joined (pieces : List String) : String :=
  ", ".intercalate pieces

mutual

/-- The literal of a value, its texts being quoted by the given function. -/
def literalWith (quote : String → String) : Value → String
  | .null => "None"
  | .bool true => "True"
  | .bool false => "False"
  | .int i => toString i
  | .real x => x.text
  | .text s => quote s
  | .list vs => "[" ++ joined (literalItems quote vs) ++ "]"
  | .object ms => "\x7b" ++ joined (literalMembers quote ms) ++ "\x7d"

/-- The literals of the items of a list. -/
def literalItems (quote : String → String) : List Value → List String
  | [] => []
  | v :: vs => literalWith quote v :: literalItems quote vs

/-- The literals of the members of an object. -/
def literalMembers (quote : String → String) : List (String × Value) → List String
  | [] => []
  | m :: ms => (quote m.1 ++ ": " ++ literalWith quote m.2) :: literalMembers quote ms

end

/-- The literal of a value. -/
def literal (v : Value) : String :=
  literalWith Text.quoted v

/-- The literal of a value in ASCII. -/
def literalAscii (v : Value) : String :=
  literalWith Text.quotedAscii v

/-- A value as a message shows it. -/
def shown : Value → String
  | .text s => s
  | v => v.literal

/-- A text is shown as it is. -/
@[simp] theorem shown_text (s : String) : (Value.text s).shown = s := rfl

end Value
end Codemod.Json
