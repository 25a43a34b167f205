import Codemod.Json.Value
import Codemod.Text.Quoted

/-!
# Writing JSON

Values are written on one line with a blank after each comma and colon. Everything beyond ASCII is
escaped, characters beyond the basic plane as two units.

Main statements:

* `visible_of_mem_printString` says that a written string holds only visible ASCII characters, so
  that it never breaks a line.
-/

namespace Codemod.Json

/-- The escape of a UTF-16 unit. -/
def unitEscape (n : Nat) : List Char :=
  '\\' :: 'u' :: Text.hexDigits 4 n

/-- The letter that stands for a character after a backslash. -/
def shortEscape? : Char → Option Char
  | '"' => some '"'
  | '\\' => some '\\'
  | '\n' => some 'n'
  | '\r' => some 'r'
  | '\t' => some 't'
  | '\x0c' => some 'f'
  | '\x08' => some 'b'
  | _ => none

/-- One character of a written string. -/
def printChar (c : Char) : List Char :=
  match shortEscape? c with
  | some e => ['\\', e]
  | none =>
    if Text.isVisible c then [c]
    else if c.toNat < 0x10000 then unitEscape c.toNat
    else
      let n := c.toNat - 0x10000
      unitEscape (0xD800 + n / 0x400) ++ unitEscape (0xDC00 + n % 0x400)

/-- A written string, quotes included. -/
def printString (s : String) : List Char :=
  '"' :: s.toList.flatMap printChar ++ ['"']

theorem visible_of_shortEscape? {c e : Char} (h : shortEscape? c = some e) :
    Text.isVisible e = true := by
  unfold shortEscape? at h
  split at h <;> first | (obtain rfl := Option.some.inj h; decide) | cases h

theorem visible_of_mem_unitEscape {n : Nat} {d : Char} (h : d ∈ unitEscape n) :
    Text.isVisible d = true := by
  rcases List.mem_cons.mp h with rfl | h
  · decide
  rcases List.mem_cons.mp h with rfl | h
  · decide
  exact Text.visible_of_mem_hexDigits h

theorem visible_of_mem_printChar {c d : Char} (h : d ∈ printChar c) : Text.isVisible d = true := by
  unfold printChar at h
  split at h
  case h_1 e he =>
    rcases List.mem_cons.mp h with rfl | h
    · decide
    · rw [List.mem_singleton.mp h]
      exact visible_of_shortEscape? he
  case h_2 =>
    split at h
    case isTrue hv => rwa [List.mem_singleton.mp h]
    case isFalse =>
      split at h
      · exact visible_of_mem_unitEscape h
      · rcases List.mem_append.mp h with h | h <;> exact visible_of_mem_unitEscape h

/-- A written string holds only visible ASCII characters. -/
theorem visible_of_mem_printString {s : String} {c : Char} (h : c ∈ printString s) :
    Text.isVisible c = true := by
  rcases List.mem_cons.mp h with rfl | h
  · decide
  rcases List.mem_append.mp h with h | h
  · obtain ⟨d, _, hd⟩ := List.mem_flatMap.mp h
    exact visible_of_mem_printChar hd
  · rw [List.mem_singleton.mp h]
    decide

/-- Pieces with a comma and a blank between them. -/
def commaSeparated : List (List Char) → List Char
  | [] => []
  | [p] => p
  | p :: ps => p ++ ',' :: ' ' :: commaSeparated ps

mutual

/-- A written value. -/
def printChars : Value → List Char
  | .null => "null".toList
  | .bool true => "true".toList
  | .bool false => "false".toList
  | .int i => (toString i).toList
  | .real x => (x.textWith "Infinity" "NaN").toList
  | .text s => printString s
  | .list vs => '[' :: commaSeparated (printItems vs) ++ [']']
  | .object ms => '\x7b' :: commaSeparated (printMembers ms) ++ ['\x7d']

/-- The written items of a list. -/
def printItems : List Value → List (List Char)
  | [] => []
  | v :: vs => printChars v :: printItems vs

/-- The written members of an object. -/
def printMembers : List (String × Value) → List (List Char)
  | [] => []
  | m :: ms => (printString m.1 ++ ':' :: ' ' :: printChars m.2) :: printMembers ms

end

/-- A value as one line of JSON. -/
def print (v : Value) : String :=
  String.ofList (printChars v)

end Codemod.Json
