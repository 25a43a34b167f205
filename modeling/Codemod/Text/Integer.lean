import Codemod.Text.Printable

/-!
# Reading whole numbers

A whole number is written with an optional sign and decimal digits of any script, single
underscores being allowed between digits and blanks around the whole.

Main statements:

* `readDigits_nil` and `readDigits_underscore_end` say that a digit sequence is not empty and does
  not end in an underscore.
-/

namespace Codemod.Text

/-- A blank that may surround a number: the ASCII blanks and the space separators. -/
def isNumberBlank (c : Char) : Bool :=
  let n := c.toNat
  (9 ≤ n && n ≤ 13) || n == 32 || n == 0x85 || n == 0xA0 || n == 0x1680 ||
    (0x2000 ≤ n && n ≤ 0x200A) || n == 0x2028 || n == 0x2029 || n == 0x202F || n == 0x205F ||
    n == 0x3000

/-- The longest digit sequence that is read. -/
def digitLimit : Nat := 4300

/-- The digits of a number, `afterDigit` telling whether the character before is a digit: an
underscore stands only between two digits. -/
def readDigits (afterDigit : Bool) : List Char → Option (List Nat)
  | [] => if afterDigit then some [] else none
  | c :: rest =>
    if c == '_' then
      if afterDigit then readDigits false rest else none
    else
      match digitValue? c with
      | some d => (d :: ·) <$> readDigits true rest
      | none => none

/-- A digit sequence is not empty. -/
theorem readDigits_nil : readDigits false [] = none := rfl

/-- A digit sequence does not end in an underscore. -/
theorem readDigits_underscore_end (b : Bool) : readDigits b ['_'] = none := by
  cases b <;> rfl

/-- The number that decimal digits denote, the first digit being the highest. -/
def ofDigits (ds : List Nat) : Nat :=
  ds.foldl (fun n d => n * 10 + d) 0

/-- Drops the blanks on both sides. -/
def trimNumberBlanks (cs : List Char) : List Char :=
  ((cs.dropWhile isNumberBlank).reverse.dropWhile isNumberBlank).reverse

/-- An unsigned whole number. -/
def readNatural? (cs : List Char) : Option Nat := do
  let ds ← readDigits false cs
  if ds.length ≤ digitLimit then some (ofDigits ds) else none

/-- A whole number with an optional sign. -/
def readInteger? (s : String) : Option Int :=
  match trimNumberBlanks s.toList with
  | '-' :: rest => (fun n => -(n : Int)) <$> readNatural? rest
  | '+' :: rest => Int.ofNat <$> readNatural? rest
  | cs => Int.ofNat <$> readNatural? cs

end Codemod.Text
