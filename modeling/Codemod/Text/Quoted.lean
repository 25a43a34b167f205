import Codemod.Text.Hex
import Codemod.Text.Printable

/-!
# Quoted text

Messages show a text between quotes with its unprintable characters escaped. The quote is the
apostrophe, unless the text holds an apostrophe and no quotation mark.

Main statements:

* `quoteMark_eq_apostrophe` says when the apostrophe is chosen;
* `escapeChar_printable` says that a printable character that is neither the quote nor a backslash
  stands for itself.
-/

namespace Codemod.Text

/-- The escape of a character by its number: two, four or eight hexadecimal digits. -/
def numericEscape (n : Nat) : List Char :=
  if n < 0x100 then '\\' :: 'x' :: hexDigits 2 n
  else if n < 0x10000 then '\\' :: 'u' :: hexDigits 4 n
  else '\\' :: 'U' :: hexDigits 8 n

/-- The quote for a text. -/
def quoteMark (cs : List Char) : Char :=
  if cs.contains '\'' && !cs.contains '"' then '"' else '\''

/-- One character of a quoted text, `keep` telling which characters stand for themselves. -/
def escapeCharWhere (keep : Char → Bool) (quote c : Char) : List Char :=
  if c == quote || c == '\\' then ['\\', c]
  else if c == '\n' then ['\\', 'n']
  else if c == '\r' then ['\\', 'r']
  else if c == '\t' then ['\\', 't']
  else if keep c then [c]
  else numericEscape c.toNat

/-- One character of a quoted text. -/
def escapeChar (quote c : Char) : List Char :=
  escapeCharWhere isPrintable quote c

/-- A text between quotes, with what cannot be shown escaped. -/
def quoted (s : String) : String :=
  let cs := s.toList
  let q := quoteMark cs
  String.ofList (q :: cs.flatMap (escapeChar q) ++ [q])

/-- A text between quotes in which every character beyond ASCII is escaped too. -/
def quotedAscii (s : String) : String :=
  let cs := s.toList
  let q := quoteMark cs
  String.ofList (q :: cs.flatMap (escapeCharWhere (fun c => isPrintable c && c.toNat < 128) q) ++ [q])

/-- The apostrophe is the quote unless the text holds one and holds no quotation mark. -/
theorem quoteMark_eq_apostrophe {cs : List Char} :
    quoteMark cs = '\'' ↔ ('\'' ∈ cs → '"' ∈ cs) := by
  unfold quoteMark
  split
  case isTrue h => simp at h; simp [h]
  case isFalse h => simp at h; simpa using h

/-- A printable character that is neither the quote nor a backslash stands for itself. -/
theorem escapeChar_printable {q c : Char} (hq : c ≠ q) (hb : c ≠ '\\') (h : isPrintable c = true)
    (hn : c ≠ '\n') (hr : c ≠ '\r') (ht : c ≠ '\t') : escapeChar q c = [c] := by
  simp [escapeChar, escapeCharWhere, hq, hb, hn, hr, ht, h]

end Codemod.Text
