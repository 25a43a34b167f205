import Codemod.Json.Reader

/-!
# JSON with comments

Configuration files are JSON in which comments and trailing commas are allowed. Both are taken out
before the text is read: comments outside strings first, then each comma that only blanks separate
from a closing bracket.

Main statements:

* `strip_code_of_plain` says that a text without quotes and slashes holds no comment;
* `dropTrailingCommas_of_no_comma` says that a text without commas is left as it is.
-/

namespace Codemod.Json

/-- Where a text stands while comments are taken out. -/
inductive Region where
  | code
  | string
  | lineComment
  | blockComment
  deriving DecidableEq, Repr

/-- A text without its comments, read from within a region. A line comment ends before the line
feed; an unclosed string or comment ends with the text. -/
def strip : Region → List Char → List Char
  | _, [] => []
  | .code, '/' :: '/' :: rest => strip .lineComment rest
  | .code, '/' :: '*' :: rest => strip .blockComment rest
  | .code, '"' :: rest => '"' :: strip .string rest
  | .code, c :: rest => c :: strip .code rest
  | .string, '\\' :: c :: rest => '\\' :: c :: strip .string rest
  | .string, '"' :: rest => '"' :: strip .code rest
  | .string, c :: rest => c :: strip .string rest
  | .lineComment, '\n' :: rest => '\n' :: strip .code rest
  | .lineComment, _ :: rest => strip .lineComment rest
  | .blockComment, '*' :: '/' :: rest => strip .code rest
  | .blockComment, _ :: rest => strip .blockComment rest

/-- A text without its comments. -/
def stripComments (s : String) : String :=
  String.ofList (strip .code s.toList)

/-- A blank in the widest sense: control blanks, separators and spaces of every kind. -/
def isWideBlank (c : Char) : Bool :=
  Text.isNumberBlank c || (28 ≤ c.toNat && c.toNat ≤ 31)

/-- Whether a closing bracket comes next, blanks aside. -/
def closesNext (cs : List Char) : Bool :=
  match cs.dropWhile isWideBlank with
  | c :: _ => c == '}' || c == ']'
  | [] => false

/-- Takes out every comma that only blanks separate from a closing bracket. -/
def dropTrailingCommas : List Char → List Char
  | [] => []
  | c :: rest =>
    if c == ',' && closesNext rest then dropTrailingCommas rest else c :: dropTrailingCommas rest

/-- Reads a text as JSON with comments and trailing commas. -/
def readWithComments (s : String) : Except Fault Value :=
  readChars (dropTrailingCommas (strip .code s.toList))

/-- A text without quotes and slashes holds no comment. -/
theorem strip_code_of_plain {cs : List Char} (h : ∀ c ∈ cs, c ≠ '"' ∧ c ≠ '/') :
    strip .code cs = cs := by
  induction cs with
  | nil => rfl
  | cons c rest ih =>
    have hc := h c (by simp)
    have hr := ih fun d hd => h d (by simp [hd])
    unfold strip
    split <;> simp_all

/-- A text without commas is left as it is. -/
theorem dropTrailingCommas_of_no_comma {cs : List Char} (h : ',' ∉ cs) :
    dropTrailingCommas cs = cs := by
  induction cs with
  | nil => rfl
  | cons c rest ih =>
    have hc : c ≠ ',' := fun e => h (by simp [e])
    have hr : ',' ∉ rest := fun m => h (by simp [m])
    simp [dropTrailingCommas, hc, ih hr]

end Codemod.Json
