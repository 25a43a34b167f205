/-!
# Identifiers

The names that a generated declaration may bind: ASCII identifiers that are no reserved words. One
line feed behind the name is let through.

Main statements:

* `isIdentifier_of_chars` says which names are accepted;
* `not_isIdentifier_of_reserved` says that reserved words are not.
-/

namespace Codemod

/-- A character that an identifier may begin with. -/
def isIdentifierStart (c : Char) : Bool :=
  ('a' ≤ c && c ≤ 'z') || ('A' ≤ c && c ≤ 'Z') || c == '_' || c == '$'

/-- A character that an identifier may go on with. -/
def isIdentifierPart (c : Char) : Bool :=
  isIdentifierStart c || ('0' ≤ c && c ≤ '9')

/-- Words that cannot be bound. -/
def reservedWords : List String := [
  "await", "break", "case", "catch", "class", "const", "continue", "debugger", "default",
  "delete", "do", "else", "enum", "export", "extends", "false", "finally", "for", "function",
  "if", "implements", "import", "in", "instanceof", "interface", "let", "new", "null",
  "package", "private", "protected", "public", "return", "static", "super", "switch", "this",
  "throw", "true", "try", "typeof", "var", "void", "while", "with", "yield"]

/-- Whether characters form an identifier, a line feed behind them aside. -/
def isIdentifierText : List Char → Bool
  | [] => false
  | c :: rest =>
    isIdentifierStart c && ((rest.dropWhile isIdentifierPart).isEmpty ||
      rest.dropWhile isIdentifierPart == ['\n'])

/-- Whether a name can be bound. -/
def isIdentifier (s : String) : Bool :=
  isIdentifierText s.toList && !reservedWords.contains s

theorem dropWhile_eq_nil {ok : Char → Bool} {cs : List Char} (h : ∀ c ∈ cs, ok c = true) :
    cs.dropWhile ok = [] := by
  induction cs with
  | nil => rfl
  | cons c rest ih => simp [h c (by simp), ih fun d hd => h d (by simp [hd])]

/-- A name of identifier characters that is no reserved word is accepted. -/
theorem isIdentifier_of_chars {s : String} {c : Char} {cs : List Char} (hs : s.toList = c :: cs)
    (hc : isIdentifierStart c = true) (hcs : ∀ d ∈ cs, isIdentifierPart d = true)
    (hr : s ∉ reservedWords) : isIdentifier s = true := by
  simp [isIdentifier, isIdentifierText, hs, hc, dropWhile_eq_nil hcs, hr]

/-- Reserved words are not accepted. -/
theorem not_isIdentifier_of_reserved {s : String} (h : s ∈ reservedWords) :
    isIdentifier s = false := by
  simp [isIdentifier, h]

end Codemod
