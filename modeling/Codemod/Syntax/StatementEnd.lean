import Codemod.Syntax.Trivia

/-!
# Where a statement ends without a semicolon

A statement whose semicolon is left out ends before a closing brace, at the end of the text, and at
a line end after which the text cannot go on as part of the statement. What can go on depends on what
the statement ends with.

Main statements:

* `endsStatement_nil` says that every statement can end at the end of the text;
* `endsStatement_false_of_visible` says that no statement ends before another lexeme on its line.
-/

namespace Codemod.Syntax

/-- What stands at the end of a statement. -/
inductive Ending where
  /-- An expression: an opening bracket on the next line goes on with it. -/
  | expression
  /-- Another part of a declaration, such as a type or a name. -/
  | declaration
  /-- A function signature: an opening brace on the next line gives its body. -/
  | signature
  deriving DecidableEq, Repr

/-- Whether a byte is a letter of the Latin alphabet. -/
def isLetter (b : UInt8) : Bool :=
  (code 'a' ≤ b && b ≤ code 'z') || (code 'A' ≤ b && b ≤ code 'Z')

/-- Whether a text goes on with a given word, which no letter follows. -/
def startsWithWord (word : Bytes) (t : Bytes) : Bool :=
  word.isPrefixOf t && !((t.drop word.length).head?.any isLetter)

/-- Marks with which an expression goes on in the next line. -/
def continuingMarks : Bytes :=
  Bytes.ofString "`,.;*%><=?^|&/:"

/-- Whether a statement ends before a line that begins so, its blanks and comments left out. -/
def endsBeforeLine (e : Ending) : Bytes → Bool
  | [] => true
  | a :: rest =>
    if continuingMarks.contains a then false
    else if a == code '\x7b' then e != .signature
    else if a == code '(' || a == code '[' then e != .expression
    else if a == code '+' || a == code '-' then rest.head? == some a
    else if a == code '!' then rest.head? != some (code '=')
    else !(startsWithWord (Bytes.ofString "in") (a :: rest) ||
      startsWithWord (Bytes.ofString "instanceof") (a :: rest))

/-- Whether a statement can end here without a semicolon. -/
def endsStatement (e : Ending) (t : Bytes) : Bool :=
  let blank (t : Bytes) : Nat := if t.head? == some Bytes.newline then 0 else breakingBlankLength t
  match dropBlanks blank 0 t with
  | [] => true
  | a :: rest =>
    if a == 0 then true
    else if a == code '\x7d' then
      (dropBlanks breakingBlankLength 0 rest).head? != some (code ':') || e == .expression
    else if a == Bytes.newline then
      endsBeforeLine e (triviaFrom breakingBlankLength (.outside 0) [] 0 rest).rest
    else false

/-- Every statement can end at the end of the text. -/
theorem endsStatement_nil (e : Ending) : endsStatement e [] = true := by
  simp [endsStatement, dropBlanks]

/-- No statement ends before another lexeme on its line. -/
theorem endsStatement_false_of_visible {e : Ending} {a : UInt8} {rest : Bytes}
    (hb : breakingBlankLength (a :: rest) = 0) (h0 : a ≠ 0) (hn : a ≠ Bytes.newline)
    (hc : a ≠ code '\x7d') : endsStatement e (a :: rest) = false := by
  simp [endsStatement, dropBlanks, hb, h0, hn, hc]

/-- A statement that ends without a semicolon: the comments that belong to it and the offset and the
text after them. While there is another comment on the line, the end comes after it. -/
def statementEnd? (e : Ending) : Nat → Trivia → Option Trivia
  | 0, _ => none
  | fuel + 1, t =>
    if endsStatement e t.rest then some t
    else
      let next := dropBlanks blankLength 0 t.rest
      match commentLength? next with
      | none => none
      | some n =>
        let start := t.offset + (t.rest.length - next.length)
        statementEnd? e fuel ⟨(start, start + n) :: t.comments, start + n, next.drop n⟩

end Codemod.Syntax
