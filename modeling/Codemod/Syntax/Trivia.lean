import Codemod.Text.Bytes

/-!
# Blanks and comments

Between two lexemes there may be blanks and comments. `trivia` passes over them and reports where
the comments lie; a comment that is not closed is left unread.

Main statements:

* `dropBlanks_length_le` says that passing over blanks never makes a text longer;
* `trivia_of_visible` says that nothing is passed over before a visible character that opens no
  comment.
-/

namespace Codemod.Syntax

/-- The byte of an ASCII character. -/
abbrev code (c : Char) : UInt8 :=
  c.toUInt8

/-- The number of bytes of the blank that a text begins with; zero when it begins with none. Blanks
are the ASCII blanks, the spaces of all scripts, the line and paragraph separators, and three marks
that have no width. -/
def blankLength : Bytes → Nat
  | [] => 0
  | a :: rest =>
    if a < 0x80 then if Bytes.isBlank a then 1 else 0
    else match rest with
      | [] => 0
      | b :: rest =>
        if a == 0xC2 then if b == 0xA0 then 2 else 0
        else match rest with
          | [] => 0
          | c :: _ =>
            if a == 0xE1 && b == 0x9A && c == 0x80 then 3
            else if a == 0xE2 && b == 0x80 && (c ≤ 0x8B || c == 0xA8 || c == 0xA9 || c == 0xAF) then 3
            else if a == 0xE2 && b == 0x81 && (c == 0x9F || c == 0xA0) then 3
            else if a == 0xE3 && b == 0x80 && c == 0x80 then 3
            else if a == 0xEF && b == 0xBB && c == 0xBF then 3
            else 0

/-- Whether the blank of three bytes that ends with `b`, `c` forbids a line break beside it or has no
width. -/
def isFixedBlank (a b c : UInt8) : Bool :=
  (a == 0xE2 && b == 0x80 && (c == 0x87 || c == 0x8B || c == 0xAF)) ||
    (a == 0xE2 && b == 0x81 && c == 0xA0) || a == 0xEF

/-- The number of bytes of the breaking blank that a text begins with. These are the blanks without
those that forbid a line break beside them and without those that have no width. -/
def breakingBlankLength : Bytes → Nat
  | a :: b :: c :: rest =>
    if a == 0xC2 || isFixedBlank a b c then 0 else blankLength (a :: b :: c :: rest)
  | a :: rest => if a < 0x80 then blankLength (a :: rest) else 0
  | [] => 0

/-- A text without `n` bytes at its beginning and without the blanks that follow them. -/
def dropBlanks (blank : Bytes → Nat) : Nat → Bytes → Bytes
  | _, [] => []
  | n + 1, _ :: rest => dropBlanks blank n rest
  | 0, a :: rest =>
    match blank (a :: rest) with
    | 0 => a :: rest
    | k + 1 => dropBlanks blank k rest

/-- Passing over blanks never makes a text longer. -/
theorem dropBlanks_length_le (blank : Bytes → Nat) (n : Nat) (t : Bytes) :
    (dropBlanks blank n t).length ≤ t.length := by
  induction t generalizing n with
  | nil => cases n <;> simp [dropBlanks]
  | cons a rest ih =>
    cases n with
    | succ n => exact Nat.le_succ_of_le (ih n)
    | zero =>
      unfold dropBlanks
      split
      case h_1 => exact Nat.le_refl _
      case h_2 k _ => exact Nat.le_succ_of_le (ih k)

/-- What lies before a lexeme. -/
structure Trivia where
  /-- The offsets at which the comments begin and end, the last comment first. -/
  comments : List (Nat × Nat)
  /-- The offset of the lexeme. -/
  offset : Nat
  /-- The text from the lexeme on. -/
  rest : Bytes
  deriving DecidableEq, Repr

/-- Where the reading of blanks and comments stands. -/
inductive TriviaState where
  /-- Outside comments, with some bytes of a blank still to come. -/
  | outside (pending : Nat)
  /-- After the first mark of a comment. -/
  | opening (before : Trivia)
  /-- In a comment that ends with its line. -/
  | line (before : Trivia)
  /-- In a comment that ends with a mark; `starred` tells whether the byte before was an asterisk. -/
  | block (before : Trivia) (starred : Bool)

/-- Whether a text begins with a line end. -/
def startsWithLineEnd : Bytes → Bool
  | a :: b :: c :: _ =>
    a == code '\n' || a == code '\r' || (a == 0xE2 && b == 0x80 && (c == 0xA8 || c == 0xA9))
  | a :: _ => a == code '\n' || a == code '\r'
  | [] => false

/-- The comment that began at `before` and ends before `offset`, put to those found. -/
def Trivia.comment (before : Trivia) (offset : Nat) : List (Nat × Nat) :=
  (before.offset, offset) :: before.comments

/-- Reads on from one state. Inside a comment the first component of the result is that of the
comment's beginning until it is closed. -/
def triviaFrom (blank : Bytes → Nat) : TriviaState → List (Nat × Nat) → Nat → Bytes → Trivia
  | .outside _, found, offset, [] => ⟨found, offset, []⟩
  | .opening before, _, _, [] => before
  | .line before, _, offset, [] => ⟨before.comment offset, offset, []⟩
  | .block before _, _, _, [] => before
  | .outside (k + 1), found, offset, _ :: rest =>
    triviaFrom blank (.outside k) found (offset + 1) rest
  | .outside 0, found, offset, a :: rest =>
    match blank (a :: rest) with
    | k + 1 => triviaFrom blank (.outside k) found (offset + 1) rest
    | 0 =>
      if a == code '/' then
        triviaFrom blank (.opening ⟨found, offset, a :: rest⟩) found (offset + 1) rest
      else ⟨found, offset, a :: rest⟩
  | .opening before, found, offset, a :: rest =>
    if a == code '/' then triviaFrom blank (.line before) found (offset + 1) rest
    else if a == code '*' then triviaFrom blank (.block before false) found (offset + 1) rest
    else before
  | .line before, found, offset, a :: rest =>
    if startsWithLineEnd (a :: rest) then
      match blank (a :: rest) with
      | k + 1 => triviaFrom blank (.outside k) (before.comment offset) (offset + 1) rest
      | 0 => ⟨before.comment offset, offset, a :: rest⟩
    else triviaFrom blank (.line before) found (offset + 1) rest
  | .block before starred, found, offset, a :: rest =>
    if starred && a == code '/' then
      triviaFrom blank (.outside 0) (before.comment (offset + 1)) (offset + 1) rest
    else triviaFrom blank (.block before (a == code '*')) found (offset + 1) rest

/-- Passes over the blanks and comments that a text begins with, which lies at an offset. -/
def trivia (offset : Nat) (t : Bytes) : Trivia :=
  triviaFrom blankLength (.outside 0) [] offset t

/-- Before a visible character that opens no comment there is nothing to pass over. -/
theorem trivia_of_visible {offset : Nat} {a : UInt8} {rest : Bytes}
    (hb : blankLength (a :: rest) = 0) (hs : a ≠ code '/') :
    trivia offset (a :: rest) = ⟨[], offset, a :: rest⟩ := by
  simp [trivia, triviaFrom, hb, hs]

/-- The length of the comment that a text begins with, if it begins with one. -/
def commentLength? (t : Bytes) : Option Nat :=
  match t with
  | a :: rest =>
    if a == code '/' then
      let r := triviaFrom (fun _ => 0) (.opening ⟨[], 0, t⟩) [] 1 rest
      r.comments.getLast?.map (·.2)
    else none
  | [] => none

end Codemod.Syntax
