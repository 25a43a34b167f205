import Codemod.Syntax.Trivia

/-!
# Lexemes

The smallest pieces of a source. `Lexeme.length?` says how many bytes the longest lexeme of a class
takes at the beginning of a text, if there is one.

Main statements:

* `nameLength_le` says that a name lies within the text;
* `Lexeme.length?_exactly` says when given bytes are read.
-/

namespace Codemod.Syntax

/-- Whether a byte is a decimal digit. -/
def isDigit (b : UInt8) : Bool :=
  code '0' ≤ b && b ≤ code '9'

/-- Whether a byte is a hexadecimal digit. -/
def isHexDigit (b : UInt8) : Bool :=
  isDigit b || (code 'a' ≤ b && b ≤ code 'f') || (code 'A' ≤ b && b ≤ code 'F')

/-- Whether an ASCII character can stand in a name. -/
def isNameByte (b : UInt8) : Bool :=
  isDigit b || (code 'a' ≤ b && b ≤ code 'z') || (code 'A' ≤ b && b ≤ code 'Z') ||
    b == code '_' || b == code '$'

/-- The number of bytes of the longest name, digits allowed at its beginning, that a text begins
with. Beyond ASCII every character but the blanks can stand in a name. A character can be given by
its number, which itself is written between braces or as four digits; `numbered` tells whether such
a number between braces is being read. -/
def nameLength : Bool → Bytes → Nat
  | _, [] => 0
  | true, a :: rest => if a == code '\x7d' then nameLength false rest + 1 else nameLength true rest + 1
  | false, a :: rest =>
    if a < 0x80 then
      if isNameByte a then nameLength false rest + 1
      else if a == code '\\' then
        match rest with
        | [] => 0
        | b :: more =>
          if b == code 'u' then
            if more.head? == some (code '\x7b') then nameLength true more + 2 else nameLength false more + 2
          else 0
      else 0
    else if blankLength (a :: rest) = 0 then nameLength false rest + 1 else 0

/-- A name lies within its text. -/
theorem nameLength_le (numbered : Bool) (t : Bytes) : nameLength numbered t ≤ t.length := by
  fun_induction nameLength numbered t <;> simp_all

/-- The number of bytes of a number's digits, with single marks between them. -/
def digitsLength (digit : UInt8 → Bool) (t : Bytes) : Nat :=
  (t.takeWhile fun b => digit b || b == code '_').length

/-- The length of an exponent, or zero. -/
def exponentLength (t : Bytes) : Nat :=
  match t with
  | a :: rest =>
    if a == code 'e' || a == code 'E' then
      let sign := if rest.head? == some (code '+') || rest.head? == some (code '-') then 1 else 0
      match digitsLength isDigit (rest.drop sign) with
      | 0 => 0
      | n + 1 => n + 2 + sign
    else 0
  | [] => 0

/-- The length of the mark of a big integer, or zero. -/
def bigMarkLength (t : Bytes) : Nat :=
  if t.head? == some (code 'n') then 1 else 0

/-- The length of a number written in a base of its own, or zero. -/
def basedNumberLength (t : Bytes) : Nat :=
  match t with
  | a :: b :: rest =>
    if a != code '0' then 0
    else
      let n :=
        if b == code 'x' || b == code 'X' then digitsLength isHexDigit rest
        else if b == code 'o' || b == code 'O' || b == code 'b' || b == code 'B' then
          digitsLength isDigit rest
        else 0
      if n = 0 then 0 else n + 2 + bigMarkLength (rest.drop n)
  | _ => 0

/-- The length of a decimal number, or zero. -/
def decimalLength (t : Bytes) : Nat :=
  let whole := digitsLength isDigit t
  let rest := t.drop whole
  let part :=
    if rest.head? == some (code '.') then
      let places := digitsLength isDigit (rest.drop 1)
      if whole = 0 && places = 0 then 0 else places + 1
    else 0
  if whole = 0 && part = 0 then 0
  else
    let n := whole + part
    n + exponentLength (t.drop n) + bigMarkLength (t.drop n)

/-- The length of a number that a text begins with, or zero. -/
def numberLength (t : Bytes) : Nat :=
  if t.head?.any fun a => isDigit a || a == code '.' then
    match basedNumberLength t with
    | 0 => decimalLength t
    | n + 1 => n + 1
  else 0

/-- The number of bytes up to the quote that closes a text, the quote included. A backslash keeps
what follows it; `kept` tells whether the byte before was one. A line end must be kept. -/
def closingLength? (quote : UInt8) : Bool → Bytes → Option Nat
  | _, [] => none
  | true, a :: rest =>
    if a == code '\r' && rest.head? == some (code '\n') then
      (· + 1) <$> closingLength? quote true rest
    else (· + 1) <$> closingLength? quote false rest
  | false, a :: rest =>
    if a == quote then some 1
    else if a == code '\n' || a == code '\r' then none
    else (· + 1) <$> closingLength? quote (a == code '\\') rest

/-- The length of a text between quotes. -/
def quotedLength? (t : Bytes) : Option Nat :=
  match t with
  | a :: rest =>
    if a == code '"' || a == code '\'' then (· + 1) <$> closingLength? a false rest else none
  | [] => none

/-- Where the reading of a regular expression stands. -/
inductive RegexState where
  | plain
  /-- Between square brackets, where a slash does not close the expression. -/
  | listed
  /-- After a backslash. -/
  | kept (inside : Bool)

/-- The number of bytes up to the slash that closes a regular expression, the slash included. -/
def regexClosingLength? : RegexState → Bytes → Option Nat
  | _, [] => none
  | s, a :: rest =>
    if a == code '\n' || a == code '\r' then none
    else match s with
      | .kept inside => (· + 1) <$> regexClosingLength? (if inside then .listed else .plain) rest
      | .plain =>
        if a == code '/' then some 1
        else if a == code '[' then (· + 1) <$> regexClosingLength? .listed rest
        else if a == code '\\' then (· + 1) <$> regexClosingLength? (.kept false) rest
        else (· + 1) <$> regexClosingLength? .plain rest
      | .listed =>
        if a == code ']' then (· + 1) <$> regexClosingLength? .plain rest
        else if a == code '\\' then (· + 1) <$> regexClosingLength? (.kept true) rest
        else (· + 1) <$> regexClosingLength? .listed rest

/-- The length of a regular expression with its flags. -/
def regexLength? (t : Bytes) : Option Nat :=
  match t with
  | a :: rest =>
    if a == code '/' then do
      let n ← regexClosingLength? .plain rest
      return n + 1 + ((rest.drop n).takeWhile fun b => code 'a' ≤ b && b ≤ code 'z').length
    else none
  | [] => none

/-- The number of bytes of a template before its end or the next expression in it. -/
def templateTextLength : Bool → Bytes → Nat
  | _, [] => 0
  | true, _ :: rest => templateTextLength false rest + 1
  | false, a :: rest =>
    if a == code '\x60' then 0
    else if a == code '$' && rest.head? == some (code '\x7b') then 0
    else templateTextLength (a == code '\\') rest + 1

/-- The number of bytes of markup before the next tag or expression in it. -/
def markupTextLength (t : Bytes) : Nat :=
  (t.takeWhile fun b => b != code '\x7b' && b != code '\x7d' && b != code '<' && b != code '>').length

/-- The number of bytes of a markup name, in which hyphens can stand after the first part. -/
def markupNameLength (t : Bytes) : Nat :=
  match nameLength false t with
  | 0 => 0
  | n + 1 => n + 1 + ((t.drop (n + 1)).takeWhile fun b => b == code '-' || isNameByte b).length

/-- The length of a text between quotes in markup, where nothing is kept by a backslash. -/
def markupQuotedLength? (t : Bytes) : Option Nat :=
  match t with
  | a :: rest =>
    if a == code '"' || a == code '\'' then
      let n := (rest.takeWhile (· != a)).length
      if (rest.drop n).isEmpty then none else some (n + 2)
    else none
  | [] => none

/-- A class of lexemes. -/
inductive Lexeme where
  /-- These bytes. -/
  | exactly (text : Bytes)
  /-- These bytes as a whole word. -/
  | word (text : Bytes)
  /-- A name that is none of the given words. -/
  | name (reserved : List Bytes)
  /-- A name after a number sign. -/
  | privateName
  | number
  | quoted
  | regex
  | templateText
  | markupText
  | markupName
  | markupQuoted
  /-- The rest of a line, with a carriage return at its end. -/
  | line
  deriving DecidableEq, Repr

/-- A length that is not zero. -/
def nonzero (n : Nat) : Option Nat :=
  if n = 0 then none else some n

namespace Lexeme

/-- The length of a name that is none of the given words. -/
def nameLength? (reserved : List Bytes) (t : Bytes) : Option Nat :=
  if t.head?.any isDigit then none
  else
    let n := nameLength false t
    if reserved.contains (t.take n) then none else nonzero n

/-- The length of the longest lexeme of a class at the beginning of a text. -/
def length? (l : Lexeme) (t : Bytes) : Option Nat :=
  match l with
  | exactly s => if s.isPrefixOf t then some s.length else none
  | word s => if s.isPrefixOf t && nameLength false (t.drop s.length) = 0 then some s.length else none
  | name reserved => nameLength? reserved t
  | privateName =>
    if t.head? == some (code '#') then (· + 1) <$> nameLength? [] (t.drop 1) else none
  | number => nonzero (numberLength t)
  | quoted => quotedLength? t
  | regex => regexLength? t
  | templateText => nonzero (templateTextLength false t)
  | markupText => nonzero (markupTextLength t)
  | markupName => nonzero (markupNameLength t)
  | markupQuoted => markupQuotedLength? t
  | line => some (t.takeWhile (· != Bytes.newline)).length

/-- Given bytes are read where the text begins with them. -/
theorem length?_exactly {s t : Bytes} {n : Nat} :
    (exactly s).length? t = some n ↔ s <+: t ∧ n = s.length := by
  simp only [length?]
  split
  case isTrue h => simp [List.isPrefixOf_iff_prefix.mp h, eq_comm]
  case isFalse h =>
    simp only [reduceCtorEq, false_iff, not_and]
    exact fun hp => absurd (List.isPrefixOf_iff_prefix.mpr hp) h

end Lexeme
end Codemod.Syntax
