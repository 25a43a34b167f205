import Codemod.Json.Value
import Codemod.Json.Fault
import Codemod.Text.Integer

/-!
# Reading JSON

`Json.read` reads a whole text as one JSON value. Beside the numbers of JSON it accepts `NaN`,
`Infinity` and `-Infinity`. Every reader takes the rest of the text and gives back a value and what
follows it, or a cause together with the rest at which the cause was noticed.

Main statements:

* `skipBlanks_of_not_blank` says that a text that starts with no blank is left as it is;
* `read_null` reads a document end to end.
-/

namespace Codemod.Json

/-- A cause with the rest of the text at the place where it was noticed; no cause stands for a
number with too many digits. -/
abbrev Stop := Option (Cause × List Char)

/-- Fails for a cause at a place. -/
def stop {α : Type} (c : Cause) (rest : List Char) : Except Stop α :=
  .error (some (c, rest))

/-- The blanks that may stand between tokens. -/
def isBlank (c : Char) : Bool :=
  c == ' ' || c == '\t' || c == '\n' || c == '\r'

/-- Drops leading blanks. -/
def skipBlanks (cs : List Char) : List Char :=
  cs.dropWhile isBlank

/-- A text that starts with no blank is left as it is. -/
theorem skipBlanks_of_not_blank {c : Char} {cs : List Char} (h : isBlank c = false) :
    skipBlanks (c :: cs) = c :: cs := by
  simp [skipBlanks, h]

/-- Takes a given word off the front. -/
def dropWord? : List Char → List Char → Option (List Char)
  | [], cs => some cs
  | w :: ws, c :: cs => if w = c then dropWord? ws cs else none
  | _ :: _, [] => none

/-- The value of a hexadecimal digit. -/
def hexValue? (c : Char) : Option Nat :=
  if '0' ≤ c && c ≤ '9' then some (c.toNat - 48)
  else if 'a' ≤ c && c ≤ 'f' then some (c.toNat - 87)
  else if 'A' ≤ c && c ≤ 'F' then some (c.toNat - 55)
  else none

/-- The number that four hexadecimal digits denote, and what follows them. A fifth character has to
follow, since the string is not closed yet. -/
def hexQuad? : List Char → Option (Nat × List Char)
  | a :: b :: c :: d :: e :: rest => do
    let a ← hexValue? a
    let b ← hexValue? b
    let c ← hexValue? c
    let d ← hexValue? d
    some (((a * 16 + b) * 16 + c) * 16 + d, e :: rest)
  | _ => none

/-- The first half of a pair of UTF-16 units. -/
def isHighHalf (n : Nat) : Bool := 0xD800 ≤ n && n < 0xDC00

/-- The second half of a pair of UTF-16 units. -/
def isLowHalf (n : Nat) : Bool := 0xDC00 ≤ n && n < 0xE000

/-- The character of a UTF-16 unit. Half a pair is no character: it stands for the replacement character, so that texts
which differ only in such halves are read as one. -/
def unitChar (n : Nat) : Char :=
  if isHighHalf n || isLowHalf n then '\uFFFD' else Char.ofNat n

/-- The character that an escape letter stands for. -/
def escapeLetter? : Char → Option Char
  | '"' => some '"'
  | '\\' => some '\\'
  | '/' => some '/'
  | 'b' => some '\x08'
  | 'f' => some '\x0c'
  | 'n' => some '\n'
  | 'r' => some '\r'
  | 't' => some '\t'
  | _ => none

/-- The rest of a string after its opening quote; `opening` is the text from that quote on, and
`seen` holds the characters read so far, last first. A `\uXXXX` escape of a first half takes the
second half with it when that follows. -/
def readString (opening : List Char) :
    Nat → List Char → List Char → Except Stop (String × List Char)
  | 0, _, _ => stop .unterminatedString opening
  | fuel + 1, seen, cs =>
    match cs with
    | [] => stop .unterminatedString opening
    | '"' :: rest => .ok (String.ofList seen.reverse, rest)
    | '\\' :: [] => stop .unterminatedString opening
    | '\\' :: 'u' :: rest =>
      match hexQuad? rest with
      | none => stop .invalidUnicodeEscape ('u' :: rest)
      | some (n, rest) =>
        match rest with
        | '\\' :: 'u' :: low =>
          match if isHighHalf n then hexQuad? low else none with
          | some (m, rest') =>
            if isLowHalf m then
              readString opening fuel
                (Char.ofNat (0x10000 + (n - 0xD800) * 0x400 + (m - 0xDC00)) :: seen) rest'
            else readString opening fuel (unitChar n :: seen) rest
          | none => readString opening fuel (unitChar n :: seen) rest
        | _ => readString opening fuel (unitChar n :: seen) rest
    | '\\' :: e :: rest =>
      match escapeLetter? e with
      | some c => readString opening fuel (c :: seen) rest
      | none => stop .invalidEscape cs
    | c :: rest =>
      if c.toNat < 32 then stop .controlCharacter cs else readString opening fuel (c :: seen) rest

/-- An ASCII digit. -/
def isDigit (c : Char) : Bool := '0' ≤ c && c ≤ '9'

/-- The values of ASCII digits. -/
def digitValues (cs : List Char) : List Nat := cs.map fun c => c.toNat - 48

/-- The fraction of a number: a point with at least one digit after it. -/
def readFraction (cs : List Char) : List Char × List Char :=
  match cs with
  | '.' :: rest =>
    match rest.takeWhile isDigit with
    | [] => ([], cs)
    | ds => (ds, rest.dropWhile isDigit)
  | _ => ([], cs)

/-- The exponent of a number: `e` or `E`, an optional sign and at least one digit. -/
def readExponent (cs : List Char) : Option (Int × List Char) :=
  match cs with
  | [] => none
  | c :: rest =>
    if c == 'e' || c == 'E' then
      let (negative, rest) : Bool × List Char := match rest with
        | '+' :: more => (false, more)
        | '-' :: more => (true, more)
        | _ => (false, rest)
      match rest.takeWhile isDigit with
      | [] => none
      | ds =>
        let n : Int := Decimal.ofDigits (digitValues ds)
        some (if negative then -n else n, rest.dropWhile isDigit)
    else none

/-- A number; `opening` is the text from its sign on. -/
def readNumber (negative : Bool) (opening cs : List Char) : Except Stop (Value × List Char) :=
  let whole : List Char × List Char := match cs with
    | '0' :: rest => (['0'], rest)
    | _ => (cs.takeWhile isDigit, cs.dropWhile isDigit)
  match whole with
  | ([], _) => stop .expectingValue opening
  | (ds, rest) =>
    let (fraction, rest) := readFraction rest
    let n := Decimal.ofDigits (digitValues (ds ++ fraction))
    match readExponent rest with
    | some (e, rest) => .ok (.real (.ofDecimal negative n (e - fraction.length)), rest)
    | none =>
      if fraction.isEmpty then
        if Text.digitLimit < ds.length then .error none
        else .ok (.int (if negative then -(n : Int) else n), rest)
      else .ok (.real (.ofDecimal negative n (-(fraction.length : Int))), rest)

/-- The values that are written as words. -/
def words : List (List Char × Value) :=
  [("null".toList, .null), ("true".toList, .bool true), ("false".toList, .bool false),
    ("NaN".toList, .real .nan), ("Infinity".toList, .real (.infinite false)),
    ("-Infinity".toList, .real (.infinite true))]

/-- A value that is written as a word. -/
def readWord (cs : List Char) : Option (Value × List Char) :=
  words.findSome? fun w => (dropWord? w.1 cs).map (w.2, ·)

mutual

/-- One value, without blanks before it. -/
def readValue : Nat → List Char → Except Stop (Value × List Char)
  | 0, cs => stop .expectingValue cs
  | fuel + 1, cs =>
    match cs with
    | '"' :: rest => do
      let (s, rest) ← readString cs (rest.length + 1) [] rest
      return (.text s, rest)
    | '[' :: rest =>
      match skipBlanks rest with
      | ']' :: rest => .ok (.list [], rest)
      | rest => readItems fuel [] rest
    | '{' :: rest =>
      match skipBlanks rest with
      | '}' :: rest => .ok (.object [], rest)
      | rest => readMembers fuel [] rest
    | _ =>
      match readWord cs with
      | some r => .ok r
      | none =>
        match cs with
        | '-' :: rest => readNumber true cs rest
        | _ => readNumber false cs cs

/-- The items of a list from an item on; `seen` holds the items before it, last first. -/
def readItems : Nat → List Value → List Char → Except Stop (Value × List Char)
  | 0, _, cs => stop .expectingValue cs
  | fuel + 1, seen, cs => do
    let (v, rest) ← readValue fuel cs
    match skipBlanks rest with
    | ']' :: rest => return (.list (v :: seen).reverse, rest)
    | ',' :: rest => readItems fuel (v :: seen) (skipBlanks rest)
    | rest => stop .expectingComma rest

/-- The members of an object from a key on; `seen` holds the members before it. -/
def readMembers : Nat → Members → List Char → Except Stop (Value × List Char)
  | 0, _, cs => stop .expectingValue cs
  | fuel + 1, seen, cs => do
    match cs with
    | '"' :: rest =>
      let (key, rest) ← readString cs (rest.length + 1) [] rest
      match skipBlanks rest with
      | ':' :: rest =>
        let (v, rest) ← readValue fuel (skipBlanks rest)
        let seen := Keyed.set seen key v
        match skipBlanks rest with
        | '}' :: rest => return (.object seen, rest)
        | ',' :: rest => readMembers fuel seen (skipBlanks rest)
        | rest => stop .expectingComma rest
      | rest => stop .expectingColon rest
    | rest => stop .expectingName rest

end

/-- A fault from what is left of a text where reading stopped. -/
def faultOf (cs : List Char) : Stop → Fault
  | some (c, rest) => .malformed c (.of cs (cs.length - rest.length))
  | none => .tooManyDigits

/-- Reads the characters of a whole document. -/
def readChars (cs : List Char) : Except Fault Value :=
  match cs with
  | '\uFEFF' :: _ => .error (.malformed .byteOrderMark (.of cs 0))
  | _ =>
    match readValue (2 * cs.length + 2) (skipBlanks cs) with
    | .error s => .error (faultOf cs s)
    | .ok (v, rest) =>
      match skipBlanks rest with
      | [] => .ok v
      | rest => .error (faultOf cs (some (.extraData, rest)))

/-- Reads a whole text as JSON. -/
def read (s : String) : Except Fault Value :=
  readChars s.toList

/-- A document that holds one word. -/
theorem read_null : read "null" = .ok .null := by
  rfl

end Codemod.Json
