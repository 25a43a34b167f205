import Codemod.Decimal.Places
import Codemod.Decimal.Range
import Codemod.Json.Shown

/-!
# Templates

A template is a text with fields. A field begins with a percent sign, says how its argument is to be
shown, and is replaced by the next argument or by a named one.

Main statements:

* `fill_plain` says that a template without fields is filled by its own text when no argument is left.
-/

namespace Codemod.Log

open Json (Value)

/-- Why a template could not be filled. -/
inductive TemplateFault where
  /-- A field has no argument. -/
  | tooFewArguments
  /-- An argument has no field. -/
  | tooManyArguments
  /-- A field names its argument, but the arguments have no names. -/
  | unnamedArguments
  | missingName (name : String)
  /-- An argument cannot be shown as its field asks. -/
  | wrongType
  /-- The template ends within a field. -/
  | incomplete
  | unknownLetter (letter : Char)
  /-- An argument is no number, though of the type of numbers. -/
  | undefinedNumber
  | outOfRange
  /-- A size that is written into a field is too large. -/
  | sizeTooLarge
  deriving DecidableEq, Repr

/-- The arguments of a template. -/
structure Arguments where
  /-- Those that fields take one after the other. -/
  pending : List Value
  /-- The value whose parts fields can name; what is pending need not be taken then. -/
  parts : Option Value

namespace Arguments

/-- Arguments one after the other; a single object that is not empty gives named arguments. -/
def ofList (vs : List Value) : Arguments :=
  match vs with
  | [.object (m :: ms)] => ⟨vs, some (.object (m :: ms))⟩
  | _ => ⟨vs, none⟩

/-- One argument; an object or a list has parts. -/
def ofValue (v : Value) : Arguments :=
  match v with
  | .object _ | .list _ => ⟨[v], some v⟩
  | _ => ⟨[v], none⟩

/-- The next argument. -/
def next (a : Arguments) : Except TemplateFault (Value × Arguments) :=
  match a.pending with
  | [] => .error .tooFewArguments
  | v :: rest => .ok (v, { a with pending := rest })

/-- Makes a named argument the next one. -/
def select (a : Arguments) (name : String) : Except TemplateFault Arguments :=
  match a.parts with
  | none => .error .unnamedArguments
  | some (.object ms) =>
    match Keyed.get? ms name with
    | some v => .ok { a with pending := [v] }
    | none => .error (.missingName name)
  | some _ => .error .wrongType

end Arguments

/-- How a field shows its argument. -/
structure Field where
  leftAligned : Bool := false
  zeroFilled : Bool := false
  alternate : Bool := false
  plusSign : Bool := false
  blankSign : Bool := false
  width : Nat := 0
  precision : Option Nat := none
  deriving Repr

namespace Field

/-- Sets the flag that a character stands for, if it stands for one. -/
def flag? (f : Field) : Char → Option Field
  | '-' => some { f with leftAligned := true }
  | '0' => some { f with zeroFilled := true }
  | '#' => some { f with alternate := true }
  | '+' => some { f with plusSign := true }
  | ' ' => some { f with blankSign := true }
  | _ => none

/-- Reads the flags of a field. -/
def readFlags (f : Field) : List Char → Field × List Char
  | [] => (f, [])
  | c :: rest =>
    match f.flag? c with
    | some f => readFlags f rest
    | none => (f, c :: rest)

/-- A size of at most so many bits that is written into the field or taken from the arguments. -/
def readSize (bits : Nat) (a : Arguments) (cs : List Char) :
    Except TemplateFault (Option Int × Arguments × List Char) :=
  match cs with
  | '*' :: rest => do
    match ← a.next with
    | (.int i, a) => if Decimal.fitsBits bits i then return (some i, a, rest) else .error .outOfRange
    | (.bool b, a) => return (some (if b then 1 else 0), a, rest)
    | _ => .error .wrongType
  | _ =>
    let ds := cs.takeWhile Char.isDigit
    let n : Int := (Decimal.ofDigits (ds.map fun c => c.toNat - 48) : Nat)
    if ds.isEmpty then .ok (none, a, cs)
    else if Decimal.fitsBits bits n then .ok (some n, a, cs.drop ds.length)
    else .error .sizeTooLarge

/-- Reads the width of a field; a negative one aligns to the left. -/
def readWidth (f : Field) (a : Arguments) (cs : List Char) :
    Except TemplateFault (Field × Arguments × List Char) := do
  match ← readSize 63 a cs with
  | (none, a, cs) => return (f, a, cs)
  | (some i, a, cs) =>
    return ({ f with width := i.natAbs, leftAligned := f.leftAligned || i < 0 }, a, cs)

/-- Reads the precision of a field. -/
def readPrecision (f : Field) (a : Arguments) (cs : List Char) :
    Except TemplateFault (Field × Arguments × List Char) :=
  match cs with
  | '.' :: rest => do
    let (size, a, cs) ← readSize 31 a rest
    return ({ f with precision := some (size.getD 0).toNat }, a, cs)
  | _ => .ok (f, a, cs)

/-- Puts a text into the width of a field. -/
def place (f : Field) (cs : List Char) : List Char :=
  let fill := List.replicate (f.width - cs.length) ' '
  if f.leftAligned then cs ++ fill else fill ++ cs

/-- Puts a number into the width of a field: zeros fill between sign and digits, blanks before the
sign. -/
def placeNumber (f : Field) (negative : Bool) (mark cs : List Char) : List Char :=
  let sign := if negative then ['-'] else if f.plusSign then ['+'] else if f.blankSign then [' '] else []
  let head := sign ++ mark
  let zeros := if f.zeroFilled && !f.leftAligned then
    List.replicate (f.width - head.length - cs.length) '0' else []
  f.place (head ++ zeros ++ cs)

/-- Shows a text. -/
def showText (f : Field) (s : String) : List Char :=
  match f.precision with
  | some n => f.place (s.toList.take n)
  | none => f.place s.toList

/-- Shows a whole number in a base. -/
def showWhole (f : Field) (base : Nat) (capital : Bool) (mark : List Char) (i : Int) : List Char :=
  let ds := Nat.toDigits base i.natAbs
  let ds := if capital then ds.map Char.toUpper else ds
  f.placeNumber (i < 0) (if f.alternate then mark else []) (Decimal.padLeft '0' (f.precision.getD 0) ds)

/-- The whole part of an argument. -/
def wholePart : Value → Except TemplateFault Int
  | .int i => .ok i
  | .bool b => .ok (if b then 1 else 0)
  | .real x =>
    match x with
    | .finite .. => .ok (x.truncate?.getD 0)
    | .infinite _ => .error .outOfRange
    | .nan => .error .undefinedNumber
  | _ => .error .wrongType

/-- An argument that is a whole number. -/
def whole : Value → Except TemplateFault Int
  | .int i => .ok i
  | .bool b => .ok (if b then 1 else 0)
  | _ => .error .wrongType

/-- An argument as a floating-point number. -/
def real : Value → Except TemplateFault Decimal.Binary64
  | .real x => .ok x
  | .bool b => .ok (.ofRatio false (if b then 1 else 0) 1)
  | .int i =>
    match Decimal.Binary64.ofRatio (i < 0) i.natAbs 1 with
    | .infinite _ => .error .outOfRange
    | x => .ok x
  | _ => .error .wrongType

/-- Shows a floating-point number, its magnitude being written by the given function. -/
def showReal (f : Field) (capital : Bool) (magnitude : Nat → Int → List Char)
    (x : Decimal.Binary64) :
    List Char :=
  let (negative, cs) : Bool × List Char := match x with
    | .finite s m q => (s, magnitude m q)
    | .infinite s => (s, "inf".toList)
    | .nan => (false, "nan".toList)
  f.placeNumber negative [] (if capital then cs.map Char.toUpper else cs)

/-- Shows a character, given itself or by its number. -/
def showCharacter (f : Field) : Value → Except TemplateFault (List Char)
  | .text s => if s.length = 1 then .ok (f.place s.toList) else .error .wrongType
  | v => do
    let i ← whole v
    if 0 ≤ i && i < 0x110000 then .ok (f.place [Char.ofNat i.toNat]) else .error .outOfRange

/-- Shows an argument as a letter asks. -/
def showAs (f : Field) (letter : Char) (v : Value) : Except TemplateFault (List Char) :=
  let places := f.precision.getD 6
  match letter with
  | 's' => .ok (f.showText v.shown)
  | 'r' => .ok (f.showText v.literal)
  | 'a' => .ok (f.showText v.literalAscii)
  | 'd' | 'i' | 'u' => f.showWhole 10 false [] <$> wholePart v
  | 'o' => f.showWhole 8 false ['0', 'o'] <$> whole v
  | 'x' => f.showWhole 16 false ['0', 'x'] <$> whole v
  | 'X' => f.showWhole 16 true ['0', 'X'] <$> whole v
  | 'c' => f.showCharacter v
  | 'e' | 'E' =>
    f.showReal (letter == 'E') (fun m q => Decimal.scientific m q places f.alternate) <$> real v
  | 'f' | 'F' => f.showReal (letter == 'F') (fun m q => Decimal.fixed m q places f.alternate) <$> real v
  | 'g' | 'G' =>
    f.showReal (letter == 'G') (fun m q => Decimal.general m q places f.alternate) <$> real v
  | _ => .error (.unknownLetter letter)

end Field

/-- The name of a field's argument, which stands between parentheses, and what follows; parentheses
within the name are paired. -/
def readName : Nat → List Char → Option (List Char × List Char)
  | _, [] => none
  | depth, ')' :: rest =>
    match depth with
    | 0 => some ([], rest)
    | depth + 1 => (readName depth rest).map fun r => (')' :: r.1, r.2)
  | depth, '(' :: rest => (readName (depth + 1) rest).map fun r => ('(' :: r.1, r.2)
  | depth, c :: rest => (readName depth rest).map fun r => (c :: r.1, r.2)

/-- Reads the name of a field's argument, if it has one, and makes that the next argument. -/
def readSelection (a : Arguments) (cs : List Char) : Except TemplateFault (Arguments × List Char) :=
  match cs with
  | '(' :: rest =>
    match a.parts, readName 0 rest with
    | none, _ => .error .unnamedArguments
    | some _, none => .error .incomplete
    | some _, some (name, rest) => (·, rest) <$> a.select (String.ofList name)
  | _ => .ok (a, cs)

/-- Fills one field, whose percent sign has been read. -/
def fillField (a : Arguments) (cs : List Char) :
    Except TemplateFault (List Char × Arguments × List Char) := do
  let (a, cs) ← readSelection a cs
  let (f, cs) := Field.readFlags {} cs
  let (f, a, cs) ← f.readWidth a cs
  let (f, a, cs) ← f.readPrecision a cs
  let cs := match cs with
    | c :: rest => if c == 'h' || c == 'l' || c == 'L' then rest else cs
    | [] => []
  match cs with
  | [] => .error .incomplete
  | '%' :: rest => return (['%'], a, rest)
  | letter :: rest =>
    let (v, a) ← a.next
    let shown ← f.showAs letter v
    return (shown, a, rest)

/-- Fills the fields of a template, of which there are at most as many as characters. -/
def fillFrom : Nat → Arguments → List Char → Except TemplateFault (List Char)
  | _, a, [] => if a.parts.isNone && !a.pending.isEmpty then .error .tooManyArguments else .ok []
  | 0, _, _ => .error .incomplete
  | fuel + 1, a, c :: rest =>
    if c == '%' then do
      let (shown, a, rest) ← fillField a rest
      return shown ++ (← fillFrom fuel a rest)
    else (c :: ·) <$> fillFrom fuel a rest

/-- Fills a template. -/
def fill (template : String) (a : Arguments) : Except TemplateFault String :=
  String.ofList <$> fillFrom template.length a template.toList

/-- Without fields and without arguments a template is filled by its own text. -/
theorem fill_plain {template : String} (h : '%' ∉ template.toList) :
    fill template ⟨[], none⟩ = .ok template := by
  have key : ∀ (cs : List Char) (n : Nat), cs.length ≤ n → '%' ∉ cs →
      fillFrom n ⟨[], none⟩ cs = .ok cs := by
    intro cs
    induction cs with
    | nil => intro n _ _; unfold fillFrom; rfl
    | cons c rest ih =>
      intro n hn hc
      cases n with
      | zero => simp at hn
      | succ n =>
        have h1 : ¬ c = '%' := fun e => hc (by simp [e])
        have h2 : '%' ∉ rest := fun m => hc (by simp [m])
        simp only [List.length_cons, Nat.add_le_add_iff_right] at hn
        simp [fillFrom, h1, ih n hn h2, Functor.map, Except.map]
  unfold fill
  rw [key _ _ (Nat.le_of_eq String.length_toList) h]
  simp [Functor.map, Except.map]

end Codemod.Log
