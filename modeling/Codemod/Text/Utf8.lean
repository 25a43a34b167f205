import Codemod.Text.Bytes
import Codemod.Text.Hex

/-!
# Reading bytes as UTF-8

`Utf8.decode` reads a byte sequence as characters, or says where and why it cannot: the first
sequence that is no encoding of a character is reported with its offset, its length and the
reason.

Main statements:

* `Utf8.decode_ascii` says that bytes below 128 are read as the characters of their numbers.
-/

namespace Codemod.Utf8

/-- Why a byte sequence encodes no character. -/
inductive Reason where
  | invalidStart
  | invalidContinuation
  | unexpectedEnd
  deriving DecidableEq, Repr

/-- The wording of a reason. -/
def Reason.message : Reason → String
  | .invalidStart => "invalid start byte"
  | .invalidContinuation => "invalid continuation byte"
  | .unexpectedEnd => "unexpected end of data"

/-- The first place at which a text is not UTF-8. -/
structure Fault where
  /-- The offset of the offending sequence. -/
  start : Nat
  /-- The number of bytes that the offending sequence holds. -/
  size : Nat
  /-- The first of these bytes. -/
  first : UInt8
  reason : Reason
  deriving DecidableEq, Repr

/-- A byte as two lower-case hexadecimal digits. -/
def hexByte (b : UInt8) : String :=
  String.ofList (Text.hexDigits 2 b.toNat)

/-- The wording of a fault: one byte is shown, several are given by their offsets. -/
def Fault.message (f : Fault) : String :=
  if f.size = 1 then
    s!"'utf-8' codec can't decode byte 0x{hexByte f.first} in position {f.start}: {f.reason.message}"
  else
    s!"'utf-8' codec can't decode bytes in position {f.start}-{f.start + f.size - 1}: {f.reason.message}"

/-- A byte of the form `10xxxxxx`. -/
def isContinuation (b : UInt8) : Bool :=
  0x80 ≤ b && b < 0xC0

/-- The six bits that a continuation byte carries. -/
def payload (b : UInt8) : Nat :=
  b.toNat - 0x80

/-- A second byte that the first byte `a` of a three-byte sequence allows: no shorter encoding
exists, and the character is no surrogate. -/
def secondOfThree (a b : UInt8) : Bool :=
  isContinuation b && !(a == 0xE0 && b < 0xA0) && !(a == 0xED && 0xA0 ≤ b)

/-- A second byte that the first byte `a` of a four-byte sequence allows: no shorter encoding
exists, and the character is at most `0x10FFFF`. -/
def secondOfFour (a b : UInt8) : Bool :=
  isContinuation b && !(a == 0xF0 && b < 0x90) && !(a == 0xF4 && 0x90 ≤ b)

/-- Reads the bytes from offset `pos` on. -/
def decodeFrom (pos : Nat) : Bytes → Except Fault (List Char)
  | [] => .ok []
  | a :: rest =>
    if a < 0x80 then (Char.ofNat a.toNat :: ·) <$> decodeFrom (pos + 1) rest
    else if a < 0xC2 then .error ⟨pos, 1, a, .invalidStart⟩
    else if a < 0xE0 then
      match rest with
      | [] => .error ⟨pos, 1, a, .unexpectedEnd⟩
      | b :: rest =>
        if isContinuation b then
          (Char.ofNat ((a.toNat - 0xC0) * 64 + payload b) :: ·) <$> decodeFrom (pos + 2) rest
        else .error ⟨pos, 1, a, .invalidContinuation⟩
    else if a < 0xF0 then
      match rest with
      | [] => .error ⟨pos, 1, a, .unexpectedEnd⟩
      | [b] =>
        if secondOfThree a b then .error ⟨pos, 2, a, .unexpectedEnd⟩
        else .error ⟨pos, 1, a, .invalidContinuation⟩
      | b :: c :: rest =>
        if secondOfThree a b then
          if isContinuation c then
            (Char.ofNat (((a.toNat - 0xE0) * 64 + payload b) * 64 + payload c) :: ·) <$>
              decodeFrom (pos + 3) rest
          else .error ⟨pos, 2, a, .invalidContinuation⟩
        else .error ⟨pos, 1, a, .invalidContinuation⟩
    else if a < 0xF5 then
      match rest with
      | [] => .error ⟨pos, 1, a, .unexpectedEnd⟩
      | [b] =>
        if secondOfFour a b then .error ⟨pos, 2, a, .unexpectedEnd⟩
        else .error ⟨pos, 1, a, .invalidContinuation⟩
      | [b, c] =>
        if secondOfFour a b then
          if isContinuation c then .error ⟨pos, 3, a, .unexpectedEnd⟩
          else .error ⟨pos, 2, a, .invalidContinuation⟩
        else .error ⟨pos, 1, a, .invalidContinuation⟩
      | b :: c :: d :: rest =>
        if secondOfFour a b then
          if isContinuation c then
            if isContinuation d then
              (Char.ofNat ((((a.toNat - 0xF0) * 64 + payload b) * 64 + payload c) * 64 + payload d) :: ·)
                <$> decodeFrom (pos + 4) rest
            else .error ⟨pos, 3, a, .invalidContinuation⟩
          else .error ⟨pos, 2, a, .invalidContinuation⟩
        else .error ⟨pos, 1, a, .invalidContinuation⟩
    else .error ⟨pos, 1, a, .invalidStart⟩

/-- Reads a text as UTF-8. -/
def decode (t : Bytes) : Except Fault String :=
  String.ofList <$> decodeFrom 0 t

/-- Bytes below 128 are read one by one. -/
theorem decode_ascii {t : Bytes} (h : ∀ b ∈ t, b < 0x80) :
    decode t = .ok (String.ofList (t.map fun b => Char.ofNat b.toNat)) := by
  have key : ∀ (t : Bytes) (pos : Nat), (∀ b ∈ t, b < 0x80) →
      decodeFrom pos t = .ok (t.map fun b => Char.ofNat b.toNat) := by
    intro t
    induction t with
    | nil => intro _ _; rfl
    | cons a rest ih =>
      intro pos h
      have ha : a < 0x80 := h a (by simp)
      have hrest := ih (pos + 1) fun b hb => h b (by simp [hb])
      unfold decodeFrom
      rw [if_pos ha, hrest]
      rfl
  rw [decode, key t 0 h]
  rfl

end Codemod.Utf8
