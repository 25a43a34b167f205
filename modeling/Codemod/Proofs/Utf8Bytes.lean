import Codemod.Text.Utf8
import Mathlib.Data.List.Induction

/-!
# Reading bytes and writing them again

A text that is read as characters is written as the same bytes: `Utf8.decode` accepts no byte sequence
that is longer than need be, and no surrogate. So whatever is read from a file and put back into it
leaves the bytes as they were.

Main statements:

* `Bytes.ofString_append` and `Bytes.ofString_injective` say how strings are written;
* `Utf8.ofString_of_decode` says that what is read is written as it was, and `Utf8.decode_ofString` that
  what is written is read as it was;
* `Bytes.endsCharacter_ofString` says that what is written ends where a character does.
-/

namespace Codemod

namespace Bytes

/-- The bytes of a string, character by character. -/
theorem ofString_eq_flatMap (s : String) : ofString s = s.toList.flatMap String.utf8EncodeChar := by
  have h : s = String.ofList s.toList := by simp
  conv => lhs; rw [h]
  simp only [ofString, String.toByteArray_ofList, List.utf8Encode]
  simp

@[simp] theorem ofString_append (s t : String) : ofString (s ++ t) = ofString s ++ ofString t := by
  simp [ofString_eq_flatMap]

theorem ofString_injective {s t : String} (h : ofString s = ofString t) : s = t := by
  unfold ofString at h
  have := Array.toList_inj.mp h
  exact String.toByteArray_inj.mp (ByteArray.ext this)

end Bytes

namespace Utf8

theorem toNat_ofNat {n : Nat} (h : n.isValidChar) : (Char.ofNat n).val.toNat = n := by
  unfold Char.ofNat
  rw [dif_pos h]
  rfl

theorem encode_one {n : Nat} (h : n < 0x80) :
    String.utf8EncodeChar (Char.ofNat n) = [UInt8.ofNat n] := by
  have hv : (Char.ofNat n).val.toNat = n := toNat_ofNat (.inl (by omega))
  unfold String.utf8EncodeChar
  rw [hv, if_pos (by omega)]

theorem encode_two {n : Nat} (h : 0x80 ≤ n) (h' : n < 0x800) :
    String.utf8EncodeChar (Char.ofNat n) =
      [UInt8.ofNat (n / 64 + 0xC0), UInt8.ofNat (n % 64 + 0x80)] := by
  have hv : (Char.ofNat n).val.toNat = n := toNat_ofNat (.inl (by omega))
  unfold String.utf8EncodeChar
  rw [hv, if_neg (by omega), if_pos (by omega), Nat.mod_eq_of_lt (show n / 64 < 0x20 by omega)]

theorem encode_three {n : Nat} (h : 0x800 ≤ n) (h' : n < 0x10000) (hn : n.isValidChar) :
    String.utf8EncodeChar (Char.ofNat n) =
      [UInt8.ofNat (n / 4096 + 0xE0), UInt8.ofNat (n / 64 % 64 + 0x80), UInt8.ofNat (n % 64 + 0x80)] := by
  have hv : (Char.ofNat n).val.toNat = n := toNat_ofNat hn
  unfold String.utf8EncodeChar
  rw [hv, if_neg (by omega), if_neg (by omega), if_pos (by omega),
    Nat.mod_eq_of_lt (show n / 4096 < 0x10 by omega)]

theorem encode_four {n : Nat} (h : 0x10000 ≤ n) (h' : n < 0x110000) :
    String.utf8EncodeChar (Char.ofNat n) =
      [UInt8.ofNat (n / 262144 + 0xF0), UInt8.ofNat (n / 4096 % 64 + 0x80),
        UInt8.ofNat (n / 64 % 64 + 0x80), UInt8.ofNat (n % 64 + 0x80)] := by
  have hv : (Char.ofNat n).val.toNat = n := toNat_ofNat (.inr (by omega))
  unfold String.utf8EncodeChar
  rw [hv, if_neg (by omega), if_neg (by omega), if_neg (by omega),
    Nat.mod_eq_of_lt (show n / 262144 < 0x08 by omega)]

theorem payload_lt {b : UInt8} (h : isContinuation b = true) :
    b.toNat = payload b + 0x80 ∧ payload b < 64 := by
  unfold isContinuation at h
  unfold payload
  simp [UInt8.le_iff_toNat_le, UInt8.lt_iff_toNat_lt] at h
  omega

theorem ofNat_eq {b : UInt8} {n : Nat} (h : n = b.toNat) : UInt8.ofNat n = b := by
  rw [h, UInt8.ofNat_toNat]

/-- The character that two bytes are read as is written as these bytes. -/
theorem encode_of_two {a b : UInt8} (ha : 0xC2 ≤ a.toNat) (ha' : a.toNat < 0xE0)
    (hb : isContinuation b = true) :
    String.utf8EncodeChar (Char.ofNat ((a.toNat - 0xC0) * 64 + payload b)) = [a, b] := by
  obtain ⟨hb, hlt⟩ := payload_lt hb
  rw [encode_two (by omega) (by omega), ofNat_eq (b := a) (by omega), ofNat_eq (b := b) (by omega)]

/-- The character that three bytes are read as is written as these bytes. -/
theorem encode_of_three {a b c : UInt8} (ha : 0xE0 ≤ a.toNat) (ha' : a.toNat < 0xF0)
    (hb : secondOfThree a b = true) (hc : isContinuation c = true) :
    String.utf8EncodeChar (Char.ofNat (((a.toNat - 0xE0) * 64 + payload b) * 64 + payload c)) =
      [a, b, c] := by
  unfold secondOfThree at hb
  simp only [Bool.and_eq_true, Bool.not_eq_true', Bool.and_eq_false_iff, beq_eq_false_iff_ne,
    decide_eq_false_iff_not, UInt8.lt_iff_toNat_lt, UInt8.le_iff_toNat_le, ne_eq,
    ← UInt8.toNat_inj] at hb
  obtain ⟨⟨hb, hlow⟩, hsurrogate⟩ := hb
  obtain ⟨hb, hlt⟩ := payload_lt hb
  obtain ⟨hc, hlt'⟩ := payload_lt hc
  simp at hlow hsurrogate
  rw [encode_three (by omega) (by omega) (by unfold Nat.isValidChar; omega), ofNat_eq (b := a) (by omega),
    ofNat_eq (b := b) (by omega), ofNat_eq (b := c) (by omega)]

/-- The character that four bytes are read as is written as these bytes. -/
theorem encode_of_four {a b c d : UInt8} (ha : 0xF0 ≤ a.toNat) (ha' : a.toNat < 0xF5)
    (hb : secondOfFour a b = true) (hc : isContinuation c = true) (hd : isContinuation d = true) :
    String.utf8EncodeChar
        (Char.ofNat ((((a.toNat - 0xF0) * 64 + payload b) * 64 + payload c) * 64 + payload d)) =
      [a, b, c, d] := by
  unfold secondOfFour at hb
  simp only [Bool.and_eq_true, Bool.not_eq_true', Bool.and_eq_false_iff, beq_eq_false_iff_ne,
    decide_eq_false_iff_not, UInt8.lt_iff_toNat_lt, UInt8.le_iff_toNat_le, ne_eq,
    ← UInt8.toNat_inj] at hb
  obtain ⟨⟨hb, hlow⟩, hhigh⟩ := hb
  obtain ⟨hb, hlt⟩ := payload_lt hb
  obtain ⟨hc, hlt'⟩ := payload_lt hc
  obtain ⟨hd, hlt''⟩ := payload_lt hd
  simp at hlow hhigh
  rw [encode_four (by omega) (by omega), ofNat_eq (b := a) (by omega), ofNat_eq (b := b) (by omega),
    ofNat_eq (b := c) (by omega), ofNat_eq (b := d) (by omega)]

/-- One character and what follows it are written as the bytes that they were read from. -/
theorem encode_cons {c : Char} {first rest : Bytes} {x : Except Fault (List Char)} {l : List Char}
    (h : (c :: ·) <$> x = .ok l) (hc : String.utf8EncodeChar c = first)
    (ih : ∀ {l : List Char}, x = .ok l → l.flatMap String.utf8EncodeChar = rest) :
    l.flatMap String.utf8EncodeChar = first ++ rest := by
  cases x with
  | error e => cases h
  | ok more =>
    cases h
    rw [List.flatMap_cons, hc, ih rfl]

/-- What is read is written as the bytes that it was read from. -/
theorem encode_decodeFrom {pos : Nat} {t : Bytes} {l : List Char} (h : decodeFrom pos t = .ok l) :
    l.flatMap String.utf8EncodeChar = t := by
  fun_induction decodeFrom pos t generalizing l
  case case1 => cases h; rfl
  case case2 pos a rest ha ih =>
    rw [UInt8.lt_iff_toNat_lt] at ha
    have hc : String.utf8EncodeChar (Char.ofNat a.toNat) = [a] := by
      rw [encode_one ha, UInt8.ofNat_toNat]
    exact encode_cons h hc ih
  case case5 pos a _ hlow ha b rest hb ih =>
    rw [UInt8.lt_iff_toNat_lt] at hlow ha
    exact encode_cons h (encode_of_two (Nat.le_of_not_lt hlow) ha hb) ih
  case case10 pos a _ _ hlow ha b c rest hb hc ih =>
    rw [UInt8.lt_iff_toNat_lt] at hlow ha
    exact encode_cons h (encode_of_three (Nat.le_of_not_lt hlow) ha hb hc) ih
  case case19 pos a _ _ _ hlow ha b c d rest hb hc hd ih =>
    rw [UInt8.lt_iff_toNat_lt] at hlow ha
    exact encode_cons h (encode_of_four (Nat.le_of_not_lt hlow) ha hb hc hd) ih
  -- everything else is no encoding of a character
  all_goals cases h

/-- What a text is read as is written as that text. -/
theorem ofString_of_decode {t : Bytes} {s : String} (h : decode t = .ok s) : Bytes.ofString s = t := by
  unfold decode at h
  cases hl : decodeFrom 0 t with
  | error e => rw [hl] at h; cases h
  | ok l =>
    rw [hl] at h
    cases h
    rw [Bytes.ofString_eq_flatMap, String.toList_ofList, encode_decodeFrom hl]

/-! ### Reading what was written -/

theorem byte_lt_iff {a : UInt8} (k : Nat) (hk : k < 256 := by decide) :
    a < OfNat.ofNat k ↔ a.toNat < k := by
  rw [UInt8.lt_iff_toNat_lt]
  show a.toNat < k % 256 ↔ _
  rw [Nat.mod_eq_of_lt hk]

theorem isContinuation_of {b : UInt8} {n : Nat} (hb : b.toNat = n % 64 + 0x80) :
    isContinuation b = true ∧ payload b = n % 64 := by
  have hlt := Nat.mod_lt n (show 64 > 0 by omega)
  unfold isContinuation payload
  rw [Bool.and_eq_true, decide_eq_true_eq, decide_eq_true_eq, UInt8.le_iff_toNat_le,
    UInt8.lt_iff_toNat_lt, hb]
  exact ⟨⟨Nat.le_add_left 128 _, show _ < 192 by omega⟩, by omega⟩

section

variable {a b c d : UInt8} {n : Nat} (pos : Nat) (rest : Bytes)

theorem decodeFrom_one (h : n < 0x80) (ha : a.toNat = n) :
    decodeFrom pos (a :: rest) = (Char.ofNat n :: ·) <$> decodeFrom (pos + 1) rest := by
  conv => lhs; unfold decodeFrom
  rw [if_pos ((byte_lt_iff 0x80).mpr (by omega)), ha]

theorem decodeFrom_two (h : 0x80 ≤ n) (h' : n < 0x800) (ha : a.toNat = n / 64 + 0xC0)
    (hb : b.toNat = n % 64 + 0x80) :
    decodeFrom pos (a :: b :: rest) = (Char.ofNat n :: ·) <$> decodeFrom (pos + 2) rest := by
  obtain ⟨hcb, hpb⟩ := isContinuation_of hb
  have hn : (a.toNat - 0xC0) * 64 + payload b = n := by omega
  rw [decodeFrom, if_neg (mt (byte_lt_iff 0x80).mp (by omega)), if_neg (mt (byte_lt_iff 0xC2).mp (by omega)),
    if_pos ((byte_lt_iff 0xE0).mpr (by omega)), if_pos hcb, hn]

theorem decodeFrom_three (h : 0x800 ≤ n) (h' : n < 0x10000) (hn : n.isValidChar)
    (ha : a.toNat = n / 4096 + 0xE0) (hb : b.toNat = n / 64 % 64 + 0x80)
    (hc : c.toNat = n % 64 + 0x80) :
    decodeFrom pos (a :: b :: c :: rest) = (Char.ofNat n :: ·) <$> decodeFrom (pos + 3) rest := by
  obtain ⟨hcb, hpb⟩ := isContinuation_of hb
  obtain ⟨hcc, hpc⟩ := isContinuation_of hc
  have hsum : ((a.toNat - 0xE0) * 64 + payload b) * 64 + payload c = n := by omega
  -- A second byte below the least one, or of a surrogate, would give another number.
  have hsecond : secondOfThree a b = true := by
    unfold secondOfThree
    unfold Nat.isValidChar at hn
    simp only [hcb, Bool.true_and, Bool.and_eq_true, Bool.not_eq_true', Bool.and_eq_false_iff,
      beq_eq_false_iff_ne, decide_eq_false_iff_not, UInt8.lt_iff_toNat_lt, UInt8.le_iff_toNat_le, ne_eq,
      ← UInt8.toNat_inj, ha, hb]
    constructor
    · by_cases hlow : n / 4096 = 0
      · exact .inr (show ¬ _ < 160 by omega)
      · exact .inl (show ¬ _ = 224 by omega)
    · by_cases hlow : n / 4096 = 13
      · exact .inr (show ¬ 160 ≤ _ by omega)
      · exact .inl (show ¬ _ = 237 by omega)
  rw [decodeFrom, if_neg (mt (byte_lt_iff 0x80).mp (by omega)), if_neg (mt (byte_lt_iff 0xC2).mp (by omega)),
    if_neg (mt (byte_lt_iff 0xE0).mp (by omega)), if_pos ((byte_lt_iff 0xF0).mpr (by omega))]
  dsimp only
  rw [if_pos hsecond, if_pos hcc, hsum]

theorem decodeFrom_four (h : 0x10000 ≤ n) (h' : n < 0x110000)
    (ha : a.toNat = n / 262144 + 0xF0) (hb : b.toNat = n / 4096 % 64 + 0x80)
    (hc : c.toNat = n / 64 % 64 + 0x80) (hd : d.toNat = n % 64 + 0x80) :
    decodeFrom pos (a :: b :: c :: d :: rest) = (Char.ofNat n :: ·) <$> decodeFrom (pos + 4) rest := by
  obtain ⟨hcb, hpb⟩ := isContinuation_of hb
  obtain ⟨hcc, hpc⟩ := isContinuation_of hc
  obtain ⟨hcd, hpd⟩ := isContinuation_of hd
  have hsum : (((a.toNat - 0xF0) * 64 + payload b) * 64 + payload c) * 64 + payload d = n := by omega
  have hsecond : secondOfFour a b = true := by
    unfold secondOfFour
    simp only [hcb, Bool.true_and, Bool.and_eq_true, Bool.not_eq_true', Bool.and_eq_false_iff,
      beq_eq_false_iff_ne, decide_eq_false_iff_not, UInt8.lt_iff_toNat_lt, UInt8.le_iff_toNat_le, ne_eq,
      ← UInt8.toNat_inj, ha, hb]
    constructor
    · by_cases hlow : n / 262144 = 0
      · exact .inr (show ¬ _ < 144 by omega)
      · exact .inl (show ¬ _ = 240 by omega)
    · by_cases hlow : n / 262144 = 4
      · exact .inr (show ¬ 144 ≤ _ by omega)
      · exact .inl (show ¬ _ = 244 by omega)
  rw [decodeFrom, if_neg (mt (byte_lt_iff 0x80).mp (by omega)), if_neg (mt (byte_lt_iff 0xC2).mp (by omega)),
    if_neg (mt (byte_lt_iff 0xE0).mp (by omega)), if_neg (mt (byte_lt_iff 0xF0).mp (by omega)),
    if_pos ((byte_lt_iff 0xF5).mpr (by omega))]
  dsimp only
  rw [if_pos hsecond, if_pos hcc, if_pos hcd, hsum]

end

/-- The bytes of a character are read as that character. -/
theorem decodeFrom_encodeChar (c : Char) (pos : Nat) (rest : Bytes) :
    ∃ size, decodeFrom pos (String.utf8EncodeChar c ++ rest) =
      (c :: ·) <$> decodeFrom (pos + size) rest := by
  obtain ⟨n, hn, rfl⟩ : ∃ n : Nat, n.isValidChar ∧ c = Char.ofNat n :=
    ⟨c.toNat, c.valid, (Char.ofNat_toNat c).symm⟩
  have hbyte : ∀ {m : Nat}, m < 256 → (UInt8.ofNat m).toNat = m := fun h => UInt8.toNat_ofNat_of_lt' h
  have htop : n < 0x110000 := by
    unfold Nat.isValidChar at hn
    omega
  by_cases h₁ : n < 0x80
  · rw [encode_one h₁]
    exact ⟨1, decodeFrom_one pos rest h₁ (hbyte (by omega))⟩
  · by_cases h₂ : n < 0x800
    · rw [encode_two (by omega) h₂]
      exact ⟨2, decodeFrom_two pos rest (by omega) h₂ (hbyte (by omega)) (hbyte (by omega))⟩
    · by_cases h₃ : n < 0x10000
      · rw [encode_three (by omega) h₃ hn]
        exact ⟨3, decodeFrom_three pos rest (by omega) h₃ hn (hbyte (by omega)) (hbyte (by omega))
          (hbyte (by omega))⟩
      · rw [encode_four (by omega) htop]
        exact ⟨4, decodeFrom_four pos rest (by omega) htop (hbyte (by omega)) (hbyte (by omega))
          (hbyte (by omega)) (hbyte (by omega))⟩

/-- A character of ASCII is written as one byte, and any other begins with a byte that is none of ASCII. -/
theorem exists_first_byte (c : Char) : ∃ b rest, String.utf8EncodeChar c = b :: rest ∧
    (b.toNat = c.toNat ∧ c.toNat < 0x80 ∨ 0x80 ≤ b.toNat ∧ 0x80 ≤ c.toNat) := by
  obtain ⟨n, hn, rfl⟩ : ∃ n : Nat, n.isValidChar ∧ c = Char.ofNat n :=
    ⟨c.toNat, c.valid, (Char.ofNat_toNat c).symm⟩
  have hbyte : ∀ {m : Nat}, m < 256 → (UInt8.ofNat m).toNat = m := fun h => UInt8.toNat_ofNat_of_lt' h
  have htop : n < 0x110000 := by
    unfold Nat.isValidChar at hn
    omega
  have hc : (Char.ofNat n).toNat = n := toNat_ofNat hn
  rw [hc]
  by_cases h₁ : n < 0x80
  · exact ⟨_, _, encode_one h₁, .inl ⟨hbyte (by omega), h₁⟩⟩
  · by_cases h₂ : n < 0x800
    · exact ⟨_, _, encode_two (by omega) h₂, .inr ⟨by rw [hbyte (by omega)]; omega, by omega⟩⟩
    · by_cases h₃ : n < 0x10000
      · exact ⟨_, _, encode_three (by omega) h₃ hn, .inr ⟨by rw [hbyte (by omega)]; omega, by omega⟩⟩
      · exact ⟨_, _, encode_four (by omega) htop, .inr ⟨by rw [hbyte (by omega)]; omega, by omega⟩⟩

/-- What is written is read as it was. -/
theorem decode_ofString (s : String) : decode (Bytes.ofString s) = .ok s := by
  have key : ∀ (l : List Char) (pos : Nat),
      decodeFrom pos (l.flatMap String.utf8EncodeChar) = .ok l := by
    intro l
    induction l with
    | nil => exact fun _ => rfl
    | cons c more ih =>
      intro pos
      obtain ⟨size, hc⟩ := decodeFrom_encodeChar c pos (more.flatMap String.utf8EncodeChar)
      rw [List.flatMap_cons, hc, ih]
      rfl
  unfold decode
  rw [Bytes.ofString_eq_flatMap, key]
  exact congrArg Except.ok String.ofList_toList

/-- A character is one ASCII byte, or its last byte begins none, and the one before that one of three bytes. -/
theorem encode_ends (c : Char) : (∃ a, String.utf8EncodeChar c = [a] ∧ a < 0x80) ∨
    ∃ v a b, String.utf8EncodeChar c = v ++ [a, b] ∧ a < 0xE0 ∧ b < 0xC0 := by
  have hc : c = Char.ofNat c.toNat := (Char.ofNat_toNat c).symm
  have hvalid : c.toNat.isValidChar := c.valid
  have hmax : c.toNat < 0x110000 := by
    rcases hvalid with h | h
    · omega
    · exact h.2
  have hlt : ∀ {n m : Nat}, n < m → m < 256 → UInt8.ofNat n < UInt8.ofNat m := by
    intro n m hn hm
    rw [UInt8.lt_iff_toNat_lt, UInt8.toNat_ofNat', UInt8.toNat_ofNat', Nat.mod_eq_of_lt hm]
    exact Nat.lt_of_le_of_lt (Nat.mod_le _ _) hn
  rw [hc]
  generalize c.toNat = n at hvalid hmax
  by_cases h₁ : n < 0x80
  · exact .inl ⟨_, encode_one h₁, hlt h₁ (by decide)⟩
  by_cases h₂ : n < 0x800
  · exact .inr ⟨[], _, _, encode_two (by omega) h₂, hlt (m := 0xE0) (by omega) (by decide),
      hlt (m := 0xC0) (by omega) (by decide)⟩
  by_cases h₃ : n < 0x10000
  · exact .inr ⟨[_], _, _, encode_three (by omega) h₃ hvalid, hlt (m := 0xE0) (by omega) (by decide),
      hlt (m := 0xC0) (by omega) (by decide)⟩
  · exact .inr ⟨[_, _], _, _, encode_four (by omega) hmax, hlt (m := 0xE0) (by omega) (by decide),
      hlt (m := 0xC0) (by omega) (by decide)⟩

end Utf8

namespace Bytes

/-- Whether no character goes on behind a text: neither does its last byte begin one, nor the one before that one
of three bytes. -/
def EndsCharacter (w : Bytes) : Prop :=
  (∀ a, [a] <:+ w → a < 0xC0) ∧ ∀ a b, [a, b] <:+ w → a < 0xE0

theorem EndsCharacter.suffix {v w : Bytes} (h : EndsCharacter w) (hv : v <:+ w) : EndsCharacter v :=
  ⟨fun a ha => h.1 a (ha.trans hv), fun a b hab => h.2 a b (hab.trans hv)⟩

/-- What is written of characters ends with one. -/
theorem endsCharacter_ofString (s : String) : EndsCharacter (ofString s) := by
  rw [ofString_eq_flatMap]
  induction s.toList using List.reverseRecOn with
  | nil => exact ⟨fun a ha => absurd (List.suffix_nil.mp ha) (by simp),
      fun a b hab => absurd (List.suffix_nil.mp hab) (by simp)⟩
  | append_singleton l c ih =>
    rw [List.flatMap_append, List.flatMap_singleton]
    generalize l.flatMap String.utf8EncodeChar = t at ih ⊢
    rcases Utf8.encode_ends c with ⟨x, hc, hx⟩ | ⟨v, x, y, hc, hx, hy⟩
    · rw [hc]
      refine ⟨?_, ?_⟩
      · rintro a ⟨u, hu⟩
        obtain ⟨-, heq⟩ := List.append_inj' hu rfl
        obtain rfl := (List.cons.inj heq).1
        exact UInt8.lt_trans hx (by decide)
      · -- the byte before it ends a character
        rintro a b ⟨u, hu⟩
        rw [List.append_cons] at hu
        obtain ⟨hu, -⟩ := List.append_inj' hu rfl
        exact UInt8.lt_trans (ih.1 a ⟨u, hu⟩) (by decide)
    · rw [hc, ← List.append_assoc]
      refine ⟨?_, ?_⟩
      · rintro a ⟨u, hu⟩
        rw [List.append_cons _ x] at hu
        obtain ⟨-, heq⟩ := List.append_inj' hu rfl
        obtain rfl := (List.cons.inj heq).1
        exact hy
      · rintro a b ⟨u, hu⟩
        obtain ⟨-, heq⟩ := List.append_inj' hu rfl
        obtain rfl := (List.cons.inj heq).1
        exact hx

end Bytes
end Codemod
