import Codemod.Json.Printer
import Codemod.Proofs.ScalarReading
import Codemod.Proofs.ShortestDecimals

/-!
# Numbers are read as they were written

A written number is a sign, whole digits, and possibly a fraction and an exponent. Whole numbers have neither of these
two and are read exactly. Of a finite floating-point number the fewest digits are written that stand for a decimal in
the interval around it; wherever its point was put, reading the text gives the number back.

Main statements:

* `scalar?_int` says this of whole numbers with as many digits as are read;
* `scalar?_real` says this of finite numbers.
-/

namespace Codemod.Json

open Decimal (Binary64)

/-! ### Digits -/

section

variable {ds rest : List Char} {c : Char}

theorem isDigit_eq (c : Char) : isDigit c = c.isDigit := by
  simp [isDigit, Char.isDigit, Char.le_def]

theorem ofDigits_digitValues (cs : List Char) : Decimal.ofDigits (digitValues cs) = Nat.ofDigitChars 10 cs 0 := by
  rw [Decimal.ofDigits, digitValues, List.foldl_map, Nat.ofDigitChars_eq_foldl]
  simp only [Nat.mul_comm]
  rfl

/-- Whether no digit comes first. -/
def DigitsEnd (rest : List Char) : Prop :=
  ∀ c ∈ rest.head?, c.isDigit = false

theorem takeWhile_digits (hds : ∀ c ∈ ds, c.isDigit = true) (hrest : DigitsEnd rest) :
    (ds ++ rest).takeWhile isDigit = ds ∧ (ds ++ rest).dropWhile isDigit = rest := by
  have hall : ∀ c ∈ ds, isDigit c = true := fun c hc => by rw [isDigit_eq, hds c hc]
  rw [List.takeWhile_append_of_pos hall, List.dropWhile_append_of_pos hall]
  cases rest with
  | nil => simp
  | cons c rest =>
    have hc : isDigit c = false := by rw [isDigit_eq, hrest c rfl]
    simp [hc]

/-- Digits that are read as the whole part of a number: a single zero, or digits of which the first is no zero. -/
inductive IsWhole : List Char → Prop
  | zero : IsWhole ['0']
  | digits {d : Char} {ds : List Char} (hd : d ≠ '0') (hds : ∀ c ∈ d :: ds, c.isDigit = true) : IsWhole (d :: ds)

/-- The digits of a number. -/
theorem isWhole_digits (n : Nat) : IsWhole (Decimal.digits n) := by
  rcases Nat.eq_zero_or_pos n with rfl | hn
  · exact .zero
  · obtain ⟨d, ds, hds, hd⟩ := Decimal.exists_digits_cons hn.ne'
    rw [hds]
    exact .digits hd fun c hc => Decimal.isDigit_of_mem_digits (hds ▸ hc)

/-! ### Parts of a number -/

variable {negative : Bool} {opening w : List Char} {e : Int}

theorem readNumber_whole (hw : IsWhole w) (hrest : DigitsEnd rest) :
    readNumber negative opening (w ++ rest) = readBehind negative w rest := by
  cases hw with
  | zero => rfl
  | @digits d ds hd hds =>
    obtain ⟨htake, hdrop⟩ := takeWhile_digits hds hrest
    have hother : ∀ more, d :: ds ++ rest ≠ '0' :: more := by
      intro more h
      exact hd (List.cons.inj h).1
    rw [readNumber_of_cons hother htake, hdrop]

theorem readFraction_digits {f : List Char} (hne : f ≠ []) (hf : ∀ c ∈ f, c.isDigit = true) (hrest : DigitsEnd rest) :
    readFraction ('.' :: (f ++ rest)) = (f, rest) := by
  obtain ⟨htake, hdrop⟩ := takeWhile_digits hf hrest
  simp only [readFraction, htake, hdrop]

theorem readFraction_none (hrest : ∀ more, rest ≠ '.' :: more) : readFraction rest = ([], rest) := by
  unfold readFraction
  split
  · exact absurd rfl (hrest _)
  · rfl

/-- The digits of an exponent. -/
theorem exponentDigits (n : Nat) : ∃ d ds,
    (if (Decimal.digits n).length < 2 then '0' :: Decimal.digits n else Decimal.digits n) = d :: ds ∧
    (∀ c ∈ d :: ds, c.isDigit = true) ∧ Nat.ofDigitChars 10 (d :: ds) 0 = n := by
  have hvalue : Nat.ofDigitChars 10 (Decimal.digits n) 0 = n := Nat.ofDigitChars_ten_toDigits
  have hall : ∀ c ∈ Decimal.digits n, c.isDigit = true := fun c hc => Decimal.isDigit_of_mem_digits hc
  split
  · refine ⟨'0', Decimal.digits n, rfl, List.forall_mem_cons.mpr ⟨rfl, hall⟩, ?_⟩
    rw [Nat.ofDigitChars_cons]
    exact hvalue
  · cases hds : Decimal.digits n with
    | nil => exact absurd hds Nat.toDigits_ne_nil
    | cons d ds =>
      rw [hds] at hvalue hall
      exact ⟨d, ds, rfl, hall, hvalue⟩

theorem readExponent_exponentText (e : Int) : readExponent (Binary64.exponentText e) = some (e, []) := by
  obtain ⟨d, ds, hdigits, hall, hvalue⟩ := exponentDigits e.natAbs
  have hends : DigitsEnd [] := by simp [DigitsEnd]
  obtain ⟨htake, hdrop⟩ := takeWhile_digits hall hends
  rw [List.append_nil] at htake hdrop
  unfold Binary64.exponentText
  dsimp only
  rw [hdigits]
  rcases Int.lt_or_le e 0 with hneg | hpos
  · rw [if_pos hneg]
    simp only [readExponent, htake, hdrop, ofDigits_digitValues, hvalue]
    simp [abs_of_neg hneg]
  · rw [if_neg (by omega)]
    simp only [readExponent, htake, hdrop, ofDigits_digitValues, hvalue]
    simp [abs_of_nonneg hpos]

/-- What may stand behind the digits of a number that is not whole: nothing, or an exponent. -/
inductive IsExponent : List Char → Int → Prop
  | none : IsExponent [] 0
  | some (e : Int) : IsExponent (Binary64.exponentText e) e

theorem IsExponent.digitsEnd (h : IsExponent rest e) : DigitsEnd rest := by
  cases h with
  | none => simp [DigitsEnd]
  | some e =>
    rintro c hc
    obtain rfl := Option.some.inj hc
    rfl

/-- A number with a fraction is that of its digits. -/
theorem readNumber_fraction {f : List Char} (hw : IsWhole w) (hne : f ≠ []) (hf : ∀ c ∈ f, c.isDigit = true)
    (hrest : IsExponent rest e) : readNumber negative opening (w ++ '.' :: (f ++ rest)) =
      .ok (.real (.ofDecimal negative (Nat.ofDigitChars 10 (w ++ f) 0) (e - f.length)), []) := by
  have hpoint : DigitsEnd ('.' :: (f ++ rest)) := by
    rintro c hc
    obtain rfl := Option.some.inj hc
    rfl
  have hempty : f.isEmpty = false := by simpa using hne
  rw [readNumber_whole hw hpoint]
  unfold readBehind
  rw [readFraction_digits hne hf hrest.digitsEnd]
  cases hrest with
  | none => simp [readExponent, hempty, ofDigits_digitValues]
  | some e => simp [readExponent_exponentText, ofDigits_digitValues]

/-- A number with an exponent and without a fraction is that of its digits. -/
theorem readNumber_exponent (hw : IsWhole w) (e : Int) :
    readNumber negative opening (w ++ Binary64.exponentText e) =
      .ok (.real (.ofDecimal negative (Nat.ofDigitChars 10 w 0) e), []) := by
  have hpoint : ∀ more, Binary64.exponentText e ≠ '.' :: more := by
    intro more h
    cases h
  rw [readNumber_whole hw (IsExponent.some e).digitsEnd]
  unfold readBehind
  rw [readFraction_none hpoint]
  simp [readExponent_exponentText, ofDigits_digitValues]

/-- A number without a fraction and without an exponent is whole. -/
theorem readNumber_digits (hw : IsWhole w) (hlimit : w.length ≤ Text.digitLimit) :
    readNumber negative opening w =
      .ok (.int (if negative then -(Nat.ofDigitChars 10 w 0 : Int) else Nat.ofDigitChars 10 w 0), []) := by
  have hread : readNumber negative opening (w ++ []) = readBehind negative w [] :=
    readNumber_whole hw IsExponent.none.digitsEnd
  rw [List.append_nil] at hread
  rw [hread]
  have hshort : ¬ Text.digitLimit < w.length := by omega
  simp [readBehind, readFraction, readExponent, hshort, ofDigits_digitValues]

end

/-! ### Magnitudes -/

/-- Whether a text is read as the number of a decimal with a value, whatever its sign. -/
def Denotes (cs : List Char) (x : ℚ) : Prop :=
  ∃ (n : Nat) (e : Int), (n * 10 ^ e : ℚ) = x ∧
    ∀ negative opening, readNumber negative opening cs = .ok (.real (.ofDecimal negative n e), [])

section

variable {d : Char} {ds w f rest : List Char} {place e : Int} {x : ℚ}

theorem denotes_fraction (hw : IsWhole w) (hne : f ≠ []) (hf : ∀ c ∈ f, c.isDigit = true) (hrest : IsExponent rest e)
    (hx : (Nat.ofDigitChars 10 (w ++ f) 0 * 10 ^ (e - f.length) : ℚ) = x) : Denotes (w ++ '.' :: (f ++ rest)) x :=
  ⟨_, _, hx, fun _ _ => readNumber_fraction hw hne hf hrest⟩

/-- Digits with a point stand for the same decimal, wherever the point was put. -/
theorem denotes_positional (hd : d ≠ '0') (hds : ∀ c ∈ d :: ds, c.isDigit = true) (place : Int) :
    Denotes (Binary64.positional (d :: ds) place)
      (Nat.ofDigitChars 10 (d :: ds) 0 * 10 ^ (place - (d :: ds).length)) := by
  have hzeros : ∀ n, ∀ c ∈ List.replicate n '0', c.isDigit = true := by
    intro n c hc
    rw [List.eq_of_mem_replicate hc]
    rfl
  unfold Binary64.positional
  dsimp only
  split_ifs with hneg hlong
  · -- The point and zeros stand before the digits.
    have hsplit : '0' :: '.' :: List.replicate (-place).toNat '0' ++ d :: ds =
        ['0'] ++ '.' :: ((List.replicate (-place).toNat '0' ++ d :: ds) ++ []) := by simp
    rw [hsplit]
    apply denotes_fraction .zero (by simp) _ .none
    · have hfirst : ['0'] ++ (List.replicate (-place).toNat '0' ++ d :: ds) =
          List.replicate ((-place).toNat + 1) '0' ++ d :: ds := by
        rw [List.replicate_succ]
        simp
      rw [hfirst, Nat.ofDigitChars_append, Nat.ofDigitChars_replicate_zero, Nat.mul_zero]
      congr 2
      rw [List.length_append, List.length_replicate]
      omega
    · exact List.forall_mem_append.mpr ⟨hzeros _, hds⟩
  · -- Zeros and the point stand behind the digits.
    obtain ⟨j, hj⟩ : ∃ j, place.toNat = (d :: ds).length + j := ⟨place.toNat - (d :: ds).length, by omega⟩
    rw [hj, Nat.add_sub_cancel_left]
    have hsplit : d :: ds ++ List.replicate j '0' ++ ['.', '0'] =
        (d :: (ds ++ List.replicate j '0')) ++ '.' :: (['0'] ++ []) := by simp
    rw [hsplit]
    apply denotes_fraction (.digits hd _) (by simp) (by simp) .none
    · have hlast : d :: (ds ++ List.replicate j '0') ++ ['0'] = d :: ds ++ List.replicate (j + 1) '0' := by
        rw [List.replicate_succ']
        simp
      have hplace : place - (d :: ds).length = j := by omega
      rw [hlast, Nat.ofDigitChars_append, Nat.ofDigitChars_replicate_zero, hplace]
      simp
      ring
    · rw [← List.cons_append]
      exact List.forall_mem_append.mpr ⟨hds, hzeros j⟩
  · -- The point stands between two digits.
    obtain ⟨n, hn⟩ : ∃ n, place.toNat = n + 1 := ⟨place.toNat - 1, by omega⟩
    have hsplit : (d :: ds).take place.toNat ++ '.' :: (d :: ds).drop place.toNat =
        (d :: ds.take n) ++ '.' :: (ds.drop n ++ []) := by simp [hn]
    rw [List.length_cons] at hlong
    have hne : ds.drop n ≠ [] := by
      rw [Ne, List.drop_eq_nil_iff]
      omega
    obtain ⟨hfirst, hmore⟩ := List.forall_mem_cons.mp hds
    rw [hsplit]
    apply denotes_fraction (.digits hd _) hne _ .none
    · rw [List.cons_append, List.take_append_drop]
      congr 2
      rw [List.length_drop, List.length_cons]
      omega
    · exact List.forall_mem_cons.mpr ⟨hfirst, fun c hc => hmore c (List.mem_of_mem_take hc)⟩
    · exact fun c hc => hmore c (List.mem_of_mem_drop hc)

/-- Digits with an exponent stand for the same decimal. -/
theorem denotes_scientific (hd : d ≠ '0') (hds : ∀ c ∈ d :: ds, c.isDigit = true) (place : Int) :
    Denotes (Binary64.scientific (d :: ds) place)
      (Nat.ofDigitChars 10 (d :: ds) 0 * 10 ^ (place - (d :: ds).length)) := by
  obtain ⟨hfirst, hmore⟩ := List.forall_mem_cons.mp hds
  have hwhole : IsWhole [d] := .digits hd (by simp [hfirst])
  cases ds with
  | nil => exact ⟨_, _, rfl, fun _ _ => readNumber_exponent hwhole (place - 1)⟩
  | cons a ds =>
    apply denotes_fraction hwhole (List.cons_ne_nil a ds) hmore (.some (place - 1))
    rw [List.singleton_append, List.length_cons (a := d)]
    congr 2
    omega

/-- The text of a magnitude is read as a number with this magnitude. -/
theorem readNumber_magnitudeText {m : Nat} {q : Int} (hproper : Binary64.Proper m q) (negative : Bool)
    (opening : List Char) :
    readNumber negative opening (Binary64.magnitudeText m q) = .ok (.real (.finite negative m q), []) := by
  rcases Nat.eq_zero_or_pos m with rfl | hm
  · have hleast : q = Binary64.minExponent := by
      have hlow := hproper.low
      by_contra hne
      have hfull := hproper.full (by omega)
      exact absurd hfull (by decide)
    rw [hleast]
    rfl
  · obtain ⟨d, ds, place, hshortest, hd, hds, hwithin⟩ := Binary64.exists_shortest hproper hm.ne'
    have hdenotes : Denotes (Binary64.magnitudeText m q)
        (Nat.ofDigitChars 10 (d :: ds) 0 * 10 ^ (place - (d :: ds).length)) := by
      unfold Binary64.magnitudeText
      rw [hshortest]
      dsimp only
      split
      · exact denotes_positional hd hds place
      · exact denotes_scientific hd hds place
    obtain ⟨n, e, hx, hread⟩ := hdenotes
    rw [hread, Binary64.ofDecimal_of_within negative hproper hm.ne' (hx ▸ hwithin)]

end

/-! ### Signs -/

section

variable {d : Char} {cs : List Char} {v : Value}

/-- A digit begins a number, not a word. -/
theorem readWord_digit (hd : d.isDigit = true) : readWord (d :: cs) = none ∧ readWord ('-' :: d :: cs) = none := by
  have hne : ∀ c : Char, c.isDigit = false → c ≠ d := by
    rintro c hc rfl
    rw [hd] at hc
    cases hc
  have hminus := hne '-' rfl
  simp [readWord, words, dropWord?, hne 'n' rfl, hne 't' rfl, hne 'f' rfl, hne 'N' rfl, hne 'I' rfl, hne '-' rfl]

theorem readScalar_digit (hd : d.isDigit = true) : readScalar (d :: cs) = readNumber false (d :: cs) (d :: cs) := by
  unfold readScalar
  rw [(readWord_digit hd).1]
  dsimp only
  split
  · rename_i hminus
    obtain ⟨rfl, -⟩ := List.cons.inj hminus
    cases hd
  · rfl

theorem readScalar_minus (hd : d.isDigit = true) :
    readScalar ('-' :: d :: cs) = readNumber true ('-' :: d :: cs) (d :: cs) := by
  unfold readScalar
  rw [(readWord_digit hd).2]
  rfl

/-- A number begins with a digit. -/
theorem exists_digit_of_readNumber {negative : Bool} {opening rest : List Char}
    (h : readNumber negative opening cs = .ok (v, rest)) : ∃ d more, cs = d :: more ∧ d.isDigit = true := by
  cases cs with
  | nil => cases h
  | cons d more =>
    refine ⟨d, more, rfl, ?_⟩
    by_contra hd
    have hother : ∀ rest, d :: more ≠ '0' :: rest := by
      intro rest heq
      obtain ⟨rfl, -⟩ := List.cons.inj heq
      exact hd rfl
    have hnone : (d :: more).takeWhile isDigit = [] := by
      rw [← isDigit_eq] at hd
      simp [hd]
    rw [readNumber_of_nil hother hnone] at h
    cases h

/-- A number is read with its sign. -/
theorem scalar?_sign {negative : Bool} (hread : ∀ opening, readNumber negative opening cs = .ok (v, [])) :
    scalar? (Binary64.signText negative ++ cs) = some v := by
  obtain ⟨d, more, rfl, hd⟩ := exists_digit_of_readNumber (hread [])
  apply scalar?_eq_some_iff.mpr
  cases negative with
  | false => exact (readScalar_digit hd).trans (hread _)
  | true => exact (readScalar_minus hd).trans (hread _)

end

/-- A finite number is read as it was written. -/
theorem scalar?_real {negative : Bool} {m : Nat} {q : Int} (hproper : Binary64.Proper m q) (infinity nan : String) :
    scalar? ((Binary64.finite negative m q).textWith infinity nan).toList = some (.real (.finite negative m q)) := by
  rw [Binary64.textWith, String.toList_ofList]
  exact scalar?_sign (readNumber_magnitudeText hproper negative)

theorem toList_toString (i : Int) :
    (toString i).toList = Binary64.signText (decide (i < 0)) ++ Decimal.digits i.natAbs := by
  cases i with
  | ofNat n =>
    show (toString n).toList = _
    rw [Nat.toString_eq_ofList_toDigits, String.toList_ofList]
    simp [Binary64.signText, Decimal.digits]
  | negSucc n =>
    show ("-" ++ toString (n + 1)).toList = _
    have hminus : "-".toList = ['-'] := rfl
    rw [Nat.toString_eq_ofList_toDigits, String.toList_append, hminus, String.toList_ofList]
    simp [Binary64.signText, Decimal.digits, Int.negSucc_lt_zero]

/-- A whole number is read as it was written, unless it has more digits than are read. -/
theorem scalar?_int {i : Int} (hlimit : (Decimal.digits i.natAbs).length ≤ Text.digitLimit) :
    scalar? (toString i).toList = some (.int i) := by
  rw [toList_toString]
  apply scalar?_sign
  intro opening
  have hvalue : Nat.ofDigitChars 10 (Decimal.digits i.natAbs) 0 = i.natAbs := Nat.ofDigitChars_ten_toDigits
  rw [readNumber_digits (isWhole_digits _) hlimit, hvalue]
  rcases Int.lt_or_le i 0 with hneg | hpos
  · simp [hneg, abs_of_neg hneg]
  · simp [hpos.not_gt, abs_of_nonneg hpos]

end Codemod.Json
