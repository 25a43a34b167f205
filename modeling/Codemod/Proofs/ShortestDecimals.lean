import Codemod.Proofs.NearestNumbers
import Mathlib.Tactic.IntervalCases

/-!
# The fewest digits that read back

A finite number is written with the fewest decimal digits for which a decimal lies in the interval around it. The search
for them goes up to seventeen digits and is never in vain: a decimal with so many digits, the first one at the place
where the number begins, is nearer to the number than half the distance to its neighbours.

Main statements:

* `ten_zpow_decimalPlace_le` says that the place of the first digit is not beyond the number;
* `exists_candidate` says that seventeen digits suffice;
* `exists_shortest` says that the digits which are found stand for a decimal in the interval.
-/

namespace Codemod.Decimal

/-! ### Digits of a number -/

/-- The digits of a number other than zero do not begin with a zero. -/
theorem exists_digits_cons {n : Nat} (hn : n ≠ 0) : ∃ d ds, digits n = d :: ds ∧ d ≠ '0' := by
  induction n using Nat.strongRecOn with
  | _ n ih =>
    rcases Nat.lt_or_ge n 10 with hlt | hge
    · refine ⟨Nat.digitChar n, [], Nat.toDigits_of_lt_base hlt, ?_⟩
      interval_cases n <;> first | exact absurd rfl hn | decide
    · obtain ⟨d, ds, hds, hd⟩ := ih (n / 10) (by omega) (by omega)
      refine ⟨d, ds ++ [Nat.digitChar (n % 10)], ?_, hd⟩
      rw [digits, Nat.toDigits_of_base_le (by decide) hge, ← digits, hds, List.cons_append]

theorem isDigit_of_mem_digits {n : Nat} {c : Char} (h : c ∈ digits n) : c.isDigit = true :=
  Nat.isDigit_of_mem_toDigits (by decide) (by decide) h

/-- Zeros at the end of digits are a power of ten. -/
theorem exists_trimmed (ds : List Char) :
    ∃ k, ds = (ds.reverse.dropWhile (· == '0')).reverse ++ List.replicate k '0' := by
  refine ⟨(ds.reverse.takeWhile (· == '0')).length, ?_⟩
  have hzeros : ds.reverse.takeWhile (· == '0') = List.replicate (ds.reverse.takeWhile (· == '0')).length '0' := by
    rw [List.eq_replicate_iff]
    refine ⟨rfl, fun c hc => ?_⟩
    simpa using List.all_eq_true.mp List.all_takeWhile c hc
  rw [← List.reverse_inj, List.reverse_append, List.reverse_reverse, List.reverse_replicate, ← hzeros,
    List.takeWhile_append_dropWhile]

namespace Binary64

section

variable {num den m : Nat} {q k : Int} {x : ℚ}

/-! ### The place of the first digit -/

/-- The logarithm of two is less than 0.30103. -/
theorem ten_zpow_le_two_zpow {a : Int} (hlow : -20000 ≤ a) (hhigh : a ≤ 20000) (hk : k * 100000 ≤ a * 30103) :
    (10 : ℚ) ^ (k - 1) ≤ 2 ^ a := by
  rcases le_or_gt 0 (k - 1) with hpos | hneg
  · -- Fifty-nine decimal digits need no more than 196 bits.
    obtain ⟨i, hi⟩ := Int.eq_ofNat_of_zero_le hpos
    obtain ⟨j, hj⟩ := Int.eq_ofNat_of_zero_le (show 0 ≤ a by omega)
    rw [hi, hj, zpow_natCast, zpow_natCast]
    apply le_of_pow_le_pow_left₀ (n := 59) (by decide) (by positivity)
    calc ((10 : ℚ) ^ i) ^ 59
        = (10 ^ 59) ^ i := by rw [← pow_mul, ← pow_mul, mul_comm]
      _ ≤ (2 ^ 196) ^ i := by gcongr; norm_num
      _ = 2 ^ (196 * i) := by rw [← pow_mul]
      _ ≤ 2 ^ (j * 59) := pow_le_pow_right₀ (by norm_num) (by omega)
      _ = (2 ^ j) ^ 59 := by rw [← pow_mul]
  · rcases le_or_gt 0 a with ha | ha
    · calc (10 : ℚ) ^ (k - 1)
          ≤ 10 ^ (0 : Int) := zpow_le_zpow_right₀ (by norm_num) hneg.le
        _ = 2 ^ (0 : Int) := by rw [zpow_zero, zpow_zero]
        _ ≤ 2 ^ a := zpow_le_zpow_right₀ (by norm_num) ha
    · -- Ninety-three bits need no more than twenty-eight decimal digits.
      obtain ⟨i, hi⟩ := Int.eq_ofNat_of_zero_le (show 0 ≤ -(k - 1) by omega)
      obtain ⟨j, hj⟩ := Int.eq_ofNat_of_zero_le (show 0 ≤ -a by omega)
      rw [← inv_le_inv₀ (two_zpow_pos _) (ten_zpow_pos _), ← zpow_neg, ← zpow_neg, hi, hj, zpow_natCast,
        zpow_natCast]
      apply le_of_pow_le_pow_left₀ (n := 93) (by decide) (by positivity)
      calc ((2 : ℚ) ^ j) ^ 93
          = (2 ^ 93) ^ j := by rw [← pow_mul, ← pow_mul, mul_comm]
        _ ≤ (10 ^ 28) ^ j := by gcongr; norm_num
        _ = 10 ^ (28 * j) := by rw [← pow_mul]
        _ ≤ 10 ^ (i * 93) := pow_le_pow_right₀ (by norm_num) (by omega)
        _ = (10 ^ i) ^ 93 := by rw [← pow_mul]

/-- A place that is not beyond a number is not left for one that is. -/
theorem ten_zpow_decimalPlaceFrom_le (hden : 0 < den) (fuel : Nat) (hk : (10 : ℚ) ^ (k - 1) ≤ num / den) :
    (10 : ℚ) ^ (decimalPlaceFrom num den fuel k - 1) ≤ num / den := by
  induction fuel generalizing k with
  | zero => exact hk
  | succ fuel ih =>
    obtain ⟨hd, hratio⟩ := scaleDecimal_ratio num hden (-k)
    have hpos : (0 : ℚ) < (scaleDecimal num den (-k)).2 := by exact_mod_cast hd
    unfold decimalPlaceFrom
    dsimp only
    split
    · exact hk
    · rename_i hge
      apply ih
      have hone : (1 : ℚ) ≤ (scaleDecimal num den (-k)).1 / (scaleDecimal num den (-k)).2 := by
        rw [one_le_div hpos]
        exact_mod_cast Nat.le_of_not_lt hge
      rw [hratio, zpow_neg, ← div_eq_mul_inv, one_le_div (ten_zpow_pos k)] at hone
      rwa [Int.add_sub_cancel]

/-- The place of the first digit is not beyond the number. -/
theorem ten_zpow_decimalPlace_le (hnum : 0 < num) (hden : 0 < den) (hlow : -20000 < Int.log 2 (num / den : ℚ))
    (hhigh : Int.log 2 (num / den : ℚ) < 20000) : (10 : ℚ) ^ (decimalPlace num den - 1) ≤ num / den := by
  have hx : (0 : ℚ) < num / den := by positivity
  obtain ⟨hbelow, habove⟩ := log_ratio hnum hden
  apply ten_zpow_decimalPlaceFrom_le hden
  generalize (Nat.log2 num : Int) - Nat.log2 den = a at *
  calc (10 : ℚ) ^ ((a - 1) * 30103 / 100000 - 1)
      ≤ 2 ^ (a - 1) := ten_zpow_le_two_zpow (by omega) (by omega) (by omega)
    _ ≤ num / den := (two_zpow_le_iff hx).mpr hbelow

/-! ### Seventeen digits suffice -/

/-- A decimal with so many digits around a number, and another one. -/
theorem candidate_eq (m : Nat) (q k : Int) (count : Nat) : ∃ other,
    let e := k - count
    let x := scaleDecimal (ratio m q).1 (ratio m q).2 (-e)
    let near := roundDiv x.1 x.2
    candidate m q k count =
      if readsBack m q near e then some (near, e) else if readsBack m q other e then some (other, e) else none :=
  ⟨_, rfl⟩

theorem readsBack_of_candidate {count : Nat} {r : Nat × Int} (h : candidate m q k count = some r) :
    readsBack m q r.1 r.2 = true := by
  obtain ⟨other, heq⟩ := candidate_eq m q k count
  dsimp only at heq
  rw [heq] at h
  split_ifs at h with hnear hother <;>
  · obtain rfl := Option.some.inj h
    assumption

/-- A rounded quotient is at most half a unit away from it. -/
theorem cast_roundDiv_near (num : Nat) (hden : 0 < den) :
    (roundDiv num den : ℚ) - 1 / 2 ≤ num / den ∧ (num / den : ℚ) ≤ roundDiv num den + 1 / 2 := by
  have hpos : (0 : ℚ) < den := by exact_mod_cast hden
  obtain ⟨hlow, hhigh⟩ := roundDiv_near num den hden
  have hlow' : (2 * (roundDiv num den * den) : ℚ) ≤ 2 * num + den := by exact_mod_cast hlow
  have hhigh' : (2 * num : ℚ) ≤ 2 * (roundDiv num den * den) + den := by exact_mod_cast hhigh
  rw [le_div_iff₀ hpos, div_le_iff₀ hpos]
  constructor <;> linarith

/-- What is less than half the distance away from a number lies in the interval around it. -/
theorem within_of_near (hm : m ≠ 0) (hlow : (m * 2 ^ q - x) * (if m = leastFull then 4 else 2) < 2 ^ q)
    (hhigh : (x - m * 2 ^ q) * 2 < 2 ^ q) : Within m q x := by
  have hscale : (2 : ℚ) ^ (q - 2) = 2 ^ q / 4 := by rw [zpow_sub₀ (by norm_num)]; norm_num
  have hpow := two_zpow_pos q
  have hquarters :
      (lowQuarters m q : ℚ) * (2 ^ q / 4) ≤ (4 * m - 4 / (if m = leastFull then 4 else 2)) * (2 ^ q / 4) := by
    apply mul_le_mul_of_nonneg_right _ (by positivity)
    have hnat : lowQuarters m q + (if m = leastFull then 1 else 2) ≤ 4 * m := by
      unfold lowQuarters
      split <;> split <;> simp_all <;> omega
    have hcast : (lowQuarters m q : ℚ) + (if m = leastFull then 1 else 2) ≤ 4 * m := by
      have h := (Nat.cast_le (α := ℚ)).mpr hnat
      push_cast at h
      exact h
    split_ifs at hcast ⊢ <;> linarith
  have hstrict : lowQuarters m q * 2 ^ (q - 2) < x ∧ x < (4 * m + 2) * 2 ^ (q - 2) := by
    rw [hscale]
    constructor
    · apply hquarters.trans_lt
      split_ifs at hlow ⊢ <;> linarith
    · linarith
  exact ⟨hstrict.1.le, hstrict.2.le, fun _ => hstrict⟩

/-- Seventeen digits suffice. -/
theorem exists_candidate (hproper : Proper m q) (hm : m ≠ 0) (hk : (10 : ℚ) ^ (k - 1) ≤ m * 2 ^ q) :
    ∃ r, candidate m q k 17 = some r := by
  obtain ⟨other, heq⟩ := candidate_eq m q k 17
  obtain ⟨hden, hratio⟩ := ratio_eq m q
  obtain ⟨hd, hscaled⟩ := scaleDecimal_ratio (ratio m q).1 hden (-(k - 17))
  rw [hratio] at hscaled
  obtain ⟨hlow, hhigh⟩ := cast_roundDiv_near (scaleDecimal (ratio m q).1 (ratio m q).2 (-(k - 17))).1 hd
  rw [hscaled] at hlow hhigh
  dsimp only at heq
  push_cast at heq
  generalize roundDiv _ _ = near at *
  have hunit := ten_zpow_pos (k - 17)
  have hpow := two_zpow_pos q
  -- The last digit is small against the number, and so against the distance to its neighbours.
  have hdigit : (10 : ℚ) ^ (k - 17) * 10 ^ 16 ≤ m * 2 ^ q := by
    have hsplit : (10 : ℚ) ^ (k - 1) = 10 ^ (k - 17) * 10 ^ (16 : Int) := by
      rw [← zpow_add₀ (by norm_num)]
      congr 1
      omega
    rw [hsplit] at hk
    exact_mod_cast hk
  have hsmall : (10 : ℚ) ^ (k - 17) < 2 ^ q := by
    have hcast : (m : ℚ) ≤ 9007199254740992 := by
      have hsignificand := hproper.significand
      rw [leastFull_eq] at hsignificand
      exact_mod_cast hsignificand.le
    nlinarith
  rw [zpow_neg, ← div_eq_mul_inv, le_div_iff₀ hunit] at hlow
  rw [zpow_neg, ← div_eq_mul_inv, div_le_iff₀ hunit] at hhigh
  have hnear : readsBack m q near (k - 17) = true := by
    rw [readsBack_iff]
    apply within_of_near hm
    · split
      case isTrue hfirst =>
        have hcast : (m : ℚ) = 4503599627370496 := by
          rw [hfirst, leastFull_eq]
          norm_num
        rw [hcast] at hdigit hhigh ⊢
        linarith
      case isFalse hother => linarith
    · linarith
  rw [if_pos hnear] at heq
  exact ⟨_, heq⟩

/-- The search for digits ends with what reads back, if anything does. -/
theorem readsBack_firstCandidate {fuel count i : Nat} (hi : i < fuel) (h : ∃ r, candidate m q k (count + i) = some r) :
    readsBack m q (firstCandidate m q k fuel count).1 (firstCandidate m q k fuel count).2 = true := by
  induction fuel generalizing count i with
  | zero => omega
  | succ fuel ih =>
    unfold firstCandidate
    cases hc : candidate m q k count with
    | some r => exact readsBack_of_candidate hc
    | none =>
      cases i with
      | zero =>
        obtain ⟨r, hr⟩ := h
        rw [Nat.add_zero, hc] at hr
        cases hr
      | succ i =>
        apply ih (Nat.lt_of_succ_lt_succ hi)
        rwa [Nat.add_right_comm, Nat.add_assoc]

/-- A number lies in the interval around it. -/
theorem within_self (hm : m ≠ 0) (q : Int) : Within m q (m * 2 ^ q) := by
  apply within_of_near hm <;>
  · rw [sub_self, zero_mul]
    exact two_zpow_pos q

/-- What the search for digits finds reads back. -/
theorem within_firstCandidate (hproper : Proper m q) (hm : m ≠ 0) :
    let r := firstCandidate m q (decimalPlace (ratio m q).1 (ratio m q).2) 17 1
    Within m q (r.1 * 10 ^ r.2) := by
  obtain ⟨hden, hratio⟩ := ratio_eq m q
  obtain ⟨hlow, hhigh⟩ := (within_self hm q).bounds hproper hm
  have hpos := (within_self hm q).pos hm
  have hnum : 0 < (ratio m q).1 := by
    apply Nat.pos_of_ne_zero
    intro hzero
    rw [hzero, Nat.cast_zero, zero_div] at hratio
    exact hpos.ne hratio
  rw [two_zpow_le_iff hpos] at hlow
  rw [lt_two_zpow_iff hpos] at hhigh
  have hplace := ten_zpow_decimalPlace_le hnum hden (by rw [hratio]; omega) (by rw [hratio]; omega)
  rw [hratio] at hplace
  rw [← readsBack_iff]
  exact readsBack_firstCandidate (show 16 < 17 by decide) (exists_candidate hproper hm hplace)

/-- The digits of a finite number, the first of them no zero, stand for a decimal in the interval around it. -/
theorem exists_shortest (hproper : Proper m q) (hm : m ≠ 0) : ∃ d ds place, shortest m q = (d :: ds, place) ∧ d ≠ '0' ∧
    (∀ c ∈ d :: ds, c.isDigit = true) ∧
      Within m q (Nat.ofDigitChars 10 (d :: ds) 0 * 10 ^ (place - (d :: ds).length)) := by
  have hwithin := within_firstCandidate hproper hm
  unfold shortest
  rw [if_neg hm]
  dsimp only at hwithin ⊢
  generalize firstCandidate m q _ 17 1 = r at *
  obtain ⟨c, e⟩ := r
  have hc : c ≠ 0 := by
    rintro rfl
    have hpos := hwithin.pos hm
    simp at hpos
  obtain ⟨d, ds, hdigits, hd⟩ := exists_digits_cons hc
  obtain ⟨j, hj⟩ := exists_trimmed (digits c)
  generalize ((digits c).reverse.dropWhile (· == '0')).reverse = kept at *
  have hvalue : c = 10 ^ j * Nat.ofDigitChars 10 kept 0 := by
    have hall : Nat.ofDigitChars 10 (digits c) 0 = c := Nat.ofDigitChars_ten_toDigits
    rwa [hj, Nat.ofDigitChars_append, Nat.ofDigitChars_replicate_zero, eq_comm] at hall
  cases kept with
  | nil =>
    -- The first digit is not dropped, as it is no zero.
    rw [List.nil_append, hdigits] at hj
    have hzero : d ∈ List.replicate j '0' := hj ▸ List.mem_cons_self
    exact absurd (List.eq_of_mem_replicate hzero) hd
  | cons d' ds' =>
    have hfirst : d' = d := by
      rw [hdigits] at hj
      exact (List.cons.inj hj).1.symm
    refine ⟨d', ds', _, rfl, by rwa [hfirst], fun a ha => ?_, ?_⟩
    · apply isDigit_of_mem_digits (n := c)
      rw [hj]
      exact List.mem_append_left _ ha
    · have hplace : ((digits c).length : Int) + e - (d' :: ds').length = j + e := by
        rw [hj, List.length_append, List.length_replicate]
        omega
      rw [hplace, zpow_add₀ (by norm_num), zpow_natCast, ← mul_assoc]
      rw [hvalue] at hwithin
      push_cast at hwithin
      rwa [mul_comm (Nat.ofDigitChars 10 (d' :: ds') 0 : ℚ)]

end

end Binary64
end Codemod.Decimal
