import Codemod.Decimal.Binary64
import Mathlib.Algebra.Order.Archimedean.Basic
import Mathlib.Algebra.Order.Field.Power
import Mathlib.Data.Int.Log
import Mathlib.Data.Rat.Floor
import Mathlib.Tactic.FieldSimp
import Mathlib.Tactic.Linarith
import Mathlib.Tactic.NormNum
import Mathlib.Tactic.Positivity
import Mathlib.Tactic.Ring

/-!
# The number nearest to a ratio

Around each finite number lies an interval up to the midpoints to its two neighbours, the midpoints themselves counting
when its significand is even. A ratio in this interval is read as the number, in whatever way it is given by numerator
and denominator, and so is a decimal.

Main statements:

* `ofRatio_of_within` says this of ratios, and `ofDecimal_of_within` of decimals;
* `readsBack_iff` says that the test for decimals is the one for the interval.
-/

namespace Codemod.Decimal

/-! ### Rounding a quotient -/

/-- The whole number within half a unit of a quotient is its rounding, unless it is odd and just half a unit away. -/
theorem roundDiv_eq {num den m : Nat} (hden : 0 < den) (hlow : 2 * (m * den) ≤ 2 * num + den)
    (hhigh : 2 * num ≤ 2 * (m * den) + den)
    (hodd : m % 2 = 1 → 2 * (m * den) < 2 * num + den ∧ 2 * num < 2 * (m * den) + den) :
    roundDiv num den = m := by
  have hsplit : num / den * den + num % den = num := Nat.div_add_mod' num den
  have hrest : num % den < den := Nat.mod_lt _ hden
  -- The quotient without its fraction is the number itself or the one below.
  have hle : num / den ≤ m := by
    by_contra hlt
    have hmul : (m + 1) * den ≤ num / den * den := Nat.mul_le_mul_right den (by omega)
    rw [Nat.succ_mul] at hmul
    omega
  have hge : m ≤ num / den + 1 := by
    by_contra hlt
    have hmul : (num / den + 2) * den ≤ m * den := Nat.mul_le_mul_right den (by omega)
    rw [Nat.add_mul] at hmul
    omega
  unfold roundDiv
  dsimp only
  rcases Nat.lt_or_ge (num / den) m with hlt | hge'
  · have hm : m = num / den + 1 := by omega
    have hmul : m * den = num / den * den + den := by rw [hm, Nat.succ_mul]
    split_ifs <;> omega
  · have hm : m = num / den := by omega
    have hmul : m * den = num / den * den := by rw [hm]
    split_ifs <;> omega

theorem cast_roundDiv_eq {num den m : Nat} (hden : 0 < den) (hlow : (m : ℚ) - 1 / 2 ≤ num / den)
    (hhigh : (num / den : ℚ) ≤ m + 1 / 2)
    (hodd : m % 2 = 1 → (m : ℚ) - 1 / 2 < num / den ∧ (num / den : ℚ) < m + 1 / 2) : roundDiv num den = m := by
  have hpos : (0 : ℚ) < den := by exact_mod_cast hden
  rw [le_div_iff₀ hpos] at hlow
  rw [div_le_iff₀ hpos] at hhigh
  rw [lt_div_iff₀ hpos, div_lt_iff₀ hpos] at hodd
  apply roundDiv_eq hden
  · have hlow' : (2 * (m * den) : ℚ) ≤ 2 * num + den := by linarith
    exact_mod_cast hlow'
  · have hhigh' : (2 * num : ℚ) ≤ 2 * (m * den) + den := by linarith
    exact_mod_cast hhigh'
  · intro hm
    obtain ⟨hlow', hhigh'⟩ := hodd hm
    have hboth : (2 * (m * den) : ℚ) < 2 * num + den ∧ (2 * num : ℚ) < 2 * (m * den) + den := by
      constructor <;> linarith
    exact_mod_cast hboth

namespace Binary64

/-! ### Ratios and their scaling -/

section

variable {num den m : Nat} {e q : Int} {x : ℚ}

theorem two_zpow_pos (e : Int) : (0 : ℚ) < 2 ^ e :=
  zpow_pos (by norm_num) e

theorem ten_zpow_pos (e : Int) : (0 : ℚ) < 10 ^ e :=
  zpow_pos (by norm_num) e

theorem cast_pow_toNat (b : Nat) (h : 0 ≤ e) : ((Nat.pow b e.toNat : Nat) : ℚ) = (b : ℚ) ^ e := by
  obtain ⟨n, rfl⟩ := Int.eq_ofNat_of_zero_le h
  simp

theorem scaleDown_ratio (num : Nat) (hden : 0 < den) (e : Int) : 0 < (scaleDown num den e).2 ∧
    ((scaleDown num den e).1 / (scaleDown num den e).2 : ℚ) = num / den / 2 ^ e := by
  have hpos : (0 : ℚ) < den := by exact_mod_cast hden
  have hpow := two_zpow_pos e
  unfold scaleDown
  split
  case isTrue h =>
    refine ⟨Nat.mul_pos hden (Nat.pow_pos (by decide)), ?_⟩
    rw [Nat.cast_mul, cast_pow_toNat 2 h, div_div, Nat.cast_ofNat]
  case isFalse h =>
    refine ⟨hden, ?_⟩
    rw [Nat.cast_mul, cast_pow_toNat 2 (by omega), Nat.cast_ofNat, zpow_neg]
    field_simp

theorem scaleDecimal_ratio (num : Nat) (hden : 0 < den) (e : Int) : 0 < (scaleDecimal num den e).2 ∧
    ((scaleDecimal num den e).1 / (scaleDecimal num den e).2 : ℚ) = num / den * 10 ^ e := by
  have hpos : (0 : ℚ) < den := by exact_mod_cast hden
  have hpow := ten_zpow_pos e
  unfold scaleDecimal
  split
  case isTrue h =>
    refine ⟨hden, ?_⟩
    rw [Nat.cast_mul, cast_pow_toNat 10 h, Nat.cast_ofNat]
    ring
  case isFalse h =>
    refine ⟨Nat.mul_pos hden (Nat.pow_pos (by decide)), ?_⟩
    rw [Nat.cast_mul, cast_pow_toNat 10 (by omega), Nat.cast_ofNat, zpow_neg]
    field_simp

theorem ratio_eq (m : Nat) (q : Int) : 0 < (ratio m q).2 ∧
    ((ratio m q).1 / (ratio m q).2 : ℚ) = m * 2 ^ q := by
  have hpow := two_zpow_pos q
  unfold ratio
  split
  case isTrue h =>
    refine ⟨Nat.one_pos, ?_⟩
    rw [Nat.cast_mul, cast_pow_toNat 2 h, Nat.cast_ofNat, Nat.cast_one, div_one]
  case isFalse h =>
    refine ⟨Nat.pow_pos (by decide), ?_⟩
    rw [cast_pow_toNat 2 (by omega), Nat.cast_ofNat, zpow_neg]
    field_simp

/-! ### The exponent of a ratio -/

theorem two_zpow_le_iff (hx : 0 < x) : 2 ^ e ≤ x ↔ e ≤ Int.log 2 x := by
  simpa using Int.zpow_le_iff_le_log (b := 2) (by decide) hx

theorem lt_two_zpow_iff (hx : 0 < x) : x < 2 ^ e ↔ Int.log 2 x < e := by
  simpa using Int.lt_zpow_iff_log_lt (b := 2) (by decide) hx

/-- The exponent with which a magnitude needs all bits of a significand, or the least one. -/
def exponentOf (x : ℚ) : Int :=
  max minExponent (Int.log 2 x - 52)

/-- The logarithms of numerator and denominator give the one of their ratio up to one. -/
theorem log_ratio (hnum : 0 < num) (hden : 0 < den) :
    (Nat.log2 num : Int) - Nat.log2 den - 1 ≤ Int.log 2 (num / den : ℚ) ∧
      Int.log 2 (num / den : ℚ) ≤ (Nat.log2 num : Int) - Nat.log2 den := by
  have hx : (0 : ℚ) < num / den := by positivity
  have hpos : (0 : ℚ) < den := by exact_mod_cast hden
  have hnumlow : (2 : ℚ) ^ (Nat.log2 num : Int) ≤ num := by exact_mod_cast Nat.log2_self_le hnum.ne'
  have hnumhigh : (num : ℚ) < 2 ^ (Nat.log2 num + 1 : Int) := by exact_mod_cast Nat.lt_log2_self
  have hdenlow : (2 : ℚ) ^ (Nat.log2 den : Int) ≤ den := by exact_mod_cast Nat.log2_self_le hden.ne'
  have hdenhigh : (den : ℚ) < 2 ^ (Nat.log2 den + 1 : Int) := by exact_mod_cast Nat.lt_log2_self
  generalize (Nat.log2 num : Int) = a at *
  generalize (Nat.log2 den : Int) = b at *
  constructor
  · rw [← two_zpow_le_iff hx, le_div_iff₀ hpos]
    calc (2 : ℚ) ^ (a - b - 1) * den
        ≤ 2 ^ (a - b - 1) * 2 ^ (b + 1) := mul_le_mul_of_nonneg_left hdenhigh.le (two_zpow_pos _).le
      _ = 2 ^ a := by rw [← zpow_add₀ (by norm_num)]; congr 1; omega
      _ ≤ num := hnumlow
  · rw [← Int.lt_add_one_iff, ← lt_two_zpow_iff hx, div_lt_iff₀ hpos]
    calc (num : ℚ)
        < 2 ^ (a + 1) := hnumhigh
      _ = 2 ^ (a - b + 1) * 2 ^ b := by rw [← zpow_add₀ (by norm_num)]; congr 1; omega
      _ ≤ 2 ^ (a - b + 1) * den := mul_le_mul_of_nonneg_left hdenlow (two_zpow_pos _).le

/-- A significand that was rounded, with an exponent. When all bits overflow, the exponent is the next one. -/
def rounded (negative : Bool) (m : Nat) (e : Int) : Binary64 :=
  let (m, e) := if m = 2 * leastFull then (leastFull, e + 1) else (m, e)
  if maxExponent < e then .infinite negative else .finite negative m e

/-- A ratio is rounded at its exponent. -/
theorem ofRatio_eq (negative : Bool) (hnum : 0 < num) (hden : 0 < den) :
    let e := exponentOf (num / den)
    ofRatio negative num den = rounded negative (roundDiv (scaleDown num den e).1 (scaleDown num den e).2) e := by
  have hx : (0 : ℚ) < num / den := by positivity
  obtain ⟨hlow, hhigh⟩ := log_ratio hnum hden
  have hguess : ∀ g : Int, (scaleDown num den g).1 / (scaleDown num den g).2 < 2 * leastFull ↔
      Int.log 2 (num / den : ℚ) < g + 53 := by
    intro g
    obtain ⟨hpos, hratio⟩ := scaleDown_ratio num hden g
    have hd : (0 : ℚ) < (scaleDown num den g).2 := by exact_mod_cast hpos
    rw [Nat.div_lt_iff_lt_mul hpos, ← lt_two_zpow_iff hx, zpow_add₀ (by norm_num), ← div_lt_iff₀' (two_zpow_pos g),
      ← hratio, div_lt_iff₀ hd]
    have hfull : ((2 * leastFull : Nat) : ℚ) = 2 ^ (53 : Int) := by norm_num [leastFull]
    rw [← hfull]
    exact_mod_cast Iff.rfl
  have hexponent : (let guess : Int := max minExponent ((Nat.log2 num : Int) - Nat.log2 den - 53)
      if (scaleDown num den guess).1 / (scaleDown num den guess).2 < 2 * leastFull then guess else guess + 1) =
        exponentOf (num / den) := by
    dsimp only
    simp only [hguess, exponentOf]
    split <;> omega
  dsimp only at hexponent ⊢
  unfold ofRatio rounded
  rw [if_neg hnum.ne']
  dsimp only
  rw [hexponent]

end

/-! ### The interval around a number -/

/-- Whether a significand and an exponent are those of a finite number: all bits of the significand are used, unless the
exponent is the least one. -/
structure Proper (m : Nat) (q : Int) : Prop where
  significand : m < 2 * leastFull
  low : minExponent ≤ q
  high : q ≤ maxExponent
  full : minExponent < q → leastFull ≤ m

/-- Whether a number is finite. -/
def IsFinite : Binary64 → Prop
  | .finite _ m q => Proper m q
  | .infinite _ | .nan => False

/-- The midpoint to the number below, in quarters of `2 ^ q`. It is nearer where the exponent changes. -/
def lowQuarters (m : Nat) (q : Int) : Nat :=
  if m = leastFull && minExponent < q then 4 * m - 1 else 4 * m - 2

/-- Whether a magnitude lies between the midpoints around `m * 2 ^ q`, which count when `m` is even. -/
structure Within (m : Nat) (q : Int) (x : ℚ) : Prop where
  low : lowQuarters m q * 2 ^ (q - 2) ≤ x
  high : x ≤ (4 * m + 2) * 2 ^ (q - 2)
  odd : m % 2 = 1 → lowQuarters m q * 2 ^ (q - 2) < x ∧ x < (4 * m + 2) * 2 ^ (q - 2)

section

variable {num den m n : Nat} {e q : Int} {x : ℚ}

theorem leastFull_eq : leastFull = 4503599627370496 := rfl

theorem le_lowQuarters (m : Nat) (q : Int) : 4 * m ≤ lowQuarters m q + 2 := by
  unfold lowQuarters
  split <;> omega

/-- The test for a decimal is the one for the interval. -/
theorem readsBack_iff {c : Nat} : readsBack m q c e = true ↔ Within m q (c * 10 ^ e) := by
  obtain ⟨hone, hdecimal⟩ := scaleDecimal_ratio c Nat.one_pos e
  obtain ⟨hpos, hratio⟩ := scaleDown_ratio (scaleDecimal c 1 e).1 hone (q - 2)
  rw [hdecimal, Nat.cast_one, div_one] at hratio
  have hd : (0 : ℚ) < (scaleDown (scaleDecimal c 1 e).1 (scaleDecimal c 1 e).2 (q - 2)).2 := by exact_mod_cast hpos
  unfold readsBack
  dsimp only
  generalize scaleDown (scaleDecimal c 1 e).1 (scaleDecimal c 1 e).2 (q - 2) = r at *
  -- All comparisons are those of the ratio with whole numbers of quarters.
  have hpow := two_zpow_pos (q - 2)
  have hle : ∀ k : Nat, k * r.2 ≤ r.1 ↔ (k : ℚ) * 2 ^ (q - 2) ≤ c * 10 ^ e := by
    intro k
    rw [← le_div_iff₀ hpow, ← hratio, le_div_iff₀ hd]
    exact_mod_cast Iff.rfl
  have hge : ∀ k : Nat, r.1 ≤ k * r.2 ↔ (c : ℚ) * 10 ^ e ≤ k * 2 ^ (q - 2) := by
    intro k
    rw [← div_le_iff₀ hpow, ← hratio, div_le_iff₀ hd]
    exact_mod_cast Iff.rfl
  have hlt : ∀ k : Nat, k * r.2 < r.1 ↔ (k : ℚ) * 2 ^ (q - 2) < c * 10 ^ e := by
    intro k
    rw [← not_le, hge, not_le]
  have hgt : ∀ k : Nat, r.1 < k * r.2 ↔ (c : ℚ) * 10 ^ e < k * 2 ^ (q - 2) := by
    intro k
    rw [← not_le, hle, not_le]
  have hcast : ((4 * m + 2 : Nat) : ℚ) = 4 * m + 2 := by push_cast; ring
  rw [← lowQuarters]
  split
  case isTrue heven =>
    rw [Bool.and_eq_true, decide_eq_true_eq, decide_eq_true_eq, hle, hge, hcast]
    constructor
    · rintro ⟨hlow, hhigh⟩
      exact ⟨hlow, hhigh, fun hodd => by omega⟩
    · intro h
      exact ⟨h.low, h.high⟩
  case isFalse hodd =>
    rw [Bool.and_eq_true, decide_eq_true_eq, decide_eq_true_eq, hlt, hgt, hcast]
    constructor
    · rintro ⟨hlow, hhigh⟩
      exact ⟨hlow.le, hhigh.le, fun _ => ⟨hlow, hhigh⟩⟩
    · intro h
      exact h.odd (by omega)

section

variable (hm : m ≠ 0) (hx : Within m q x)

include hm hx

theorem Within.pos : 0 < x := by
  have hle := le_lowQuarters m q
  have hlow : (1 : ℚ) ≤ lowQuarters m q := by exact_mod_cast (by omega : 1 ≤ lowQuarters m q)
  calc (0 : ℚ) < 1 * 2 ^ (q - 2) := by simpa using two_zpow_pos (q - 2)
    _ ≤ lowQuarters m q * 2 ^ (q - 2) := mul_le_mul_of_nonneg_right hlow (two_zpow_pos _).le
    _ ≤ x := hx.low

/-- A magnitude within the interval has the exponent of the number, or the one below if it lies before the first number
with this exponent. -/
theorem exponentOf_of_within (hproper : Proper m q) :
    exponentOf x = q ∨ exponentOf x = q - 1 ∧ m = leastFull ∧ minExponent < q := by
  have hpos := hx.pos hm
  have hpow := two_zpow_pos (q - 2)
  have hlow := le_lowQuarters m q
  obtain ⟨hsignificand, hmin, -, hfull⟩ := hproper
  have hscale : ∀ k : Int, (2 : ℚ) ^ (q - 2 + k) = 2 ^ k * 2 ^ (q - 2) := fun k => by
    rw [zpow_add₀ (by norm_num), mul_comm]
  have hupper : Int.log 2 x < q + 53 := by
    rw [← lt_two_zpow_iff hpos]
    have hquarters : ((4 * m + 2 : Nat) : ℚ) < 2 ^ (55 : Int) := by
      have hnat : 4 * m + 2 < 2 ^ 55 := by rw [leastFull_eq] at hsignificand; omega
      exact_mod_cast hnat
    calc x ≤ (4 * m + 2) * 2 ^ (q - 2) := hx.high
      _ < 2 ^ (55 : Int) * 2 ^ (q - 2) := by
        apply mul_lt_mul_of_pos_right _ hpow
        exact_mod_cast hquarters
      _ = 2 ^ (q + 53) := by rw [← hscale]; congr 1; omega
  -- So many quarters bound the logarithm from below.
  have hlower : ∀ k : Nat, 2 ^ k ≤ lowQuarters m q → q - 2 + k ≤ Int.log 2 x := by
    intro k hk
    rw [← two_zpow_le_iff hpos, hscale]
    have hcast : (2 : ℚ) ^ (k : Int) ≤ lowQuarters m q := by exact_mod_cast hk
    exact (mul_le_mul_of_nonneg_right hcast hpow.le).trans hx.low
  unfold exponentOf
  rw [leastFull_eq] at *
  by_cases hleast : minExponent < q
  · have hm' := hfull hleast
    by_cases hfirst : m = 4503599627370496
    · have hlog := hlower 53 (by omega)
      push_cast at hlog
      omega
    · have hlog := hlower 54 (by omega)
      push_cast at hlog
      omega
  · omega

end

/-- A ratio in the interval around a number is read as the number. -/
theorem ofRatio_of_within (negative : Bool) (hproper : Proper m q) (hm : m ≠ 0) (hnum : 0 < num) (hden : 0 < den)
    (hx : Within m q (num / den)) : ofRatio negative num den = .finite negative m q := by
  have hpos := hx.pos hm
  have hexponent := exponentOf_of_within hm hx hproper
  have hround := ofRatio_eq negative hnum hden
  obtain ⟨hd, hratio⟩ := scaleDown_ratio num hden (exponentOf (num / den))
  dsimp only at hround
  rw [hround]
  generalize (num / den : ℚ) = x at *
  obtain ⟨hsignificand, -, hmax, -⟩ := hproper
  obtain ⟨hlow, hhigh, hodd⟩ := hx
  have hpow := two_zpow_pos q
  have hscale : (2 : ℚ) ^ (q - 2) = 2 ^ q / 4 := by rw [zpow_sub₀ (by norm_num)]; norm_num
  rw [hscale] at hlow hhigh hodd
  rcases hexponent with heq | ⟨heq, hfirst, hleast⟩
  · have hquarters : (4 * m : ℚ) ≤ lowQuarters m q + 2 := by exact_mod_cast le_lowQuarters m q
    rw [heq] at hratio hd ⊢
    have hrounds : roundDiv (scaleDown num den q).1 (scaleDown num den q).2 = m := by
      apply cast_roundDiv_eq hd
      · rw [hratio, le_div_iff₀ hpow]
        nlinarith
      · rw [hratio, div_le_iff₀ hpow]
        nlinarith
      · intro hm'
        obtain ⟨hlow', hhigh'⟩ := hodd hm'
        rw [hratio, lt_div_iff₀ hpow, div_lt_iff₀ hpow]
        constructor <;> nlinarith
    rw [hrounds, rounded, if_neg (by omega)]
    exact if_neg (by omega)
  · -- The ratio lies below the first number with this exponent, and its significand overflows.
    have hquarters : lowQuarters m q = 4 * leastFull - 1 := by simp [lowQuarters, hfirst, hleast]
    have hbelow : x < 2 ^ (q + 52) := by
      rw [lt_two_zpow_iff hpos]
      unfold exponentOf at heq
      omega
    rw [zpow_add₀ (by norm_num)] at hbelow
    rw [heq] at hratio hd ⊢
    have hhalf : (2 : ℚ) ^ (q - 1) = 2 ^ q / 2 := by rw [zpow_sub₀ (by norm_num)]; norm_num
    rw [hquarters, leastFull_eq] at hlow
    have hrounds : roundDiv (scaleDown num den (q - 1)).1 (scaleDown num den (q - 1)).2 = 2 * leastFull := by
      rw [leastFull_eq]
      apply cast_roundDiv_eq hd
      · rw [hratio, hhalf, le_div_iff₀ (by positivity)]
        norm_num at hlow ⊢
        linarith
      · rw [hratio, hhalf, div_le_iff₀ (by positivity)]
        norm_num at hbelow ⊢
        linarith
      · intro hm'
        omega
    rw [hrounds, rounded, if_pos rfl, hfirst, Int.sub_add_cancel]
    exact if_neg (by omega)

/-! ### Decimals -/

theorem lt_ten_zpow_length (n : Nat) (e : Int) : (n * 10 ^ e : ℚ) < 10 ^ ((digits n).length + e) := by
  have hdigits : n < 10 ^ (digits n).length :=
    (Nat.length_toDigits_le_iff (by decide) Nat.length_toDigits_pos).mp le_rfl
  have hcast : (n : ℚ) < 10 ^ ((digits n).length : Int) := by exact_mod_cast hdigits
  rw [zpow_add₀ (by norm_num)]
  exact mul_lt_mul_of_pos_right hcast (ten_zpow_pos e)

theorem ten_zpow_length_le (hn : n ≠ 0) (e : Int) : (10 : ℚ) ^ ((digits n).length + e - 1) ≤ n * 10 ^ e := by
  have hpos : 0 < (digits n).length := Nat.length_toDigits_pos
  obtain ⟨k, hk⟩ : ∃ k, (digits n).length = k + 1 := ⟨(digits n).length - 1, by omega⟩
  have hle : 10 ^ k ≤ n := by
    by_contra hlt
    rcases Nat.eq_zero_or_pos k with rfl | hlong
    · omega
    · have hshort : (digits n).length ≤ k :=
        (Nat.length_toDigits_le_iff (by decide) hlong).mpr (Nat.lt_of_not_ge hlt)
      omega
  have hcast : (10 : ℚ) ^ (k : Int) ≤ n := by exact_mod_cast hle
  have hsize : ((digits n).length + e - 1 : Int) = k + e := by omega
  rw [hsize, zpow_add₀ (by norm_num)]
  exact mul_le_mul_of_nonneg_right hcast (ten_zpow_pos e).le

theorem Within.bounds (hproper : Proper m q) (hm : m ≠ 0) (hx : Within m q x) :
    (2 : ℚ) ^ (-1075 : Int) ≤ x ∧ x < 2 ^ (1024 : Int) := by
  have hmin := hproper.low
  have hmax := hproper.high
  unfold minExponent at hmin
  unfold maxExponent at hmax
  constructor
  · have hle := le_lowQuarters m q
    have hquarters : (2 : ℚ) ≤ lowQuarters m q := by exact_mod_cast (by omega : 2 ≤ lowQuarters m q)
    calc (2 : ℚ) ^ (-1075 : Int)
        ≤ 2 ^ (1 + (q - 2)) := zpow_le_zpow_right₀ (by norm_num) (by omega)
      _ = 2 * 2 ^ (q - 2) := by rw [zpow_add₀ (by norm_num), zpow_one]
      _ ≤ lowQuarters m q * 2 ^ (q - 2) := mul_le_mul_of_nonneg_right hquarters (two_zpow_pos _).le
      _ ≤ x := hx.low
  · rw [lt_two_zpow_iff (hx.pos hm)]
    rcases exponentOf_of_within hm hx hproper with heq | ⟨heq, -, -⟩ <;>
    · unfold exponentOf at heq
      omega

theorem two_zpow_lt_ten_zpow : (2 : ℚ) ^ (1075 : Int) < 10 ^ (400 : Int) := by
  have hnat : 2 ^ 1075 < 10 ^ 400 := by decide +kernel
  exact_mod_cast hnat

/-- A decimal in the interval around a number is read as the number. -/
theorem ofDecimal_of_within (negative : Bool) (hproper : Proper m q) (hm : m ≠ 0) (hx : Within m q (n * 10 ^ e)) :
    ofDecimal negative n e = .finite negative m q := by
  obtain ⟨hlow, hhigh⟩ := hx.bounds hproper hm
  have hn : n ≠ 0 := by
    rintro rfl
    have hpos := hx.pos hm
    simp at hpos
  have hshort : ¬ 400 < ((digits n).length : Int) + e := by
    intro hlong
    have hle : (10 : ℚ) ^ (400 : Int) ≤ 10 ^ ((digits n).length + e - 1) :=
      zpow_le_zpow_right₀ (by norm_num) (by omega)
    have hlt := (hle.trans (ten_zpow_length_le hn e)).trans_lt hhigh
    have hmore : (2 : ℚ) ^ (1024 : Int) ≤ 2 ^ (1075 : Int) := zpow_le_zpow_right₀ (by norm_num) (by norm_num)
    exact absurd two_zpow_lt_ten_zpow (hmore.trans_lt' hlt).not_gt
  have hlong : ¬ ((digits n).length : Int) + e < -400 := by
    intro hshort
    have hle : (10 : ℚ) ^ ((digits n).length + e) ≤ 10 ^ (-400 : Int) :=
      zpow_le_zpow_right₀ (by norm_num) (by omega)
    have hlt := (hlow.trans_lt (lt_ten_zpow_length n e)).trans_le hle
    rw [zpow_neg, zpow_neg, inv_lt_inv₀ (two_zpow_pos _) (ten_zpow_pos _)] at hlt
    exact absurd two_zpow_lt_ten_zpow hlt.not_gt
  have hpos : 0 < n := Nat.pos_of_ne_zero hn
  unfold ofDecimal
  dsimp only
  rw [if_neg hn, if_neg hshort, if_neg hlong]
  split
  case isTrue he =>
    have hnum : 0 < n * Nat.pow 10 e.toNat := Nat.mul_pos hpos (Nat.pow_pos (by decide))
    apply ofRatio_of_within negative hproper hm hnum Nat.one_pos
    rwa [Nat.cast_mul, cast_pow_toNat 10 he, Nat.cast_ofNat, Nat.cast_one, div_one]
  case isFalse he =>
    have hden : 0 < Nat.pow 10 (-e).toNat := Nat.pow_pos (by decide)
    apply ofRatio_of_within negative hproper hm hpos hden
    rwa [cast_pow_toNat 10 (by omega), Nat.cast_ofNat, zpow_neg, div_inv_eq_mul]

end

end Binary64
end Codemod.Decimal
