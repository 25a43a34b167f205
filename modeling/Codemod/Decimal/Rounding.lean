/-!
# Rounding a quotient

`roundDiv num den` is the whole number nearest to `num / den`; of two equally near ones it is the
even one.

Main statements:

* `roundDiv_near` says that the result is within half a unit of the quotient;
* `roundDiv_exact` says that a quotient without remainder is kept.
-/

namespace Codemod.Decimal

/-- The whole number nearest to `num / den`, the even one of two. -/
def roundDiv (num den : Nat) : Nat :=
  let q := num / den
  let r := num % den
  if 2 * r < den then q
  else if 2 * r = den then (if q % 2 = 0 then q else q + 1)
  else q + 1

/-- The result is within half a unit of the quotient. -/
theorem roundDiv_near (num den : Nat) (h : 0 < den) :
    2 * (roundDiv num den * den) ≤ 2 * num + den ∧
      2 * num ≤ 2 * (roundDiv num den * den) + den := by
  have hr : num % den < den := Nat.mod_lt _ h
  have hd : den * (num / den) + num % den = num := Nat.div_add_mod num den
  have hm : num / den * den = den * (num / den) := Nat.mul_comm _ _
  have hs : (num / den + 1) * den = num / den * den + den := Nat.succ_mul _ _
  simp only [roundDiv]
  split
  · omega
  · split
    · split <;> omega
    · omega

/-- A quotient without remainder is kept. -/
theorem roundDiv_exact (n den : Nat) (h : 0 < den) : roundDiv (n * den) den = n := by
  simp [roundDiv, h, Nat.mul_div_cancel n h]

/-- The number with the given decimal digits, the first one highest. -/
def ofDigits (ds : List Nat) : Nat :=
  ds.foldl (fun n d => n * 10 + d) 0

/-- The decimal digits of a number, the first one highest; zero has the one digit 0. -/
def digits (n : Nat) : List Char :=
  Nat.toDigits 10 n

end Codemod.Decimal
