import Codemod.Decimal.Rounding

/-!
# Binary floating-point numbers of 64 bits

A finite number is a sign, a significand below `2^53` and a power of two from `2^-1074` up to
`2^971`. Reading a decimal rounds to the nearest number, the even one of two; writing a number gives
the fewest decimal digits that read back as it.

Main statements:

* `Binary64.ofRatio_zero` says that a zero numerator is read as zero;
* `Binary64.isZero_iff` says which numbers are zero.
-/

namespace Codemod.Decimal

/-- A floating-point number. -/
inductive Binary64 where
  /-- The number `significand * 2 ^ exponent`, negated or not. -/
  | finite (negative : Bool) (significand : Nat) (exponent : Int)
  | infinite (negative : Bool)
  | nan
  deriving DecidableEq, Repr

namespace Binary64

/-- The exponent of the smallest numbers. -/
def minExponent : Int := -1074

/-- The exponent of the largest numbers. -/
def maxExponent : Int := 971

/-- The least significand that needs all 53 bits. -/
def leastFull : Nat := Nat.pow 2 52

/-- Numerator and denominator of `num / den / 2 ^ e`. -/
def scaleDown (num den : Nat) (e : Int) : Nat × Nat :=
  if 0 ≤ e then (num, den * Nat.pow 2 e.toNat) else (num * Nat.pow 2 (-e).toNat, den)

/-- The number nearest to `num / den`. -/
def ofRatio (negative : Bool) (num den : Nat) : Binary64 :=
  if num = 0 then .finite negative 0 minExponent
  else
    let guess : Int := max minExponent ((Nat.log2 num : Int) - Nat.log2 den - 53)
    let (n, d) := scaleDown num den guess
    let e : Int := if n / d < 2 * leastFull then guess else guess + 1
    let (n, d) := scaleDown num den e
    let m := roundDiv n d
    let (m, e) := if m = 2 * leastFull then (leastFull, e + 1) else (m, e)
    if maxExponent < e then .infinite negative else .finite negative m e

/-- A zero numerator is read as zero. -/
theorem ofRatio_zero (negative : Bool) (den : Nat) :
    ofRatio negative 0 den = .finite negative 0 minExponent := by
  simp [ofRatio]

/-- The number nearest to `n * 10 ^ e`. Exponents far outside the range decide the answer without
any power being computed. -/
def ofDecimal (negative : Bool) (n : Nat) (e : Int) : Binary64 :=
  let size : Int := (digits n).length + e
  if n = 0 then .finite negative 0 minExponent
  else if 400 < size then .infinite negative
  else if size < -400 then .finite negative 0 minExponent
  else if 0 ≤ e then ofRatio negative (n * Nat.pow 10 e.toNat) 1
  else ofRatio negative n (Nat.pow 10 (-e).toNat)

/-- A zero of either sign. -/
def isZero : Binary64 → Bool
  | .finite _ m _ => m == 0
  | _ => false

/-- The zeros are the finite numbers with significand zero. -/
theorem isZero_iff {x : Binary64} : x.isZero = true ↔ ∃ s e, x = .finite s 0 e := by
  cases x <;> simp [isZero]

/-- Numerator and denominator of `m * 2 ^ e`. -/
def ratio (m : Nat) (e : Int) : Nat × Nat :=
  if 0 ≤ e then (m * Nat.pow 2 e.toNat, 1) else (m, Nat.pow 2 (-e).toNat)

/-- Numerator and denominator of `num / den * 10 ^ e`. -/
def scaleDecimal (num den : Nat) (e : Int) : Nat × Nat :=
  if 0 ≤ e then (num * Nat.pow 10 e.toNat, den) else (num, den * Nat.pow 10 (-e).toNat)

/-- The least `k` with `num / den < 10 ^ k`, searched for among `fuel` candidates from `k` on. -/
def decimalPlaceFrom (num den : Nat) : Nat → Int → Int
  | 0, k => k
  | fuel + 1, k =>
    let (n, d) := scaleDecimal num den (-k)
    if n < d then k else decimalPlaceFrom num den fuel (k + 1)

/-- The place of the first decimal digit of `num / den`: the `k` with
`10 ^ (k - 1) ≤ num / den < 10 ^ k`. The search starts from a lower bound that the binary
logarithms give. -/
def decimalPlace (num den : Nat) : Int :=
  decimalPlaceFrom num den 4 (((Nat.log2 num : Int) - Nat.log2 den - 1) * 30103 / 100000)

/-- Whether `c * 10 ^ e` reads back as `m * 2 ^ q`: it lies between the midpoints to the two
neighbours, the midpoints themselves counting when `m` is even. All is measured in quarters of
`2 ^ q`. -/
def readsBack (m : Nat) (q : Int) (c : Nat) (e : Int) : Bool :=
  let (n, d) := scaleDecimal c 1 e
  let (num, den) := scaleDown n d (q - 2)
  let low := if m = leastFull && minExponent < q then 4 * m - 1 else 4 * m - 2
  let high := 4 * m + 2
  if m % 2 = 0 then low * den ≤ num && num ≤ high * den
  else low * den < num && num < high * den

/-- The nearer of the two decimals with `count` digits around `m * 2 ^ q` if it reads back, else the
other one if that does. -/
def candidate (m : Nat) (q k : Int) (count : Nat) : Option (Nat × Int) :=
  let e := k - count
  let (num, den) := ratio m q
  let (n, d) := scaleDecimal num den (-e)
  let near := roundDiv n d
  let other := if near = n / d then n / d + 1 else n / d
  if readsBack m q near e then some (near, e)
  else if readsBack m q other e then some (other, e)
  else none

/-- The first answer among the counts from `count` on. -/
def firstCandidate (m : Nat) (q k : Int) : Nat → Nat → Nat × Int
  | 0, _ => (0, 0)
  | fuel + 1, count => (candidate m q k count).getD (firstCandidate m q k fuel (count + 1))

/-- The fewest digits that read back as `m * 2 ^ q`, and the place of the point: `place` digits
stand before it. Seventeen digits always suffice. -/
def shortest (m : Nat) (q : Int) : List Char × Int :=
  if m = 0 then (['0'], 1)
  else
    let (num, den) := ratio m q
    let (c, e) := firstCandidate m q (decimalPlace num den) 17 1
    let ds := digits c
    let kept := (ds.reverse.dropWhile (· == '0')).reverse
    (kept, (ds.length : Int) + e)

/-- Digits with the point after `place` of them, zeros filling the gaps; at least one digit stands
on each side. -/
def positional (ds : List Char) (place : Int) : List Char :=
  if place ≤ 0 then '0' :: '.' :: List.replicate (-place).toNat '0' ++ ds
  else
    let n := place.toNat
    if ds.length ≤ n then ds ++ List.replicate (n - ds.length) '0' ++ ['.', '0']
    else ds.take n ++ '.' :: ds.drop n

/-- A power of ten: a sign and at least two digits. -/
def exponentText (e : Int) : List Char :=
  let ds := digits e.natAbs
  'e' :: (if e < 0 then '-' else '+') :: (if ds.length < 2 then '0' :: ds else ds)

/-- Digits in scientific notation, one of them before the point. -/
def scientific (ds : List Char) (place : Int) : List Char :=
  match ds with
  | [] => []
  | [d] => d :: exponentText (place - 1)
  | d :: more => d :: '.' :: more ++ exponentText (place - 1)

/-- The magnitude of a finite number: positional from `10^-4` up to below `10^16`, scientific
elsewhere. -/
def magnitudeText (m : Nat) (q : Int) : List Char :=
  let (ds, place) := shortest m q
  if -4 < place && place ≤ 16 then positional ds place else scientific ds place

/-- The sign in front of a number. -/
def signText (negative : Bool) : List Char :=
  if negative then ['-'] else []

/-- The text of a number, with the given names for infinity and for what is no number. -/
def textWith (infinity notANumber : String) : Binary64 → String
  | .finite s m q => String.ofList (signText s ++ magnitudeText m q)
  | .infinite s => String.ofList (signText s) ++ infinity
  | .nan => notANumber

/-- The text of a number with short names. -/
def text (x : Binary64) : String :=
  x.textWith "inf" "nan"

/-- The whole part toward zero of a finite number. -/
def truncate? : Binary64 → Option Int
  | .finite s m q =>
    let (n, d) := ratio m q
    let t : Int := (n / d : Nat)
    some (if s then -t else t)
  | _ => none

/-- The greatest whole number not above a finite number. -/
def floor? : Binary64 → Option Int
  | .finite s m q =>
    let (n, d) := ratio m q
    some (if s then -((n + d - 1) / d : Nat) else (n / d : Nat))
  | _ => none

end Binary64
end Codemod.Decimal
