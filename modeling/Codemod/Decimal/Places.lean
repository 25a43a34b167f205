import Codemod.Decimal.Binary64

/-!
# Numbers with a given count of digits

A finite number can be written with a fixed count of places behind the point, or with a fixed count of
digits and a power of ten, or in the shorter of these two forms.

Main statements:

* `length_padLeft` gives the length of padded digits;
* `fixed_zero_places` says that without places only whole digits are written.
-/

namespace Codemod.Decimal

/-- Characters filled up on the left to a width. -/
def padLeft (fill : Char) (width : Nat) (cs : List Char) : List Char :=
  List.replicate (width - cs.length) fill ++ cs

/-- Padded characters are as long as the width, or as they were. -/
theorem length_padLeft (fill : Char) (width : Nat) (cs : List Char) :
    (padLeft fill width cs).length = max width cs.length := by
  simp only [padLeft, List.length_append, List.length_replicate]
  omega

/-- Whole digits with the point before the last `places` of them. Without places there is no point,
unless it is kept. -/
def withPoint (places : Nat) (keepPoint : Bool) (ds : List Char) : List Char :=
  let ds := padLeft '0' (places + 1) ds
  let whole := ds.take (ds.length - places)
  if places = 0 then whole ++ (if keepPoint then ['.'] else [])
  else whole ++ '.' :: ds.drop (ds.length - places)

/-- The magnitude `m * 2 ^ q` with `places` digits behind the point. -/
def fixed (m : Nat) (q : Int) (places : Nat) (keepPoint : Bool) : List Char :=
  let (num, den) := Binary64.ratio m q
  withPoint places keepPoint (digits (roundDiv (num * Nat.pow 10 places) den))

/-- Without places only whole digits are written. -/
theorem fixed_zero_places (m : Nat) (q : Int) :
    fixed m q 0 false =
      padLeft '0' 1 (digits (roundDiv (Binary64.ratio m q).1 (Binary64.ratio m q).2)) := by
  simp [fixed, withPoint]

/-- The `count` leading digits of a magnitude, and the power of ten of the first of them. -/
def leading (m : Nat) (q : Int) (count : Nat) : List Char × Int :=
  if m = 0 then (List.replicate count '0', 0)
  else
    let (num, den) := Binary64.ratio m q
    let k := Binary64.decimalPlace num den
    let (n, d) := Binary64.scaleDecimal num den (count - k)
    let ds := digits (roundDiv n d)
    if count < ds.length then (ds.take count, k) else (ds, k - 1)

/-- The magnitude with `places` digits behind the point after the first digit, and a power of ten. -/
def scientific (m : Nat) (q : Int) (places : Nat) (keepPoint : Bool) : List Char :=
  let (ds, e) := leading m q (places + 1)
  withPoint places keepPoint ds ++ Binary64.exponentText e

/-- Digits behind a point without the zeros at their end, and without the point if no digit is left. -/
def dropZeros (cs : List Char) : List Char :=
  if cs.contains '.' then
    let kept := (cs.reverse.dropWhile (· == '0')).reverse
    if kept.getLast? == some '.' then kept.dropLast else kept
  else cs

/-- The magnitude with `count` digits: with a power of ten when that is below `-4` or at least
`count`. Zeros at the end are left out, unless they are kept. -/
def general (m : Nat) (q : Int) (count : Nat) (keepZeros : Bool) : List Char :=
  let count := max count 1
  let (ds, e) := leading m q count
  let clean (cs : List Char) : List Char := if keepZeros then cs else dropZeros cs
  if -4 ≤ e && e < count then
    let places := ((count : Int) - 1 - e).toNat
    clean (fixed m q places keepZeros)
  else clean (withPoint (count - 1) keepZeros ds) ++ Binary64.exponentText e

end Codemod.Decimal
