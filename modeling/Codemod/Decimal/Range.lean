/-!
# Ranges of whole numbers

Counts are kept in words of a fixed size, and a number that does not fit is refused.

Main statements:

* `fitsBits_iff` says which numbers fit.
-/

namespace Codemod.Decimal

/-- Whether a number fits into so many bits and a sign. -/
def fitsBits (bits : Nat) (n : Int) : Bool :=
  let bound : Int := (Nat.pow 2 bits : Nat)
  0 ≤ n + bound && n < bound

/-- The numbers that fit lie from minus to below plus a power of two. -/
theorem fitsBits_iff {bits : Nat} {n : Int} :
    fitsBits bits n = true ↔
      -((Nat.pow 2 bits : Nat) : Int) ≤ n ∧ n < ((Nat.pow 2 bits : Nat) : Int) := by
  unfold fitsBits
  rw [Bool.and_eq_true, decide_eq_true_eq, decide_eq_true_eq]
  exact and_congr_left fun _ => by omega

end Codemod.Decimal
