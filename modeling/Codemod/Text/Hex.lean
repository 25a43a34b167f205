/-!
# Hexadecimal digits

Numbers in a fixed count of lower-case hexadecimal digits.

Main statements:

* `length_hexDigits` gives the count;
* `visible_of_mem_hexDigits` says that each digit is a visible ASCII character.
-/

namespace Codemod.Text

/-- The digit of a number below sixteen. -/
def hexDigit (n : Nat) : Char :=
  if n < 10 then Char.ofNat (48 + n) else Char.ofNat (87 + n)

/-- The lowest `width` hexadecimal digits of a number, the highest first. -/
def hexDigits : Nat → Nat → List Char
  | 0, _ => []
  | width + 1, n => hexDigits width (n / 16) ++ [hexDigit (n % 16)]

/-- There are as many digits as were asked for. -/
@[simp] theorem length_hexDigits (width n : Nat) : (hexDigits width n).length = width := by
  induction width generalizing n with
  | zero => rfl
  | succ w ih => simp [hexDigits, ih]

/-- A visible ASCII character or the space. -/
def isVisible (c : Char) : Bool :=
  32 ≤ c.toNat && c.toNat < 127

theorem visible_hexDigit : ∀ n < 16, isVisible (hexDigit n) = true := by
  decide

/-- Each hexadecimal digit is a visible ASCII character. -/
theorem visible_of_mem_hexDigits {width n : Nat} {c : Char} (h : c ∈ hexDigits width n) :
    isVisible c = true := by
  induction width generalizing n with
  | zero => simp [hexDigits] at h
  | succ w ih =>
    rcases List.mem_append.mp h with h | h
    · exact ih h
    · rw [List.mem_singleton.mp h]
      exact visible_hexDigit _ (Nat.mod_lt _ (by decide))

end Codemod.Text
