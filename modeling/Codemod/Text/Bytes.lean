/-!
# Source text as bytes

Files hold bytes, and every position in a source is a byte offset. A text is therefore a list of
bytes; reading it as characters is a separate step that can fail (`Codemod.Text.Utf8`).

Main statements:

* `Bytes.length_slice` gives the length of a slice that lies inside the text;
* `Bytes.split_slice` says that a text is the part before a slice, the slice and the part after it.
-/

namespace Codemod

/-- The contents of a file, or a part of it. -/
abbrev Bytes := List UInt8

namespace Bytes

/-- The UTF-8 bytes of a string. -/
def ofString (s : String) : Bytes :=
  s.toByteArray.data.toList

/-- The bytes from offset `start` up to, not including, offset `stop`. -/
def slice (t : Bytes) (start stop : Nat) : Bytes :=
  (t.take stop).drop start

/-- A slice inside the text is as long as its offsets say. -/
theorem length_slice {t : Bytes} {start stop : Nat} (h : stop ≤ t.length) :
    (t.slice start stop).length = stop - start := by
  simp [slice, Nat.min_eq_left h]

/-- A text is what stands before a slice, the slice itself and what stands after it. -/
theorem split_slice (t : Bytes) {start stop : Nat} (h : start ≤ stop) :
    t.take start ++ t.slice start stop ++ t.drop stop = t := by
  have key : t.take start ++ t.slice start stop = t.take stop := by
    have := List.take_append_drop start (t.take stop)
    rwa [List.take_take, Nat.min_eq_left h] at this
  rw [key, List.take_append_drop]

/-- The line feed, which alone separates lines of a source. -/
def newline : UInt8 := 10

/-- A blank in the narrow sense: space, tab, line feed, vertical tab, form feed, return. -/
def isBlank (b : UInt8) : Bool :=
  b == 32 || (9 ≤ b && b ≤ 13)

/-- The number of line feeds before an offset: the row on which the offset lies. -/
def row (t : Bytes) (offset : Nat) : Nat :=
  (t.take offset).count newline

end Bytes
end Codemod
