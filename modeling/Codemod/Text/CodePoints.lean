import Codemod.Text.Bytes

/-!
# Texts of code points

A text in memory is a list of code points. Most of them are characters. The others are surrogates, which stand for no
character: the name of a file whose bytes are no characters brings them in, and so does the escape of one half of a pair.
Only a text of characters can be written as bytes.

Main statements:

* `CodePoints.encode?_ofString` says how a text of characters is written;
* `CodePoints.exists_ofString` says that no other text is.
-/

namespace Codemod

/-- A code point. -/
inductive CodePoint where
  | character (c : Char)
  /-- The code point that lies so far behind U+D800. -/
  | surrogate (offset : Fin 0x800)
  deriving DecidableEq, Repr

/-- A text in memory. -/
abbrev CodePoints := List CodePoint

namespace CodePoints

/-- The code points of a text of characters. -/
def ofString (s : String) : CodePoints :=
  s.toList.map .character

/-- The characters of a text that holds no surrogate. -/
def characters? : CodePoints → Option (List Char)
  | [] => some []
  | .character c :: rest => (characters? rest).map (c :: ·)
  | .surrogate _ :: _ => none

/-- The bytes of a text that holds no surrogate. -/
def encode? (t : CodePoints) : Option Bytes :=
  (characters? t).map fun cs => Bytes.ofString (String.ofList cs)

/-- A text without surrogates is that of its characters. -/
theorem characters?_eq_some_iff {t : CodePoints} {cs : List Char} :
    characters? t = some cs ↔ t = cs.map .character := by
  induction t generalizing cs with
  | nil => cases cs <;> simp [characters?]
  | cons p t ih =>
    cases p with
    | character c =>
      cases cs with
      | nil => simp [characters?]
      | cons d ds =>
        have hrest : characters? t = some ds ↔ t = ds.map .character := ih
        simp only [characters?, Option.map_eq_some_iff, List.cons.injEq, List.map_cons, CodePoint.character.injEq]
        constructor
        · rintro ⟨_, hds, rfl, rfl⟩
          exact ⟨rfl, hrest.mp hds⟩
        · rintro ⟨rfl, ht⟩
          exact ⟨ds, hrest.mpr ht, rfl, rfl⟩
    | surrogate n => cases cs <;> simp [characters?]

/-- A text of characters is written as their UTF-8 bytes. -/
@[simp] theorem encode?_ofString (s : String) : encode? (ofString s) = some (Bytes.ofString s) := by
  have hchars : characters? (ofString s) = some s.toList := characters?_eq_some_iff.mpr rfl
  rw [encode?, hchars, Option.map_some, String.ofList_toList]

/-- Only texts of characters can be written. -/
theorem exists_ofString {t : CodePoints} (h : encode? t ≠ none) : ∃ s, t = ofString s := by
  cases hchars : characters? t with
  | none => simp [encode?, hchars] at h
  | some cs => exact ⟨String.ofList cs, by rw [ofString, String.toList_ofList, characters?_eq_some_iff.mp hchars]⟩

end CodePoints
end Codemod
