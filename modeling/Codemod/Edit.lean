import Codemod.Text.CodePoints

/-!
# Edits

An edit replaces a range of bytes by a text. A batch of edits refers to one text; it is applied from
the end of the text to its beginning, so that the offsets of the edits that are still to be applied stay
valid. Two edits must not overlap. Of several insertions at one place the later in the batch comes
first.

What is planned for a file is written in characters. An edit that is asked for from outside can hold any text, and a
batch with such edits is refused where a text cannot be written as bytes.

Main statements:

* `Edit.mem_ordered_iff` says that putting a batch in order keeps its edits;
* `Edit.applyAll_nil` says that an empty batch changes nothing;
* `Edit.applyAll_singleton` says what one edit does;
* `Edit.applyTexts_ofCharacters` says that a batch in characters is applied as any other batch is.
-/

namespace Codemod

/-- Replaces the bytes from `start` up to, not including, `stop`. -/
structure Edit (τ : Type := String) where
  start : Nat
  stop : Nat
  text : τ
  deriving DecidableEq, Repr

namespace Edit

section

variable {τ : Type}

/-- Whether an edit is applied before another: its range lies further back. -/
def isBehind (a b : Edit τ) : Bool :=
  b.start < a.start || (a.start == b.start && b.stop < a.stop)

/-- Puts an edit into an ordered batch, in front of those that it is not behind. -/
def insertOrdered (e : Edit τ) : List (Edit τ) → List (Edit τ)
  | [] => [e]
  | f :: rest => if f.isBehind e then f :: insertOrdered e rest else e :: f :: rest

/-- A batch in the order in which it is applied: from the back to the front, edits of one range in
their given order. -/
def ordered : List (Edit τ) → List (Edit τ)
  | [] => []
  | e :: rest => insertOrdered e (ordered rest)

theorem mem_insertOrdered_iff {e f : Edit τ} {l : List (Edit τ)} :
    f ∈ insertOrdered e l ↔ f = e ∨ f ∈ l := by
  induction l with
  | nil => simp [insertOrdered]
  | cons g rest ih =>
    unfold insertOrdered
    split
    case isTrue => simp [ih]; constructor <;> rintro (h | h | h) <;> simp [h]
    case isFalse => simp

/-- Putting a batch in order keeps its edits. -/
theorem mem_ordered_iff {f : Edit τ} {l : List (Edit τ)} : f ∈ ordered l ↔ f ∈ l := by
  induction l with
  | nil => simp [ordered]
  | cons e rest ih => simp [ordered, mem_insertOrdered_iff, ih]

/-- The text with the range of one edit replaced by some bytes. -/
def replace (e : Edit τ) (bytes t : Bytes) : Bytes :=
  t.take e.start ++ bytes ++ t.drop e.stop

/-- Applies edits one after the other. Each must end at or before `limit`, which is where the one
before it began; the start of the first that does not makes the error. Then its text is written as bytes,
which may fail too. -/
def applyOrderedBy {ε : Type} (encode : τ → Except ε Bytes) (overlapping : Nat → ε) (limit : Nat) (t : Bytes) :
    List (Edit τ) → Except ε Bytes
  | [] => .ok t
  | e :: rest =>
    if limit < e.stop then .error (overlapping e.start)
    else match encode e.text with
      | .error x => .error x
      | .ok bytes => applyOrderedBy encode overlapping e.start (e.replace bytes t) rest

end

/-! ### Edits in characters -/

/-- The text with the range of one edit replaced. -/
def splice (e : Edit) (t : Bytes) : Bytes :=
  e.replace (Bytes.ofString e.text) t

/-- Applies edits one after the other. The start of the first that does not end at or before the limit is the
error. -/
def applyOrdered (limit : Nat) (t : Bytes) (l : List Edit) : Except Nat Bytes :=
  applyOrderedBy (fun s => .ok (Bytes.ofString s)) id limit t l

theorem applyOrdered_cons (limit : Nat) (t : Bytes) (e : Edit) (rest : List Edit) :
    applyOrdered limit t (e :: rest) =
      if limit < e.stop then .error e.start else applyOrdered e.start (e.splice t) rest := rfl

/-- Applies a batch to the text that it refers to, or gives the start of an edit that overlaps
another or ends behind the text. -/
def applyAll (edits : List Edit) (t : Bytes) : Except Nat Bytes :=
  applyOrdered t.length t (ordered edits)

/-- An empty batch changes nothing. -/
@[simp] theorem applyAll_nil (t : Bytes) : applyAll [] t = .ok t := rfl

/-- One edit replaces its range, if that lies within the text. -/
theorem applyAll_singleton (e : Edit) (t : Bytes) :
    applyAll [e] t = if t.length < e.stop then .error e.start else .ok (e.splice t) := rfl

/-! ### Edits in any text -/

/-- Why a batch is refused. -/
inductive Refusal where
  /-- The edit with this start overlaps another one or ends behind the text. -/
  | overlapping (start : Nat)
  /-- A text holds a surrogate, and so cannot be written as bytes. -/
  | unencodable
  deriving DecidableEq, Repr

/-- The bytes of a text. -/
def encode (t : CodePoints) : Except Refusal Bytes :=
  match CodePoints.encode? t with
  | some bytes => .ok bytes
  | none => .error .unencodable

/-- Applies a batch with any texts to the text that it refers to. -/
def applyTexts (edits : List (Edit CodePoints)) (t : Bytes) : Except Refusal Bytes :=
  applyOrderedBy encode .overlapping t.length t (ordered edits)

/-- An edit in characters. -/
def ofCharacters (e : Edit) : Edit CodePoints :=
  ⟨e.start, e.stop, CodePoints.ofString e.text⟩

theorem ordered_ofCharacters (edits : List Edit) :
    ordered (edits.map ofCharacters) = (ordered edits).map ofCharacters := by
  have hinsert : ∀ (e : Edit) (l : List Edit),
      insertOrdered e.ofCharacters (l.map ofCharacters) = (insertOrdered e l).map ofCharacters := by
    intro e l
    induction l with
    | nil => rfl
    | cons f rest ih =>
      show (if f.isBehind e then _ else _) = (if f.isBehind e then _ else _ : List Edit).map ofCharacters
      rw [ih, apply_ite (List.map ofCharacters)]
      rfl
  induction edits with
  | nil => rfl
  | cons e rest ih =>
    show insertOrdered e.ofCharacters (ordered (rest.map ofCharacters)) = _
    rw [ih, hinsert]
    rfl

theorem applyOrderedBy_ofCharacters (limit : Nat) (t : Bytes) (l : List Edit) :
    applyOrderedBy encode .overlapping limit t (l.map ofCharacters) =
      (applyOrdered limit t l).mapError .overlapping := by
  induction l generalizing limit t with
  | nil => rfl
  | cons e rest ih =>
    have hencode : encode e.ofCharacters.text = .ok (Bytes.ofString e.text) := by
      unfold encode ofCharacters
      rw [CodePoints.encode?_ofString]
    rw [List.map_cons, applyOrderedBy, hencode, applyOrdered_cons]
    show (if limit < e.stop then _ else _) = _
    split
    · rfl
    · exact ih e.start (e.splice t)

/-- A batch in characters is applied as any other is. -/
theorem applyTexts_ofCharacters (edits : List Edit) (t : Bytes) :
    applyTexts (edits.map ofCharacters) t = (applyAll edits t).mapError .overlapping := by
  unfold applyTexts applyAll
  rw [ordered_ofCharacters, applyOrderedBy_ofCharacters]

end Edit
end Codemod
