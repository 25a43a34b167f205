import Codemod.Json.Reader

/-!
# The values of string literals

In the code of a module a text between quotes stands for a row of UTF-16 units. A backslash begins an escape, which
stands for a unit, a character or nothing; a line end must be escaped, and so must the quote. An escape is longer than
what it stands for. So what stands between the quotes is the value of the literal itself only where nothing needs to
be escaped.

Main statements:

* `length_valueFrom?_le` says that no value is longer than its text, and shorter than one with a backslash;
* `literalValue?_eq_iff` says which texts are their own values between quotes.
-/

namespace Codemod.Literal

/-! ### What a literal stands for -/

/-- The UTF-16 units of the character with a number. -/
def units (n : Nat) : List Nat :=
  if n < 0x10000 then [n] else [0xD800 + (n - 0x10000) / 0x400, 0xDC00 + (n - 0x10000) % 0x400]

/-- The UTF-16 units of a text. -/
def unitsOf (cs : List Char) : List Nat :=
  cs.flatMap fun c => units c.toNat

/-- The number that hexadecimal digits stand for. -/
def hexNumber? (digits : List Char) : Option Nat :=
  digits.foldlM (fun n c => (Json.hexValue? c).map (n * 16 + ·)) 0

/-- An escape by a fixed number of digits. The first component of an escape is the number of characters that belong
to it behind the backslash, and the second what it stands for. -/
def fixedEscape? (count : Nat) (rest : List Char) : Option (Nat × List Nat) :=
  if (rest.take count).length = count then (hexNumber? (rest.take count)).map fun n => (count + 1, [n]) else none

/-- An escape by digits between braces, of which the first has been read. -/
def bracedEscape? (rest : List Char) : Option (Nat × List Nat) :=
  let digits := rest.takeWhile (· != '\x7d')
  if digits.isEmpty || rest.length ≤ digits.length then none
  else (hexNumber? digits).bind fun n => if n ≤ 0x10FFFF then some (digits.length + 3, units n) else none

/-- The letters that stand for control characters, and what they stand for. -/
def controlLetters : List (Char × Nat) :=
  [('b', 8), ('t', 9), ('n', 10), ('v', 11), ('f', 12), ('r', 13)]

/-- Whether a character ends a line. -/
def isLineEnd (c : Char) : Bool :=
  c == '\n' || c == '\r' || c == '\u2028' || c == '\u2029'

/-- What an escape stands for, by the text behind the backslash. Octal numbers are no escapes in a module. -/
def escape? : List Char → Option (Nat × List Nat)
  | [] => none
  | c :: rest =>
    if c == 'x' then fixedEscape? 2 rest
    else if c == 'u' then
      if rest.head? == some '\x7b' then bracedEscape? (rest.drop 1) else fixedEscape? 4 rest
    else if c == '0' then if rest.head?.any Json.isDigit then none else some (1, [0])
    else if Json.isDigit c then none
    else if c == '\r' && rest.head? == some '\n' then some (2, [])
    else if isLineEnd c then some (1, [])
    else some (1, ((controlLetters.lookup c).map fun n => [n]).getD (units c.toNat))

/-- The value of what stands between quotes, where so many characters are still to be passed over. -/
def valueFrom? (quote : Char) : Nat → List Char → Option (List Nat)
  | _, [] => some []
  | skipped + 1, _ :: rest => valueFrom? quote skipped rest
  | 0, c :: rest =>
    if c == quote || c == '\n' || c == '\r' then none
    else if c == '\\' then (escape? rest).bind fun e => (valueFrom? quote e.1 rest).map (e.2 ++ ·)
    else (valueFrom? quote 0 rest).map (units c.toNat ++ ·)

/-- The value of a string literal, if a text is one. -/
def literalValue? : List Char → Option (List Nat)
  | [] => none
  | quote :: rest =>
    if (quote == '"' || quote == '\'') && rest.getLast? == some quote then valueFrom? quote 0 rest.dropLast else none

/-! ### Values of texts with and without escapes -/

variable {quote : Char} {n : Nat} {us : List Nat}

theorem units_bounds (n : Nat) : 0 < (units n).length ∧ (units n).length ≤ 2 := by
  unfold units
  split <;> simp

@[simp] theorem unitsOf_cons (c : Char) (cs : List Char) : unitsOf (c :: cs) = units c.toNat ++ unitsOf cs := rfl

@[simp] theorem unitsOf_append (cs ds : List Char) : unitsOf (cs ++ ds) = unitsOf cs ++ unitsOf ds :=
  List.flatMap_append ..

theorem length_le_unitsOf (cs : List Char) : cs.length ≤ (unitsOf cs).length := by
  induction cs with
  | nil => exact Nat.le_refl _
  | cons c rest ih =>
    have hpos := (units_bounds c.toNat).1
    simp only [unitsOf_cons, List.length_append, List.length_cons]
    omega

/-- An escape stands for no more units than are written behind its backslash. -/
theorem length_escape?_le {cs : List Char} (h : escape? cs = some (n, us)) :
    us.length ≤ (unitsOf (cs.take n)).length := by
  have hlong := length_le_unitsOf (cs.take n)
  rw [List.length_take] at hlong
  cases cs with
  | nil => cases h
  | cons c rest =>
    rw [List.length_cons] at hlong
    have hfixed : ∀ {count : Nat}, fixedEscape? count rest = some (n, us) → us.length ≤ 1 ∧ 0 < n := by
      intro count h
      unfold fixedEscape? at h
      split at h
      · obtain ⟨m, -, heq⟩ := Option.map_eq_some_iff.mp h
        cases heq
        simp
      · cases h
    have hbraced : bracedEscape? (rest.drop 1) = some (n, us) → us.length ≤ 2 ∧ 2 ≤ n ∧ 2 ≤ rest.length := by
      intro h
      unfold bracedEscape? at h
      dsimp only at h
      split at h
      · cases h
      · rename_i hclosed
        obtain ⟨m, -, h⟩ := Option.bind_eq_some_iff.mp h
        split at h
        · cases h
          have := (units_bounds m).2
          simp only [Bool.or_eq_true, decide_eq_true_eq, not_or, List.length_drop] at hclosed
          omega
        · cases h
    simp only [escape?] at h
    split at h
    · have := hfixed h
      omega
    split at h
    · split at h
      · have := hbraced h
        omega
      · have := hfixed h
        omega
    split at h
    · split at h
      · cases h
      · cases h
        simp at hlong ⊢
        omega
    split at h
    · cases h
    split at h
    · cases h
      exact Nat.zero_le _
    split at h
    · cases h
      exact Nat.zero_le _
    · cases h
      rw [List.take_succ_cons, List.take_zero, unitsOf_cons, List.length_append]
      have hpos := (units_bounds c.toNat).1
      cases controlLetters.lookup c with
      | none => simp
      | some m => simp; omega

/-- A text between quotes stands for no more units than it has, and for fewer if an escape begins in it. -/
theorem length_valueFrom?_le {skipped : Nat} {cs : List Char} (h : valueFrom? quote skipped cs = some us) :
    us.length ≤ (unitsOf (cs.drop skipped)).length ∧
      ('\\' ∈ cs.drop skipped → us.length < (unitsOf (cs.drop skipped)).length) := by
  induction cs generalizing skipped us with
  | nil =>
    cases skipped <;> (cases h; simp)
  | cons c rest ih =>
    cases skipped with
    | succ skipped => exact ih h
    | zero =>
      have hpos := (units_bounds c.toNat).1
      simp only [valueFrom?] at h
      rw [List.drop_zero, unitsOf_cons, List.length_append]
      split at h
      · cases h
      split at h
      · -- The escape is no longer than what belongs to it, and its backslash comes on top.
        obtain ⟨⟨n, vs⟩, hescape, h⟩ := Option.bind_eq_some_iff.mp h
        obtain ⟨ws, hrest, rfl⟩ := Option.map_eq_some_iff.mp h
        have hle := length_escape?_le hescape
        have hmore := (ih hrest).1
        have hsplit : (unitsOf rest).length =
            (unitsOf (rest.take n)).length + (unitsOf (rest.drop n)).length := by
          rw [← List.length_append, ← unitsOf_append, List.take_append_drop]
        rw [List.length_append]
        dsimp only at hmore ⊢
        omega
      · rename_i hno
        obtain ⟨ws, hrest, rfl⟩ := Option.map_eq_some_iff.mp h
        have hc : '\\' ≠ c := fun heq => hno (by rw [← heq]; rfl)
        obtain ⟨hle, hlt⟩ := ih hrest
        rw [List.drop_zero] at hle hlt
        rw [List.length_append]
        refine ⟨by omega, fun hmem => ?_⟩
        have := hlt ((List.mem_cons.mp hmem).resolve_left hc)
        omega

/-- Whether a character stands for itself between quotes. -/
def Plain (quote c : Char) : Prop :=
  c ≠ quote ∧ c ≠ '\\' ∧ c ≠ '\n' ∧ c ≠ '\r'

/-- Where no escape begins, neither a quote nor a line end stands between the quotes. -/
theorem plain_of_valueFrom? {cs : List Char} (h : valueFrom? quote 0 cs = some us) (hno : '\\' ∉ cs) :
    ∀ c ∈ cs, Plain quote c := by
  induction cs generalizing us with
  | nil => exact fun _ hc => absurd hc List.not_mem_nil
  | cons c rest ih =>
    obtain ⟨hc, hrest⟩ := not_or.mp (mt List.mem_cons.mpr hno)
    simp only [valueFrom?] at h
    split at h
    · cases h
    · rename_i hends
      simp only [Bool.or_eq_true, beq_iff_eq, not_or] at hends
      rw [if_neg (by simpa using Ne.symm hc)] at h
      obtain ⟨vs, hvs, -⟩ := Option.map_eq_some_iff.mp h
      exact List.forall_mem_cons.mpr ⟨⟨hends.1.1, Ne.symm hc, hends.1.2, hends.2⟩, ih hvs hrest⟩

/-- What stands between quotes is its own value exactly when each of its characters stands for itself. -/
theorem valueFrom?_eq_iff {cs : List Char} :
    valueFrom? quote 0 cs = some (unitsOf cs) ↔ ∀ c ∈ cs, Plain quote c := by
  constructor
  · intro h
    exact plain_of_valueFrom? h fun hmem => Nat.lt_irrefl _ ((length_valueFrom?_le h).2 hmem)
  · intro h
    induction cs with
    | nil => rfl
    | cons c rest ih =>
      obtain ⟨⟨hquote, hback, hnewline, hreturn⟩, hrest⟩ := List.forall_mem_cons.mp h
      simp [valueFrom?, hquote, hback, hnewline, hreturn, ih hrest]

/-- A text between quotes is a string literal that stands for just that text exactly when each of its characters
stands for itself. -/
theorem literalValue?_eq_iff {cs : List Char} (hquote : quote = '"' ∨ quote = '\'') :
    literalValue? (quote :: (cs ++ [quote])) = some (unitsOf cs) ↔ ∀ c ∈ cs, Plain quote c := by
  rw [← valueFrom?_eq_iff]
  rcases hquote with rfl | rfl <;> simp [literalValue?]

/-- An escape of two digits, one between braces, a line end, and three characters. -/
example : literalValue? "\"a\\x41\\u\x7b1F600\x7d\\\n\\0\\\"\"".toList =
    some ([0x61, 0x41] ++ units 0x1F600 ++ [0, 0x22]) := by
  decide

end Codemod.Literal
