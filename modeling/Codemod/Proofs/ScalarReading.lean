import Codemod.Proofs.DocumentTokens

/-!
# Words and numbers are read on their own

The values that are written without quotes and brackets are built from digits, ASCII letters, points and signs. A
reader of one of their parts takes only such characters off a text, and a character of another kind behind them
changes nothing. Both pass from parts to what is put together from them, and so to numbers as a whole.

Main statements:

* `local_readScalar` says this of a word or a number;
* `readScalar_append` and `exists_scalar_of_readScalar` say which texts a value is read from, whatever follows;
* `isScalarChar_of_scalar?` says which characters a word with a value has.
-/

namespace Codemod.Json

/-- A character of a value that is written as a word or a number. -/
def isScalarChar (c : Char) : Bool :=
  isDigit c || ('a' ≤ c && c ≤ 'z') || ('A' ≤ c && c ≤ 'Z') || c == '.' || c == '+' || c == '-'

/-- Whether no such character comes first. -/
def Bounded (cs : List Char) : Prop :=
  ∀ c ∈ cs.head?, isScalarChar c = false

theorem isScalarChar_of_isDigit {c : Char} (h : isDigit c = true) : isScalarChar c = true := by
  simp [isScalarChar, h]

/-! ### Readers of parts -/

/-- Whether a reader takes only such characters off a text, and reads the same whatever follows them. -/
structure Local {α : Type} (f : List Char → Option (α × List Char)) : Prop where
  takes : ∀ {cs rest a}, f cs = some (a, rest) → ∃ used, cs = used ++ rest ∧ ∀ c ∈ used, isScalarChar c = true
  ahead : ∀ {cs rest}, Bounded rest → f (cs ++ rest) = (f cs).map fun r => (r.1, r.2 ++ rest)

/-- One reader after another. -/
def andThen {α β : Type} (f : List Char → Option (α × List Char)) (g : α → List Char → Option (β × List Char))
    (cs : List Char) : Option (β × List Char) :=
  (f cs).bind fun r => g r.1 r.2

/-- A part that may be missing. -/
def optional {α : Type} (f : List Char → Option (α × List Char)) (cs : List Char) : Option (Option α × List Char) :=
  match f cs with
  | some (a, rest) => some (some a, rest)
  | none => some (none, cs)

/-- A result without reading. -/
def result {α : Type} (a? : Option α) (cs : List Char) : Option (α × List Char) :=
  a?.map (·, cs)

/-- A character of a kind. -/
def charOf (p : Char → Bool) : List Char → Option (Char × List Char)
  | c :: cs => if p c then some (c, cs) else none
  | [] => none

/-- The digits at the beginning. -/
def digits (cs : List Char) : Option (List Char × List Char) :=
  some (cs.takeWhile isDigit, cs.dropWhile isDigit)

namespace Local

variable {α β : Type} {f g : List Char → Option (α × List Char)}

theorem result (a? : Option α) : Local (Json.result a?) where
  takes h := by
    obtain ⟨a, -, h⟩ := Option.map_eq_some_iff.mp h
    cases h
    exact ⟨[], rfl, by simp⟩
  ahead _ := by simp [Json.result, Function.comp_def]

theorem andThen {g : α → List Char → Option (β × List Char)} (hf : Local f) (hg : ∀ a, Local (g a)) :
    Local (andThen f g) where
  takes h := by
    obtain ⟨⟨a, more⟩, hfirst, hsecond⟩ := Option.bind_eq_some_iff.mp h
    obtain ⟨used, rfl, hused⟩ := hf.takes hfirst
    obtain ⟨used', rfl, hused'⟩ := (hg a).takes hsecond
    exact ⟨used ++ used', by simp, List.forall_mem_append.mpr ⟨hused, hused'⟩⟩
  ahead {cs rest} hrest := by
    unfold Json.andThen
    rw [hf.ahead hrest]
    cases f cs with
    | none => rfl
    | some r => exact (hg r.1).ahead hrest

theorem or (hf : Local f) (hg : Local g) : Local fun cs => (f cs).or (g cs) where
  takes h := by
    rcases Option.or_eq_some_iff.mp h with h | ⟨-, h⟩
    · exact hf.takes h
    · exact hg.takes h
  ahead {cs rest} hrest := by
    rw [hf.ahead hrest, hg.ahead hrest]
    cases f cs <;> rfl

theorem optional (hf : Local f) : Local (optional f) where
  takes {cs rest a} h := by
    unfold Json.optional at h
    split at h
    · rename_i b more hread
      cases h
      exact hf.takes hread
    · cases h
      exact ⟨[], rfl, by simp⟩
  ahead {cs rest} hrest := by
    unfold Json.optional
    rw [hf.ahead hrest]
    cases f cs <;> rfl

theorem charOf {p : Char → Bool} (hp : ∀ c, p c = true → isScalarChar c = true) : Local (charOf p) where
  takes {cs rest a} h := by
    cases cs with
    | nil => cases h
    | cons c cs =>
      simp only [Json.charOf] at h
      split at h
      · rename_i hc
        cases h
        exact ⟨[a], rfl, by simpa using hp a hc⟩
      · cases h
  ahead {cs rest} hrest := by
    cases cs with
    | nil =>
      cases rest with
      | nil => rfl
      | cons c rest =>
        have hc : ¬ p c = true := fun h => by simpa [hrest c rfl] using hp c h
        simp [Json.charOf, hc]
    | cons c cs => cases hc : p c <;> simp [Json.charOf, hc]

theorem digits : Local digits where
  takes {cs rest a} h := by
    cases h
    refine ⟨cs.takeWhile isDigit, List.takeWhile_append_dropWhile.symm, fun c hc => ?_⟩
    exact isScalarChar_of_isDigit (List.all_eq_true.mp List.all_takeWhile c hc)
  ahead {cs rest} hrest := by
    have hstop : rest.takeWhile isDigit = [] ∧ rest.dropWhile isDigit = rest := by
      cases rest with
      | nil => exact ⟨rfl, rfl⟩
      | cons c rest =>
        have hc : ¬ isDigit c = true := fun h => by simpa [hrest c rfl] using isScalarChar_of_isDigit h
        simp [hc]
    induction cs with
    | nil => simp [Json.digits, hstop.1, hstop.2]
    | cons c cs ih =>
      cases hc : isDigit c with
      | false => simp [Json.digits, hc]
      | true => simpa [Json.digits, hc] using ih

end Local

/-! ### Numbers -/

/-- At least one digit. -/
def someDigits : List Char → Option (List Char × List Char) :=
  andThen digits fun ds => result (if ds.isEmpty then none else some ds)

theorem someDigits_of_nil {cs : List Char} (h : cs.takeWhile isDigit = []) : someDigits cs = none := by
  unfold someDigits andThen digits
  rw [h]
  rfl

theorem someDigits_of_cons {cs ds : List Char} {d : Char} (h : cs.takeWhile isDigit = d :: ds) :
    someDigits cs = some (d :: ds, cs.dropWhile isDigit) := by
  unfold someDigits andThen digits
  rw [h]
  rfl

/-- The digits of a whole number; behind a zero none is read. -/
def wholeDigits (cs : List Char) : Option (List Char × List Char) :=
  (andThen (charOf (· == '0')) (fun c => result (some [c])) cs).or (someDigits cs)

/-- The fraction of a number. -/
def fraction : List Char → Option (List Char × List Char) :=
  andThen (charOf (· == '.')) fun _ => someDigits

theorem readFraction_eq (cs : List Char) : readFraction cs = (fraction cs).getD ([], cs) := by
  unfold readFraction
  split
  · rename_i rest
    cases hds : rest.takeWhile isDigit with
    | nil => simp [fraction, andThen, charOf, someDigits_of_nil hds]
    | cons d ds => simp [fraction, andThen, charOf, someDigits_of_cons hds]
  · rename_i hother
    cases cs with
    | nil => rfl
    | cons c cs =>
      have hc : c ≠ '.' := fun h => hother cs (by rw [h])
      simp [fraction, andThen, charOf, hc]

/-- The sign of an exponent. -/
def exponentSign : List Char → Option (Option Char × List Char) :=
  optional (charOf fun c => c == '+' || c == '-')

/-- The number of an exponent. -/
def exponentOf (sign : Option Char) (ds : List Char) : Int :=
  let n : Int := Decimal.ofDigits (digitValues ds)
  if sign = some '-' then -n else n

theorem readExponent_eq : readExponent =
    andThen (charOf fun c => c == 'e' || c == 'E') (fun _ => andThen exponentSign fun sign =>
      andThen someDigits fun ds => result (some (exponentOf sign ds))) := by
  funext cs
  unfold readExponent
  cases cs with
  | nil => rfl
  | cons c cs =>
    simp only [andThen, charOf]
    split
    · cases cs with
      | nil => rfl
      | cons d cs =>
        -- Behind the sign, if there is one, come digits.
        by_cases hplus : d = '+'
        · subst hplus
          cases hds : cs.takeWhile isDigit with
          | nil => simp [exponentSign, optional, charOf, someDigits_of_nil hds, hds]
          | cons a ds => simp [exponentSign, optional, charOf, someDigits_of_cons hds, result, exponentOf, hds]
        by_cases hminus : d = '-'
        · subst hminus
          cases hds : cs.takeWhile isDigit with
          | nil => simp [exponentSign, optional, charOf, someDigits_of_nil hds, hds]
          | cons a ds => simp [exponentSign, optional, charOf, someDigits_of_cons hds, result, exponentOf, hds]
        have hnone : exponentSign (d :: cs) = some (none, d :: cs) := by
          simp [exponentSign, optional, charOf, hplus, hminus]
        cases hds : (d :: cs).takeWhile isDigit with
        | nil => simp [hnone, someDigits_of_nil hds, hplus, hminus, hds]
        | cons a ds => simp [hnone, someDigits_of_cons hds, result, exponentOf, hplus, hminus, hds]
    · rfl

/-- The value of a number from its parts; a whole number can have too many digits. -/
def numberOf (negative : Bool) (ds : List Char) (fraction? : Option (List Char)) (exponent? : Option Int) :
    Option Value :=
  let fraction := fraction?.getD []
  let n := Decimal.ofDigits (digitValues (ds ++ fraction))
  match exponent? with
  | some e => some (.real (.ofDecimal negative n (e - fraction.length)))
  | none =>
    if fraction.isEmpty then
      if Text.digitLimit < ds.length then none else some (.int (if negative then -(n : Int) else n))
    else some (.real (.ofDecimal negative n (-(fraction.length : Int))))

/-- What follows the whole part of a number. -/
def numberBehind (negative : Bool) (ds : List Char) : List Char → Option (Value × List Char) :=
  andThen (optional fraction) fun fraction? => andThen (optional readExponent) fun exponent? =>
    result (numberOf negative ds fraction? exponent?)

/-- The number that begins with a whole part, as it is read. -/
def readBehind (negative : Bool) (ds rest : List Char) : Except Stop (Value × List Char) :=
  let (fraction, rest) := readFraction rest
  let n := Decimal.ofDigits (digitValues (ds ++ fraction))
  match readExponent rest with
  | some (e, rest) => .ok (.real (.ofDecimal negative n (e - fraction.length)), rest)
  | none =>
    if fraction.isEmpty then
      if Text.digitLimit < ds.length then .error none
      else .ok (.int (if negative then -(n : Int) else n), rest)
    else .ok (.real (.ofDecimal negative n (-(fraction.length : Int))), rest)

theorem toOption_readBehind (negative : Bool) (ds rest : List Char) :
    (readBehind negative ds rest).toOption = numberBehind negative ds rest := by
  unfold readBehind
  rw [readFraction_eq]
  unfold numberBehind andThen optional
  cases hfraction : fraction rest <;>
  · simp only [Option.getD_some, Option.getD_none, Option.bind_some]
    split
    · rename_i hexponent
      simp [hexponent, result, numberOf, Except.toOption]
    · rename_i hexponent
      simp only [hexponent, result, numberOf, Option.bind_some, Option.getD_some, Option.getD_none]
      (repeat' split) <;> simp_all [Except.toOption]

section

variable {negative : Bool} {opening cs ds : List Char} {d : Char} (hother : ∀ rest, cs ≠ '0' :: rest)

include hother

theorem readNumber_of_nil (h : cs.takeWhile isDigit = []) :
    readNumber negative opening cs = stop .expectingValue opening := by
  unfold readNumber
  split
  · exact absurd rfl (hother _)
  · rw [h]

theorem readNumber_of_cons (h : cs.takeWhile isDigit = d :: ds) :
    readNumber negative opening cs = readBehind negative (d :: ds) (cs.dropWhile isDigit) := by
  unfold readNumber
  split
  · exact absurd rfl (hother _)
  · rw [h]
    rfl

end

/-- Reading a number is reading its parts one after another. -/
theorem toOption_readNumber (negative : Bool) (opening cs : List Char) :
    (readNumber negative opening cs).toOption = andThen wholeDigits (numberBehind negative) cs := by
  -- Behind a zero no more digits of the whole number are read.
  by_cases hzero : ∃ rest, cs = '0' :: rest
  · obtain ⟨rest, rfl⟩ := hzero
    exact toOption_readBehind negative ['0'] rest
  have hwhole : wholeDigits cs = someDigits cs := by
    cases cs with
    | nil => rfl
    | cons c cs =>
      have hc : (c == '0') = false := by simpa using fun h => hzero ⟨cs, by rw [h]⟩
      simp [wholeDigits, andThen, charOf, hc]
  have hother : ∀ rest, cs ≠ '0' :: rest := fun rest h => hzero ⟨rest, h⟩
  rw [andThen, hwhole]
  cases hds : cs.takeWhile isDigit with
  | nil =>
    rw [someDigits_of_nil hds, readNumber_of_nil hother hds]
    rfl
  | cons d ds =>
    rw [someDigits_of_cons hds, readNumber_of_cons hother hds]
    exact toOption_readBehind ..

/-! ### Words and numbers -/

theorem local_someDigits : Local someDigits :=
  Local.digits.andThen fun _ => .result _

theorem local_fraction : Local fraction :=
  (Local.charOf (by simp [isScalarChar])).andThen fun _ => local_someDigits

theorem local_readExponent : Local readExponent := by
  rw [readExponent_eq]
  refine (Local.charOf ?_).andThen fun _ => (Local.charOf ?_).optional.andThen fun _ =>
    local_someDigits.andThen fun _ => .result _
  · intro c hc
    simp only [Bool.or_eq_true, beq_iff_eq] at hc
    rcases hc with rfl | rfl <;> decide
  · intro c hc
    simp only [Bool.or_eq_true, beq_iff_eq] at hc
    rcases hc with rfl | rfl <;> decide

theorem local_wholeDigits : Local wholeDigits :=
  ((Local.charOf fun c hc => by rw [beq_iff_eq.mp hc]; decide).andThen fun _ => .result _).or local_someDigits

theorem local_number (negative : Bool) : Local (andThen wholeDigits (numberBehind negative)) :=
  local_wholeDigits.andThen fun _ => local_fraction.optional.andThen fun _ =>
    local_readExponent.optional.andThen fun _ => .result _

theorem eq_append_of_dropWord? {w cs rest : List Char} (h : dropWord? w cs = some rest) : cs = w ++ rest := by
  induction w generalizing cs with
  | nil => exact Option.some.inj h
  | cons c w ih =>
    cases cs with
    | nil => cases h
    | cons d cs =>
      simp only [dropWord?] at h
      split at h
      · rename_i hc
        rw [hc, List.cons_append, ih h]
      · cases h

theorem Local.dropWord {w : List Char} (hw : ∀ c ∈ w, isScalarChar c = true) (v : Value) :
    Local fun cs => (dropWord? w cs).map (v, ·) where
  takes {cs rest a} h := by
    obtain ⟨more, hmore, h⟩ := Option.map_eq_some_iff.mp h
    cases h
    exact ⟨w, eq_append_of_dropWord? hmore, hw⟩
  ahead {cs rest} hrest := by
    induction w generalizing cs with
    | nil => rfl
    | cons c w ih =>
      obtain ⟨hc, hw⟩ := List.forall_mem_cons.mp hw
      cases cs with
      | nil =>
        cases rest with
        | nil => rfl
        | cons d rest =>
          -- The word would have to go on in the rest.
          have hne : c ≠ d := by
            rintro rfl
            rw [hrest c rfl] at hc
            cases hc
          simp [dropWord?, hne]
      | cons d cs =>
        by_cases hd : c = d
        · subst hd
          have hrest := @ih hw cs
          simpa [dropWord?] using hrest
        · simp [dropWord?, hd]

theorem local_readWord : Local readWord := by
  have hall : ∀ w ∈ words, ∀ c ∈ w.1, isScalarChar c = true := by
    have hchars : (words.all fun w => w.1.all isScalarChar) = true := by decide
    exact fun w hw => List.all_eq_true.mp (List.all_eq_true.mp hchars w hw)
  unfold readWord
  generalize words = ws at hall
  induction ws with
  | nil => exact .result none
  | cons w ws ih =>
    obtain ⟨hw, hws⟩ := List.forall_mem_cons.mp hall
    have heq : (fun cs => (w :: ws).findSome? fun w => (dropWord? w.1 cs).map (w.2, ·)) =
        fun cs => ((dropWord? w.1 cs).map (w.2, ·)).or (ws.findSome? fun w => (dropWord? w.1 cs).map (w.2, ·)) := by
      funext cs
      rw [List.findSome?_cons]
      cases (dropWord? w.1 cs).map (w.2, ·) <;> rfl
    rw [heq]
    exact (Local.dropWord hw w.2).or (ih hws)

/-- A word or a number is read from characters of its own, and the same whatever follows them. -/
theorem local_readScalar : Local fun cs => (readScalar cs).toOption := by
  have heq : (fun cs => (readScalar cs).toOption) = fun cs => (readWord cs).or (andThen (optional (charOf (· == '-')))
      (fun sign? => andThen wholeDigits (numberBehind sign?.isSome)) cs) := by
    funext cs
    unfold readScalar
    cases readWord cs with
    | some r => rfl
    | none =>
      simp only [Option.none_or]
      split
      · exact toOption_readNumber ..
      · rename_i hother
        have hsign : optional (charOf (· == '-')) cs = some (none, cs) := by
          cases cs with
          | nil => rfl
          | cons c cs =>
            have hc : (c == '-') = false := by simpa using fun h => hother cs (by rw [h])
            simp [optional, charOf, hc]
        rw [andThen, hsign]
        exact toOption_readNumber ..
  rw [heq]
  refine local_readWord.or ((Local.charOf fun c hc => ?_).optional.andThen fun _ => local_number _)
  rw [beq_iff_eq.mp hc]
  decide

section

variable {cs rest : List Char} {v : Value}

theorem scalar?_eq_some_iff : scalar? cs = some v ↔ readScalar cs = .ok (v, []) := by
  unfold scalar?
  constructor
  · intro h
    split at h
    · rename_i hread
      rw [hread, Option.some.inj h]
    · cases h
  · intro h
    rw [h]

/-- What is read as a value is read with anything behind it that goes on with no character of a value. -/
theorem readScalar_append (h : scalar? cs = some v) (hrest : Bounded rest) :
    readScalar (cs ++ rest) = .ok (v, rest) := by
  have hread : (readScalar (cs ++ rest)).toOption = _ := local_readScalar.ahead hrest
  rw [scalar?_eq_some_iff.mp h] at hread
  cases hboth : readScalar (cs ++ rest) with
  | error e => rw [hboth] at hread; cases hread
  | ok r => rw [hboth] at hread; simpa [Except.toOption] using hread

/-- A value that is read from the beginning of a text is that of the characters which are taken. -/
theorem exists_scalar_of_readScalar (h : readScalar cs = .ok (v, rest)) (hrest : Bounded rest) :
    ∃ used, cs = used ++ rest ∧ scalar? used = some v := by
  have htaken : (readScalar cs).toOption = some (v, rest) := by
    rw [h]
    rfl
  obtain ⟨used, rfl, -⟩ := local_readScalar.takes htaken
  have hread : (readScalar (used ++ rest)).toOption = _ := local_readScalar.ahead hrest
  rw [h] at hread
  cases halone : readScalar used with
  | error e => rw [halone] at hread; cases hread
  | ok r =>
    rw [halone] at hread
    obtain ⟨hv, hnil⟩ := by simpa [Except.toOption] using hread
    exact ⟨used, rfl, scalar?_eq_some_iff.mpr (by rw [halone, hv, ← hnil])⟩

/-- The characters of a value. -/
theorem isScalarChar_of_scalar? (h : scalar? cs = some v) : ∀ c ∈ cs, isScalarChar c = true := by
  have htaken : (readScalar cs).toOption = some (v, []) := by
    rw [scalar?_eq_some_iff.mp h]
    rfl
  obtain ⟨used, hcs, hused⟩ := local_readScalar.takes htaken
  rw [List.append_nil] at hcs
  rwa [hcs]

/-- A character of a value is a word's, and neither opens a literal nor a comment. -/
theorem isWordChar_of_isScalarChar {c : Char} (h : isScalarChar c = true) :
    isWordChar c = true ∧ c ≠ '"' ∧ c ≠ '/' := by
  have hne : ∀ d : Char, isScalarChar d = false → c ≠ d := by
    rintro d hd rfl
    rw [h] at hd
    cases hd
  refine ⟨?_, hne _ (by decide), hne _ (by decide)⟩
  simp [isWordChar, isBlank, isMark, hne ' ' (by decide), hne '\t' (by decide), hne '\n' (by decide),
    hne '\r' (by decide), hne '[' (by decide), hne ']' (by decide), hne '\x7b' (by decide), hne '\x7d' (by decide),
    hne ',' (by decide), hne ':' (by decide)]

end

end Codemod.Json
