import Codemod.Proofs.CommentPieces

/-!
# What string literals spell

What stands between the quotes of a literal spells characters: plain ones stand for themselves, and escapes for a
letter's character, for a unit or for a pair of units. Reading a string from its quote on reads just this. A comma that
only blanks separate from a closing bracket can stand there like any other character; no escape holds one. So what is
left without such commas still spells a string, which is shorter, and nothing else is spelled before and not after.

Main statements:

* `readString_eq_ok_iff` says which texts are read as strings;
* `Spells.dropped` says what is spelled without the commas before closing brackets;
* `exists_spells_of_dropped` says that only what spells a string does so without them;
* `dropTrailingCommas_eq_self_iff` says which texts hold no such comma.
-/

namespace Codemod.Json

/-! ### Spelling -/

/-- The number that four hexadecimal digits denote. -/
def hexFour? (a b c d : Char) : Option Nat := do
  let a ← hexValue? a
  let b ← hexValue? b
  let c ← hexValue? c
  let d ← hexValue? d
  some (((a * 16 + b) * 16 + c) * 16 + d)

/-- The character of two halves of a pair. -/
def pairChar (n m : Nat) : Char :=
  Char.ofNat (0x10000 + (n - 0xD800) * 0x400 + (m - 0xDC00))

/-- Whether a unit is the first half of a pair whose second half stands next. -/
def PairsWith (n : Nat) (cs : List Char) : Prop :=
  isHighHalf n = true ∧ ∃ a b c d m rest, cs = '\\' :: 'u' :: a :: b :: c :: d :: rest ∧
    hexFour? a b c d = some m ∧ isLowHalf m = true

/-- What stands between quotes spells characters. -/
inductive Spells : List Char → List Char → Prop
  | nil : Spells [] []
  | plain {c : Char} {body cs : List Char} (hquote : c ≠ '"') (hback : c ≠ '\\') (hc : ¬ c.toNat < 32)
      (h : Spells body cs) : Spells (c :: body) (c :: cs)
  | letter {e c : Char} {body cs : List Char} (he : escapeLetter? e = some c) (h : Spells body cs) :
      Spells ('\\' :: e :: body) (c :: cs)
  | unit {x y z w : Char} {n : Nat} {body cs : List Char} (hn : hexFour? x y z w = some n)
      (hpair : ¬ PairsWith n body) (h : Spells body cs) :
      Spells ('\\' :: 'u' :: x :: y :: z :: w :: body) (unitChar n :: cs)
  | pair {x y z w a b c d : Char} {n m : Nat} {body cs : List Char} (hn : hexFour? x y z w = some n)
      (hhigh : isHighHalf n = true) (hm : hexFour? a b c d = some m) (hlow : isLowHalf m = true)
      (h : Spells body cs) :
      Spells ('\\' :: 'u' :: x :: y :: z :: w :: '\\' :: 'u' :: a :: b :: c :: d :: body) (pairChar n m :: cs)

section

variable {cs rest : List Char} {n : Nat}

theorem hexQuad?_cons (a b c d e : Char) (more : List Char) :
    hexQuad? (a :: b :: c :: d :: e :: more) = (hexFour? a b c d).map fun n => (n, e :: more) := by
  simp only [hexQuad?, hexFour?]
  cases hexValue? a with
  | none => rfl
  | some _ =>
    cases hexValue? b with
    | none => rfl
    | some _ =>
      cases hexValue? c with
      | none => rfl
      | some _ => cases hexValue? d <;> rfl

theorem hexQuad?_eq_some_iff : hexQuad? cs = some (n, rest) ↔
    ∃ a b c d, cs = a :: b :: c :: d :: rest ∧ rest ≠ [] ∧ hexFour? a b c d = some n := by
  constructor
  · intro h
    match cs with
    | a :: b :: c :: d :: e :: more =>
      rw [hexQuad?_cons] at h
      obtain ⟨m, hm, heq⟩ := Option.map_eq_some_iff.mp h
      cases heq
      exact ⟨a, b, c, d, rfl, List.cons_ne_nil e more, hm⟩
    | [] | [_] | [_, _] | [_, _, _] | [_, _, _, _] => cases h
  · rintro ⟨a, b, c, d, rfl, hne, hn⟩
    obtain ⟨e, more, rfl⟩ := List.exists_cons_of_ne_nil hne
    rw [hexQuad?_cons, hn, Option.map_some]

/-- The character of a first half whose second half stands next, and what is left behind it. -/
def pairBehind? (n : Nat) : List Char → Option (Char × List Char)
  | '\\' :: 'u' :: low =>
    if isHighHalf n then
      (hexQuad? low).bind fun q => if isLowHalf q.1 then some (pairChar n q.1, q.2) else none
    else none
  | _ => none

theorem readString_unit {opening seen : List Char} {fuel : Nat} (hn : hexQuad? cs = some (n, rest)) :
    readString opening (fuel + 1) seen ('\\' :: 'u' :: cs) =
      match pairBehind? n rest with
      | some (c, more) => readString opening fuel (c :: seen) more
      | none => readString opening fuel (unitChar n :: seen) rest := by
  simp only [readString, hn]
  split
  · rename_i low
    simp only [pairBehind?]
    cases isHighHalf n with
    | false => simp only [Bool.false_eq_true, if_false]
    | true =>
      simp only [if_true]
      cases hexQuad? low with
      | none => simp only [Option.bind_none]
      | some q =>
        simp only [Option.bind_some]
        cases isLowHalf q.1 with
        | false => simp only [Bool.false_eq_true, if_false]
        | true => simp only [if_true, pairChar]
  · rename_i hother
    have hnone : pairBehind? n rest = none := by
      unfold pairBehind?
      split
      · exact (hother _ rfl).elim
      · rfl
    rw [hnone]

theorem pairBehind?_eq_some_iff {c : Char} : pairBehind? n rest = some (c, cs) ↔
    ∃ x y z w m, rest = '\\' :: 'u' :: x :: y :: z :: w :: cs ∧ cs ≠ [] ∧ isHighHalf n = true ∧
      hexFour? x y z w = some m ∧ isLowHalf m = true ∧ pairChar n m = c := by
  constructor
  · intro h
    unfold pairBehind? at h
    split at h
    · split at h
      · rename_i low hhigh
        obtain ⟨q, hq, h⟩ := Option.bind_eq_some_iff.mp h
        split at h
        · rename_i hlow
          simp only [Option.some.injEq, Prod.mk.injEq] at h
          obtain ⟨hc, rfl⟩ := h
          obtain ⟨x, y, z, w, rfl, hne, hm⟩ := hexQuad?_eq_some_iff.mp hq
          exact ⟨x, y, z, w, q.1, rfl, hne, hhigh, hm, hlow, hc⟩
        · cases h
      · cases h
    · cases h
  · rintro ⟨x, y, z, w, m, rfl, hne, hhigh, hm, hlow, rfl⟩
    have hquad : hexQuad? (x :: y :: z :: w :: cs) = some (m, cs) :=
      hexQuad?_eq_some_iff.mpr ⟨x, y, z, w, rfl, hne, hm⟩
    simp [pairBehind?, hhigh, hquad, hlow]

end

/-! ### Characters of escapes -/

theorem exists_hexValues {x y z w : Char} {n : Nat} (h : hexFour? x y z w = some n) :
    ∀ c ∈ [x, y, z, w], ∃ v, hexValue? c = some v := by
  unfold hexFour? at h
  obtain ⟨_, hx, h⟩ := Option.bind_eq_some_iff.mp h
  obtain ⟨_, hy, h⟩ := Option.bind_eq_some_iff.mp h
  obtain ⟨_, hz, h⟩ := Option.bind_eq_some_iff.mp h
  obtain ⟨_, hw, -⟩ := Option.bind_eq_some_iff.mp h
  simp [hx, hy, hz, hw]

/-- Whether a character neither is a blank nor closes a list or an object, so that a comma before it stays. -/
def isFirm (c : Char) : Bool :=
  !isWideBlank c && c != '\x7d' && c != ']'

/-- A hexadecimal digit is a digit or one of twelve letters. -/
theorem bounds_of_hexValue? {c : Char} {v : Nat} (h : hexValue? c = some v) :
    48 ≤ c.toNat ∧ c.toNat ≤ 57 ∨ 97 ≤ c.toNat ∧ c.toNat ≤ 102 ∨ 65 ≤ c.toNat ∧ c.toNat ≤ 70 := by
  unfold hexValue? at h
  split at h
  · rename_i hc
    exact .inl (by simpa [Char.le_def, UInt32.le_iff_toNat_le] using hc)
  split at h
  · rename_i hc
    exact .inr (.inl (by simpa [Char.le_def, UInt32.le_iff_toNat_le] using hc))
  split at h
  · rename_i hc
    exact .inr (.inr (by simpa [Char.le_def, UInt32.le_iff_toNat_le] using hc))
  · cases h

theorem isFirm_of_hexValue? {c : Char} {v : Nat} (h : hexValue? c = some v) :
    isFirm c = true ∧ c ≠ ',' ∧ c ≠ '"' ∧ c ≠ '\\' := by
  have hbounds := bounds_of_hexValue? h
  have hne : ∀ d : Char, ¬ (48 ≤ d.toNat ∧ d.toNat ≤ 57 ∨ 97 ≤ d.toNat ∧ d.toNat ≤ 102 ∨
      65 ≤ d.toNat ∧ d.toNat ≤ 70) → c ≠ d := by
    rintro d hd rfl
    exact hd hbounds
  have hblank : isWideBlank c = false := by
    simp [isWideBlank, Text.isNumberBlank]
    omega
  refine ⟨?_, hne _ (by decide), hne _ (by decide), hne _ (by decide)⟩
  simp [isFirm, hblank, hne '\x7d' (by decide), hne ']' (by decide)]

theorem isFirm_of_escapeLetter? {e c : Char} (h : escapeLetter? e = some c) :
    isFirm e = true ∧ e ≠ ',' ∧ e ≠ 'u' := by
  unfold escapeLetter? at h
  split at h <;> first | exact ⟨by decide, by decide, by decide⟩ | cases h

/-- No comma before a character of an escape goes, and none of them is a comma or a quote. -/
theorem firm_escape {x y z w : Char} {n : Nat} (h : hexFour? x y z w = some n) :
    ∀ c ∈ ['\\', 'u', x, y, z, w], isFirm c = true ∧ c ≠ ',' ∧ c ≠ '"' := by
  intro c hc
  rcases List.mem_cons.mp hc with rfl | hc
  · decide
  rcases List.mem_cons.mp hc with rfl | hc
  · decide
  obtain ⟨v, hv⟩ := exists_hexValues h c hc
  obtain ⟨hfirm, hcomma, hquote, -⟩ := isFirm_of_hexValue? hv
  exact ⟨hfirm, hcomma, hquote⟩

/-- What stands before the first quote of two texts is the same, but for what is left of the longer one. -/
theorem exists_behind (firm : List Char) {cs body rest : List Char} (h : body ++ '"' :: rest = firm ++ cs) (hfirm : '"' ∉ firm) :
    ∃ more, body = firm ++ more ∧ cs = more ++ '"' :: rest := by
  rcases List.append_eq_append_iff.mp h with ⟨l, hl, hrest⟩ | ⟨l, hl, hrest⟩
  · cases l with
    | nil => exact ⟨[], by simpa using hl.symm, by simpa using hrest.symm⟩
    | cons c l =>
      obtain ⟨rfl, -⟩ := List.cons.inj hrest
      exact absurd (hl ▸ List.mem_append_right _ (List.mem_cons_self ..)) hfirm
  · exact ⟨l, hl, hrest⟩

/-! ### Strings are read as they spell -/

section

variable {body cs rest seen opening : List Char} {fuel : Nat} {s : String}

/-- Where a quote follows, a first half is paired with what stands before the quote. -/
theorem exists_pairBehind?_iff {n : Nat} : (∃ q, pairBehind? n (body ++ '"' :: rest) = some q) ↔ PairsWith n body := by
  constructor
  · rintro ⟨⟨c, more⟩, hq⟩
    obtain ⟨x, y, z, w, m, hbody, -, hhigh, hm, hlow, -⟩ := pairBehind?_eq_some_iff.mp hq
    obtain ⟨left, rfl, -⟩ := exists_behind ['\\', 'u', x, y, z, w] hbody
      fun hmem => (firm_escape hm _ hmem).2.2 rfl
    exact ⟨hhigh, x, y, z, w, m, left, rfl, hm, hlow⟩
  · rintro ⟨hhigh, x, y, z, w, m, more, rfl, hm, hlow⟩
    exact ⟨(pairChar n m, more ++ '"' :: rest),
      pairBehind?_eq_some_iff.mpr ⟨x, y, z, w, m, rfl, by simp, hhigh, hm, hlow, rfl⟩⟩

/-- What is read as a string is spelled up to a quote. -/
theorem exists_spells_of_readString (h : readString opening fuel seen cs = .ok (s, rest)) :
    ∃ body chars, cs = body ++ '"' :: rest ∧ Spells body chars ∧ s = String.ofList (seen.reverse ++ chars) := by
  induction fuel generalizing seen cs with
  | zero => cases h
  | succ fuel ih =>
    have hmore : ∀ {c : Char} {cs' : List Char}, readString opening fuel (c :: seen) cs' = .ok (s, rest) →
        ∃ body chars, cs' = body ++ '"' :: rest ∧ Spells body chars ∧
          s = String.ofList (seen.reverse ++ c :: chars) := by
      intro c cs' h
      obtain ⟨body, chars, hcs, hspells, hs⟩ := ih h
      exact ⟨body, chars, hcs, hspells, by simpa using hs⟩
    by_cases hunit : ∃ rest', cs = '\\' :: 'u' :: rest'
    · obtain ⟨cs, rfl⟩ := hunit
      cases hquad : hexQuad? cs with
      | none =>
        simp only [readString, hquad] at h
        cases h
      | some q =>
        obtain ⟨n, behind⟩ := q
        obtain ⟨x, y, z, w, rfl, -, hn⟩ := hexQuad?_eq_some_iff.mp hquad
        rw [readString_unit hquad] at h
        cases hpair : pairBehind? n behind with
        | none =>
          rw [hpair] at h
          obtain ⟨body, chars, rfl, hspells, rfl⟩ := hmore h
          have halone : ¬ PairsWith n body := fun hpairs => by
            obtain ⟨q, hq⟩ := exists_pairBehind?_iff.mpr hpairs
            rw [hpair] at hq
            cases hq
          exact ⟨_, _, rfl, .unit hn halone hspells, rfl⟩
        | some q =>
          obtain ⟨c, left⟩ := q
          rw [hpair] at h
          obtain ⟨a, b, c', d, m, rfl, -, hhigh, hm, hlow, rfl⟩ := pairBehind?_eq_some_iff.mp hpair
          obtain ⟨body, chars, rfl, hspells, rfl⟩ := hmore h
          exact ⟨_, _, rfl, .pair hn hhigh hm hlow hspells, rfl⟩
    · unfold readString at h
      split at h
      · cases h
      · cases h
        exact ⟨[], [], rfl, .nil, by simp⟩
      · cases h
      · exact absurd ⟨_, rfl⟩ hunit
      · rename_i e behind _
        cases he : escapeLetter? e with
        | none =>
          rw [he] at h
          cases h
        | some c =>
          rw [he] at h
          obtain ⟨body, chars, rfl, hspells, rfl⟩ := hmore h
          exact ⟨_, _, rfl, .letter he hspells, rfl⟩
      · rename_i c behind hquote hend _ hescape
        split at h
        · cases h
        · rename_i hc
          obtain ⟨body, chars, rfl, hspells, rfl⟩ := hmore h
          refine ⟨_, _, rfl, .plain hquote (fun hback => ?_) hc hspells, rfl⟩
          cases body with
          | nil => exact hescape _ _ hback rfl
          | cons d body => exact hescape _ _ hback rfl

/-- A spelled string is read up to its quote. -/
theorem readString_of_spells {chars : List Char} (h : Spells body chars) (hfuel : body.length < fuel) :
    readString opening fuel seen (body ++ '"' :: rest) = .ok (String.ofList (seen.reverse ++ chars), rest) := by
  induction h generalizing fuel seen with
  | nil =>
    obtain ⟨fuel, rfl⟩ := Nat.exists_eq_succ_of_ne_zero (Nat.ne_of_gt hfuel)
    simp [readString]
  | @plain c body chars hquote hback hc _ ih =>
    obtain ⟨fuel, rfl⟩ := Nat.exists_eq_succ_of_ne_zero (Nat.ne_zero_of_lt hfuel)
    simp only [List.length_cons] at hfuel
    have hmore : body.length < fuel := by omega
    simp [readString, hback, hc, ih hmore]
  | @letter e c body chars he _ ih =>
    obtain ⟨fuel, rfl⟩ := Nat.exists_eq_succ_of_ne_zero (Nat.ne_zero_of_lt hfuel)
    simp only [List.length_cons] at hfuel
    have hunit := (isFirm_of_escapeLetter? he).2.2
    have hmore : body.length < fuel := by omega
    simp [readString, he, ih hmore]
  | @unit x y z w n body chars hn hpair _ ih =>
    obtain ⟨fuel, rfl⟩ := Nat.exists_eq_succ_of_ne_zero (Nat.ne_zero_of_lt hfuel)
    simp only [List.length_cons] at hfuel
    have hquad : hexQuad? (x :: y :: z :: w :: (body ++ '"' :: rest)) = some (n, body ++ '"' :: rest) :=
      hexQuad?_eq_some_iff.mpr ⟨x, y, z, w, rfl, by simp, hn⟩
    have halone : pairBehind? n (body ++ '"' :: rest) = none :=
      Option.eq_none_iff_forall_not_mem.mpr fun q hq => hpair (exists_pairBehind?_iff.mp ⟨q, hq⟩)
    simp only [List.cons_append]
    rw [readString_unit hquad, halone]
    have hmore : body.length < fuel := by omega
    simp [ih hmore]
  | @pair x y z w a b c d n m body chars hn hhigh hm hlow _ ih =>
    obtain ⟨fuel, rfl⟩ := Nat.exists_eq_succ_of_ne_zero (Nat.ne_zero_of_lt hfuel)
    simp only [List.length_cons] at hfuel
    have hquad : hexQuad? (x :: y :: z :: w :: '\\' :: 'u' :: a :: b :: c :: d :: (body ++ '"' :: rest)) =
        some (n, '\\' :: 'u' :: a :: b :: c :: d :: (body ++ '"' :: rest)) :=
      hexQuad?_eq_some_iff.mpr ⟨x, y, z, w, rfl, by simp, hn⟩
    have hpair : pairBehind? n ('\\' :: 'u' :: a :: b :: c :: d :: (body ++ '"' :: rest)) =
        some (pairChar n m, body ++ '"' :: rest) :=
      pairBehind?_eq_some_iff.mpr ⟨a, b, c, d, m, rfl, by simp, hhigh, hm, hlow, rfl⟩
    simp only [List.cons_append]
    rw [readString_unit hquad, hpair]
    have hmore : body.length < fuel := by omega
    simp [ih hmore]

/-- What is read as a string is what is spelled up to a quote. -/
theorem readString_eq_ok_iff (hfuel : cs.length < fuel) : readString opening fuel seen cs = .ok (s, rest) ↔
    ∃ body chars, cs = body ++ '"' :: rest ∧ Spells body chars ∧ s = String.ofList (seen.reverse ++ chars) := by
  constructor
  · exact exists_spells_of_readString
  · rintro ⟨body, chars, rfl, hspells, rfl⟩
    simp only [List.length_append, List.length_cons] at hfuel
    exact readString_of_spells hspells (by omega)

/-- What spells a string can stand between quotes. -/
theorem Spells.enclosed {chars : List Char} (h : Spells body chars) : Enclosed body := by
  have hescape : ∀ {x y z w : Char} {n : Nat} {more : List Char}, hexFour? x y z w = some n → Enclosed more →
      Enclosed ('\\' :: 'u' :: x :: y :: z :: w :: more) := by
    intro x y z w n more hn hmore
    have hdigit : ∀ c ∈ [x, y, z, w], c ≠ '"' ∧ c ≠ '\\' := fun c hc => by
      obtain ⟨v, hv⟩ := exists_hexValues hn c hc
      exact (isFirm_of_hexValue? hv).2.2
    simp only [List.forall_mem_cons] at hdigit
    obtain ⟨hx, hy, hz, hw, -⟩ := hdigit
    exact .pair 'u' (.plain hx.1 hx.2 (.plain hy.1 hy.2 (.plain hz.1 hz.2 (.plain hw.1 hw.2 hmore))))
  induction h with
  | nil => exact .nil
  | plain hquote hback _ _ ih => exact .plain hquote hback ih
  | letter _ _ ih => exact .pair _ ih
  | unit hn _ _ ih => exact hescape hn ih
  | pair hn _ hm _ _ ih => exact hescape hn (hescape hm ih)

end

/-! ### Commas before closing brackets -/

section

variable {cs body chars rest : List Char} {c : Char}

/-- Whether a text holds a comma that only blanks separate from a closing bracket. -/
def HoldsTrailingComma (cs : List Char) : Prop :=
  ∃ before blanks close behind, cs = before ++ ',' :: (blanks ++ close :: behind) ∧
    (∀ b ∈ blanks, isWideBlank b = true) ∧ (close = '\x7d' ∨ close = ']')

theorem closesNext_iff : closesNext cs = true ↔ ∃ blanks close behind, cs = blanks ++ close :: behind ∧
    (∀ b ∈ blanks, isWideBlank b = true) ∧ (close = '\x7d' ∨ close = ']') := by
  unfold closesNext
  constructor
  · intro h
    split at h
    · rename_i close behind hdrop
      refine ⟨cs.takeWhile isWideBlank, close, behind, ?_, fun b hb => ?_, by simpa using h⟩
      · rw [← hdrop, List.takeWhile_append_dropWhile]
      · exact List.all_eq_true.mp List.all_takeWhile _ hb
    · cases h
  · rintro ⟨blanks, close, behind, rfl, hblanks, hclose⟩
    rw [List.dropWhile_append_of_pos hblanks, List.dropWhile_cons_of_neg]
    · simpa using hclose
    · rcases hclose with rfl | rfl <;> decide

theorem closesNext_append_firm (hc : isFirm c = true) : closesNext (body ++ c :: rest) = closesNext body := by
  simp only [isFirm, Bool.and_eq_true, Bool.not_eq_true', bne_iff_ne] at hc
  obtain ⟨⟨hblank, hbrace⟩, hbracket⟩ := hc
  induction body with
  | nil => simp [closesNext, hblank, hbrace, hbracket]
  | cons d body ih =>
    cases hd : isWideBlank d with
    | true => simpa [closesNext, hd] using ih
    | false => simp [closesNext, hd]

/-- Where a comma goes, what follows it is not firm. -/
theorem exists_of_closesNext (h : closesNext cs = true) : ∃ c more, cs = c :: more ∧ isFirm c = false := by
  obtain ⟨blanks, close, behind, rfl, hblanks, hclose⟩ := closesNext_iff.mp h
  cases blanks with
  | nil => exact ⟨close, behind, rfl, by rcases hclose with rfl | rfl <;> decide⟩
  | cons b blanks => exact ⟨b, blanks ++ close :: behind, rfl, by simp [isFirm, hblanks b (by simp)]⟩

theorem dropTrailingCommas_cons_of_ne (hc : c ≠ ',') :
    dropTrailingCommas (c :: cs) = c :: dropTrailingCommas cs := by
  simp [dropTrailingCommas, hc]

theorem dropTrailingCommas_append_of_ne (front : List Char) (h : ',' ∉ front) :
    dropTrailingCommas (front ++ rest) = front ++ dropTrailingCommas rest := by
  induction front with
  | nil => rfl
  | cons c front ih =>
    obtain ⟨hc, hcs⟩ := not_or.mp (mt List.mem_cons.mpr h)
    rw [List.cons_append, dropTrailingCommas_cons_of_ne (Ne.symm hc), ih hcs, List.cons_append]

/-- No comma goes because of what stands behind a firm character. -/
theorem dropTrailingCommas_append_firm (hc : isFirm c = true) (hcomma : c ≠ ',') :
    dropTrailingCommas (body ++ c :: rest) = dropTrailingCommas body ++ c :: dropTrailingCommas rest := by
  induction body with
  | nil => exact dropTrailingCommas_cons_of_ne hcomma
  | cons d body ih =>
    simp only [List.cons_append, dropTrailingCommas, closesNext_append_firm hc, ih]
    split <;> rfl

theorem length_dropTrailingCommas_le (cs : List Char) : (dropTrailingCommas cs).length ≤ cs.length := by
  induction cs with
  | nil => exact Nat.le_refl _
  | cons c cs ih =>
    unfold dropTrailingCommas
    split
    · exact Nat.le_succ_of_le ih
    · exact Nat.succ_le_succ ih

/-- A text is left as it is exactly when it holds no comma before a closing bracket. -/
theorem dropTrailingCommas_eq_self_iff : dropTrailingCommas cs = cs ↔ ¬ HoldsTrailingComma cs := by
  induction cs with
  | nil => exact ⟨fun _ ⟨before, _, _, _, h, _⟩ => by simp at h, fun _ => rfl⟩
  | cons c cs ih =>
    have hcons : HoldsTrailingComma (c :: cs) ↔ (c = ',' ∧ closesNext cs = true) ∨ HoldsTrailingComma cs := by
      rw [closesNext_iff]
      constructor
      · rintro ⟨before, blanks, close, behind, h, hblanks, hclose⟩
        cases before with
        | nil =>
          obtain ⟨rfl, rfl⟩ := List.cons.inj h
          exact .inl ⟨rfl, blanks, close, behind, rfl, hblanks, hclose⟩
        | cons d before =>
          obtain ⟨rfl, rfl⟩ := List.cons.inj h
          exact .inr ⟨before, blanks, close, behind, rfl, hblanks, hclose⟩
      · rintro (⟨rfl, blanks, close, behind, rfl, hblanks, hclose⟩ | ⟨before, blanks, close, behind, rfl, hrest⟩)
        · exact ⟨[], blanks, close, behind, rfl, hblanks, hclose⟩
        · exact ⟨c :: before, blanks, close, behind, rfl, hrest⟩
    rw [hcons, not_or, ← ih]
    by_cases hgoes : (c == ',' && closesNext cs) = true
    · obtain ⟨hc, hcloses⟩ := Bool.and_eq_true_iff.mp hgoes
      obtain rfl : c = ',' := beq_iff_eq.mp hc
      have hshorter : dropTrailingCommas cs ≠ ',' :: cs := fun h => by
        have hle := length_dropTrailingCommas_le cs
        rw [h, List.length_cons] at hle
        omega
      rw [show dropTrailingCommas (',' :: cs) = dropTrailingCommas cs from if_pos hgoes]
      simp [hshorter, hcloses]
    · have hstays : ¬ (c = ',' ∧ closesNext cs = true) := by simpa using hgoes
      rw [show dropTrailingCommas (c :: cs) = c :: dropTrailingCommas cs from if_neg hgoes]
      simp only [List.cons.injEq, true_and, hstays, not_false_eq_true]

/-- Whatever is left begins as the text did, or behind a comma before a character that is not firm. -/
theorem exists_of_dropTrailingCommas_eq_cons (h : dropTrailingCommas cs = c :: rest) :
    (∃ more, cs = c :: more ∧ dropTrailingCommas more = rest) ∨
      isFirm c = false ∧ ∃ more, cs = ',' :: c :: more ∧ dropTrailingCommas more = rest := by
  cases cs with
  | nil => cases h
  | cons d cs =>
    unfold dropTrailingCommas at h
    split at h
    · rename_i hgoes
      obtain ⟨hd, hcloses⟩ := Bool.and_eq_true_iff.mp hgoes
      obtain ⟨e, more, rfl, he⟩ := exists_of_closesNext hcloses
      -- What follows the comma is no comma, and so it stays.
      rw [dropTrailingCommas_cons_of_ne (by rintro rfl; cases he)] at h
      obtain ⟨rfl, rfl⟩ := List.cons.inj h
      exact .inr ⟨he, more, by rw [beq_iff_eq.mp hd], rfl⟩
    · obtain ⟨rfl, rfl⟩ := List.cons.inj h
      exact .inl ⟨cs, rfl, rfl⟩

/-- Firm characters at the beginning of what is left stood at the beginning of the text. -/
theorem exists_of_dropTrailingCommas_eq_append (firm : List Char) (hfirm : ∀ c ∈ firm, isFirm c = true)
    (h : dropTrailingCommas cs = firm ++ rest) : ∃ more, cs = firm ++ more ∧ dropTrailingCommas more = rest := by
  induction firm generalizing cs with
  | nil => exact ⟨cs, rfl, h⟩
  | cons c firm ih =>
    obtain ⟨hc, hfirm⟩ := List.forall_mem_cons.mp hfirm
    rcases exists_of_dropTrailingCommas_eq_cons h with ⟨more, rfl, hmore⟩ | ⟨hother, -⟩
    · obtain ⟨left, rfl, hleft⟩ := ih hfirm hmore
      exact ⟨left, rfl, hleft⟩
    · rw [hc] at hother
      cases hother

theorem eq_nil_of_dropTrailingCommas (h : dropTrailingCommas cs = []) : cs = [] := by
  cases cs with
  | nil => rfl
  | cons c cs =>
    unfold dropTrailingCommas at h
    split at h
    · rename_i hgoes
      obtain ⟨d, more, rfl, hd⟩ := exists_of_closesNext (Bool.and_eq_true_iff.mp hgoes).2
      rw [dropTrailingCommas_cons_of_ne (by rintro rfl; cases hd)] at h
      cases h
    · cases h

/-- A first half is paired after commas are dropped exactly when it was before. -/
theorem pairsWith_dropped {n : Nat} : PairsWith n (dropTrailingCommas body) ↔ PairsWith n body := by
  constructor
  · rintro ⟨hhigh, x, y, z, w, m, rest, hbody, hm, hlow⟩
    obtain ⟨more, rfl, -⟩ := exists_of_dropTrailingCommas_eq_append ['\\', 'u', x, y, z, w]
      (fun c hc => (firm_escape hm c hc).1) hbody
    exact ⟨hhigh, x, y, z, w, m, more, rfl, hm, hlow⟩
  · rintro ⟨hhigh, x, y, z, w, m, rest, rfl, hm, hlow⟩
    refine ⟨hhigh, x, y, z, w, m, dropTrailingCommas rest, ?_, hm, hlow⟩
    exact dropTrailingCommas_append_of_ne ['\\', 'u', x, y, z, w]
      fun hmem => (firm_escape hm _ hmem).2.1 rfl

/-- What spells a string spells one without the commas before closing brackets too, and a shorter one if there was
such a comma. -/
theorem Spells.dropped (h : Spells body chars) : ∃ left, Spells (dropTrailingCommas body) left ∧
    left.length ≤ chars.length ∧ (dropTrailingCommas body ≠ body → left.length < chars.length) := by
  -- An escape holds no comma and stays; behind it the same holds as before.
  have hescape : ∀ (escape : List Char) {body : List Char} {c : Char} {chars left : List Char}, ',' ∉ escape →
      Spells (escape ++ dropTrailingCommas body) (c :: left) → left.length ≤ chars.length →
      (dropTrailingCommas body ≠ body → left.length < chars.length) →
      ∃ left, Spells (dropTrailingCommas (escape ++ body)) left ∧ left.length ≤ (c :: chars).length ∧
        (dropTrailingCommas (escape ++ body) ≠ escape ++ body → left.length < (c :: chars).length) := by
    intro escape body c chars left hno hspells hle hlt
    rw [dropTrailingCommas_append_of_ne _ hno]
    refine ⟨c :: left, hspells, Nat.succ_le_succ hle, fun hne => Nat.succ_lt_succ (hlt fun heq => hne ?_)⟩
    rw [heq]
  induction h with
  | nil => exact ⟨[], .nil, Nat.le_refl _, fun h => absurd rfl h⟩
  | @plain c body chars hquote hback hc _ ih =>
    obtain ⟨left, hspells, hle, hlt⟩ := ih
    unfold dropTrailingCommas
    split
    · exact ⟨left, hspells, Nat.le_succ_of_le hle, fun _ => Nat.lt_succ_of_le hle⟩
    · refine ⟨c :: left, .plain hquote hback hc hspells, Nat.succ_le_succ hle, fun hne => ?_⟩
      exact Nat.succ_lt_succ (hlt fun heq => hne (by rw [heq]))
  | @letter e c body chars he _ ih =>
    obtain ⟨left, hspells, hle, hlt⟩ := ih
    have hcomma := (isFirm_of_escapeLetter? he).2.1
    exact hescape ['\\', e] (by simp [Ne.symm hcomma]) (.letter he hspells) hle hlt
  | @unit x y z w n body chars hn hpair _ ih =>
    obtain ⟨left, hspells, hle, hlt⟩ := ih
    exact hescape ['\\', 'u', x, y, z, w] (fun hmem => (firm_escape hn _ hmem).2.1 rfl)
      (.unit hn (mt pairsWith_dropped.mp hpair) hspells) hle hlt
  | @pair x y z w a b c d n m body chars hn hhigh hm hlow _ ih =>
    obtain ⟨left, hspells, hle, hlt⟩ := ih
    have hno : ',' ∉ ['\\', 'u', x, y, z, w] ++ ['\\', 'u', a, b, c, d] := fun hmem => by
      rcases List.mem_append.mp hmem with hmem | hmem
      · exact (firm_escape hn _ hmem).2.1 rfl
      · exact (firm_escape hm _ hmem).2.1 rfl
    exact hescape _ hno (.pair hn hhigh hm hlow hspells) hle hlt

/-- Only what spells a string spells one without the commas before closing brackets. -/
theorem exists_spells_of_dropped {left : List Char} (h : Spells (dropTrailingCommas body) left) :
    ∃ chars, Spells body chars := by
  generalize hdropped : dropTrailingCommas body = cs at h
  induction h generalizing body with
  | nil =>
    rw [eq_nil_of_dropTrailingCommas hdropped]
    exact ⟨[], .nil⟩
  | @plain c cs left hquote hback hc _ ih =>
    rcases exists_of_dropTrailingCommas_eq_cons hdropped with ⟨more, rfl, hmore⟩ | ⟨-, more, rfl, hmore⟩
    · obtain ⟨chars, hspells⟩ := ih hmore
      exact ⟨c :: chars, .plain hquote hback hc hspells⟩
    · obtain ⟨chars, hspells⟩ := ih hmore
      exact ⟨',' :: c :: chars, .plain (by decide) (by decide) (by decide) (.plain hquote hback hc hspells)⟩
  | @letter e c cs left he _ ih =>
    obtain ⟨more, rfl, hmore⟩ := exists_of_dropTrailingCommas_eq_append ['\\', e]
      (by simp [(isFirm_of_escapeLetter? he).1, show isFirm '\\' = true by decide]) hdropped
    obtain ⟨chars, hspells⟩ := ih hmore
    exact ⟨c :: chars, .letter he hspells⟩
  | @unit x y z w n cs left hn hpair _ ih =>
    obtain ⟨more, rfl, hmore⟩ := exists_of_dropTrailingCommas_eq_append ['\\', 'u', x, y, z, w]
      (fun c hc => (firm_escape hn c hc).1) hdropped
    obtain ⟨chars, hspells⟩ := ih hmore
    rw [← hmore, pairsWith_dropped] at hpair
    exact ⟨unitChar n :: chars, .unit hn hpair hspells⟩
  | @pair x y z w a b c d n m cs left hn hhigh hm hlow _ ih =>
    obtain ⟨more, rfl, hmore⟩ := exists_of_dropTrailingCommas_eq_append
      (['\\', 'u', x, y, z, w] ++ ['\\', 'u', a, b, c, d])
      (List.forall_mem_append.mpr ⟨fun c hc => (firm_escape hn c hc).1, fun c hc => (firm_escape hm c hc).1⟩) hdropped
    obtain ⟨chars, hspells⟩ := ih hmore
    exact ⟨pairChar n m :: chars, .pair hn hhigh hm hlow hspells⟩

end

end Codemod.Json
