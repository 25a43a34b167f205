import Codemod.Proofs.Gaps
import Codemod.Proofs.Utf8Bytes
import Codemod.Syntax.Rule

/-!
# Words in their context

Whether a name ends where it does depends on the byte behind it, and on bytes before that when it ends within a
character. A word is a name or a string that is read up to where another text begins, `Word z w`; then a lexeme
that reads words reads it or does not by looking at the word alone.

Main statements:

* `nameLength_congr` says that a name that ends before one text ends before another one, if no name goes on there;
* `Word.length?_eq` says which lexemes read a word, and `Word.of_length?` that what they have read is one;
* `Word.of_first` and `Word.of_end` say before which other texts a word is one;
* `Word.gap_ne_nil` says that two names do not run together.
-/

namespace Codemod.Syntax

variable {a c : UInt8} {t w y z : Bytes} {n : Nat}

/-! ### Where a name ends -/

theorem nameLength_numbered (a : UInt8) (t : Bytes) :
    nameLength true (a :: t) = nameLength (a != code '\x7d') t + 1 := by
  conv => lhs; unfold nameLength
  by_cases ha : a = code '\x7d'
  · simp [ha]
  · have hne : (a != code '\x7d') = true := by simpa using ha
    simp [ha, hne]

theorem nameLength_name (h : isNameByte a = true) (ha : a < 0x80) (t : Bytes) :
    nameLength false (a :: t) = nameLength false t + 1 := by
  conv => lhs; unfold nameLength
  simp only [if_pos ha, if_pos h]

theorem nameLength_escape (t : Bytes) : nameLength false (code '\\' :: code 'u' :: t) =
    nameLength (t.head? == some (code '\x7b')) t + 2 := by
  conv => lhs; unfold nameLength
  cases h : t.head? == some (code '\x7b') <;> simp [h] <;> rfl

theorem nameLength_beyond (ha : ¬ a < 0x80) (t : Bytes) :
    nameLength false (a :: t) = if blankLength (a :: t) = 0 then nameLength false t + 1 else 0 := by
  conv => lhs; unfold nameLength
  simp only [if_neg ha]

/-- An ASCII character that cannot stand in a name ends it. -/
theorem nameLength_other (ha : a < 0x80) (h : isNameByte a = false) (he : a ≠ code '\\') (t : Bytes) :
    nameLength false (a :: t) = 0 := by
  unfold nameLength
  simp [ha, h, he]

theorem nameLength_unescaped (hc : c ≠ code 'u') (t : Bytes) :
    nameLength false (code '\\' :: c :: t) = 0 := by
  have hmark : code '\\' < 0x80 ∧ isNameByte (code '\\') = false := by decide
  unfold nameLength
  simp [hmark.1, hmark.2, hc]

/-- A letter stands in every name. -/
theorem isNameByte_of_isLetter (h : isLetter a = true) : isNameByte a = true ∧ a < 0x80 := by
  unfold isLetter at h
  unfold isNameByte
  constructor
  · simp only [Bool.or_eq_true] at h ⊢
    exact .inl (.inl (h.elim (fun h => .inl (.inr h)) .inr))
  · simp only [Bool.or_eq_true, Bool.and_eq_true, decide_eq_true_eq, UInt8.le_iff_toNat_le] at h
    rw [UInt8.lt_iff_toNat_lt]
    have hz : (code 'z').toNat = 122 ∧ (code 'Z').toNat = 90 ∧ (0x80 : UInt8).toNat = 128 := by decide
    omega

theorem isDigit_of_isLetter (h : isLetter a = true) : isDigit a = false := by
  unfold isLetter at h
  unfold isDigit
  simp only [Bool.or_eq_true, Bool.and_eq_true, decide_eq_true_eq, Bool.and_eq_false_iff,
    decide_eq_false_iff_not, UInt8.le_iff_toNat_le] at h ⊢
  have hcodes : (code 'a').toNat = 97 ∧ (code 'A').toNat = 65 ∧ (code '9').toNat = 57 := by decide
  omega

theorem nameLength_letters {s : Bytes} (hs : s.all isLetter = true) (t : Bytes) :
    nameLength false (s ++ t) = s.length + nameLength false t := by
  induction s with
  | nil => simp
  | cons a s ih =>
    obtain ⟨ha, hs⟩ := Bool.and_eq_true_iff.mp hs
    obtain ⟨hname, hascii⟩ := isNameByte_of_isLetter ha
    rw [List.cons_append, nameLength_name hname hascii, ih hs, List.length_cons]
    omega

theorem isNameByte_of_isBlank (h : Bytes.isBlank a = true) : isNameByte a = false := by
  have hcases : a = 32 ∨ a = 9 ∨ a = 10 ∨ a = 11 ∨ a = 12 ∨ a = 13 := by
    unfold Bytes.isBlank at h
    simp [UInt8.le_iff_toNat_le, ← UInt8.toNat_inj] at h ⊢
    omega
  rcases hcases with rfl | rfl | rfl | rfl | rfl | rfl
  all_goals rfl

/-- A name begins where nothing is passed over. -/
theorem visible_of_name (h : nameLength false t ≠ 0) : Visible t := by
  rcases t with _ | ⟨a, t⟩
  · exact absurd rfl h
  refine ⟨a, t, rfl, ?_, ?_⟩
  · by_cases ha : a < 0x80
    · rw [blankLength_ascii ha]
      refine if_neg fun hblank => h (nameLength_other ha ?_ ?_ t)
      · exact isNameByte_of_isBlank hblank
      · rintro rfl
        cases hblank
    · rw [nameLength_beyond ha] at h
      by_cases hblank : blankLength (a :: t) = 0
      · exact hblank
      · exact absurd (if_neg hblank) h
  · rintro rfl
    exact h (nameLength_other (by decide) (by decide) (by decide) t)

/-- A name ends where it ends before another text, as long as its last characters are the same. -/
theorem nameLength_congr {numbered : Bool} (hw : nameLength numbered (w ++ z) = w.length) (hz : z ≠ [])
    (hy : nameLength false z = 0 → nameLength false y = 0)
    (hbrace : y.head? = some (code '\x7b') → z.head? = some (code '\x7b'))
    (hcalm : ∀ u, u <:+ w → u ≠ [] → blankLength (u ++ z) = 0 → blankLength (u ++ y) = 0) :
    nameLength false z = 0 ∧ nameLength numbered (w ++ y) = w.length := by
  induction hn : w.length using Nat.strongRecOn generalizing w numbered with
  | ind n ih =>
    subst hn
    rcases w with _ | ⟨a, w⟩
    · cases numbered with
      | false => exact ⟨hw, hy hw⟩
      | true =>
        obtain ⟨b, rest, rfl⟩ := List.exists_cons_of_ne_nil hz
        rw [List.nil_append, nameLength_numbered] at hw
        cases hw
    have hnext : ∀ {numbered : Bool}, nameLength numbered (w ++ z) + 1 = (a :: w).length →
        nameLength false z = 0 ∧ nameLength numbered (w ++ y) + 1 = (a :: w).length := by
      intro numbered h
      obtain ⟨h, h'⟩ := ih w.length (Nat.lt_succ_self _) (Nat.succ.inj h)
        (fun u hu => hcalm u (hu.trans (List.suffix_cons a w))) rfl
      exact ⟨h, congrArg (· + 1) h'⟩
    rw [List.cons_append] at hw ⊢
    cases numbered with
    | true =>
      rw [nameLength_numbered] at hw ⊢
      exact hnext hw
    | false =>
      by_cases ha : a < 0x80
      · by_cases hname : isNameByte a = true
        · rw [nameLength_name hname ha] at hw ⊢
          exact hnext hw
        · by_cases he : a = code '\\'
          · -- a character that is given by its number; the mark for it lies in the name
            subst he
            rcases w with _ | ⟨b, w⟩
            · obtain ⟨b, rest, rfl⟩ := List.exists_cons_of_ne_nil hz
              rw [List.nil_append] at hw
              by_cases hb : b = code 'u'
              · subst hb
                rw [nameLength_escape] at hw
                simp at hw
              · rw [nameLength_unescaped hb] at hw
                cases hw
            · by_cases hb : b = code 'u'
              · subst hb
                rw [List.cons_append, nameLength_escape] at hw ⊢
                have hlength := Nat.succ.inj (Nat.succ.inj hw)
                rcases w with _ | ⟨c, w⟩
                · rw [List.nil_append] at hw hlength ⊢
                  -- nothing of the number was read behind the mark for it
                  have hz' : ¬ z.head? = some (code '\x7b') := by
                    intro hz'
                    obtain ⟨c, rest, rfl⟩ := List.exists_cons_of_ne_nil hz
                    rw [hz', beq_self_eq_true, nameLength_numbered] at hlength
                    cases hlength
                  rw [beq_eq_false_iff_ne.mpr hz'] at hlength
                  rw [beq_eq_false_iff_ne.mpr fun h => hz' (hbrace h), hy hlength]
                  exact ⟨hlength, rfl⟩
                · obtain ⟨h, h'⟩ := ih (c :: w).length (by simp) hlength
                    (fun u hu => hcalm u (hu.trans ⟨[code '\\', code 'u'], rfl⟩)) rfl
                  exact ⟨h, congrArg (· + 2) h'⟩
              · rw [List.cons_append, nameLength_unescaped hb] at hw
                cases hw
          · rw [nameLength_other ha (by simpa using hname) he] at hw
            cases hw
      · rw [nameLength_beyond ha] at hw ⊢
        split at hw
        case isTrue hblank =>
          have hblank' : blankLength (a :: (w ++ y)) = 0 :=
            hcalm (a :: w) (List.suffix_refl _) (by simp) hblank
          rw [if_pos hblank']
          exact hnext hw
        case isFalse => cases hw

/-- What follows a name does not belong to it. -/
theorem nameLength_rest (hw : nameLength false (w ++ z) = w.length) : nameLength false z = 0 := by
  rcases z with _ | ⟨c, z⟩
  · rfl
  · exact (nameLength_congr hw (by simp) id id fun _ _ _ => id).1

/-- A name is not read otherwise before a text that begins with the same byte. -/
theorem calm_of_first {u : Bytes} (hz : nameLength false (c :: z) = 0) (hu : u ≠ [])
    (h : blankLength (u ++ c :: z) = 0) : blankLength (u ++ c :: y) = 0 := by
  rcases u with _ | ⟨a, u⟩
  · exact absurd rfl hu
  by_cases ha : a < 0x80
  · rw [List.cons_append, blankLength_ascii ha] at h ⊢
    exact h
  by_cases hc : a = 0xC2
  · rcases u with _ | ⟨b, u⟩
    · rw [List.cons_append, List.nil_append, blankLength_two ha hc] at h ⊢
      exact h
    · rw [List.cons_append, List.cons_append, blankLength_two ha hc] at h ⊢
      exact h
  rcases u with _ | ⟨b, _ | ⟨d, u⟩⟩
  · by_cases hsecond : c = 0x9A ∨ c = 0x80 ∨ c = 0x81 ∨ c = 0xBB
    · -- the second byte of a blank could stand in a name, and so does not end one
      rcases hsecond with rfl | rfl | rfl | rfl
      all_goals
        rw [nameLength_beyond (by decide), if_pos (by rcases z with _ | ⟨_, _ | ⟨_, _⟩⟩ <;> rfl)] at hz
        cases hz
    · simp only [not_or] at hsecond
      rcases y with _ | ⟨d, y⟩ <;> simp [blankLength, ha, hc, hsecond]
  · exact h
  · exact h

/-- A name that ends with a character is not read otherwise before any other text. -/
theorem calm_of_character {u : Bytes} (hw : Bytes.EndsCharacter w) (hsuffix : u <:+ w) (hu : u ≠ [])
    (h : blankLength (u ++ z) = 0) : blankLength (u ++ y) = 0 := by
  rcases u with _ | ⟨a, u⟩
  · exact absurd rfl hu
  by_cases ha : a < 0x80
  · rw [List.cons_append, blankLength_ascii ha] at h ⊢
    exact h
  -- no first byte of a blank can stand so near to the end
  have hnot : a < 0xE0 → a ≠ 0xC2 → blankLength (a :: (u ++ y)) = 0 := by
    intro hlt hc
    have hne : ∀ b : UInt8, 0xE0 ≤ b → a ≠ b := by
      rintro b hb rfl
      exact absurd hlt (UInt8.not_lt.mpr hb)
    rcases u ++ y with _ | ⟨b, _ | ⟨d, t⟩⟩
    · simp [blankLength, ha]
    · simp [blankLength, ha, hc]
    · simp [blankLength, ha, hc, hne]
  rcases u with _ | ⟨b, _ | ⟨d, u⟩⟩
  · have hlast := hw.1 a hsuffix
    refine hnot (UInt8.lt_trans hlast (by decide)) ?_
    rintro rfl
    exact absurd hlast (by decide)
  · by_cases hc : a = 0xC2
    · rw [List.cons_append, List.cons_append, blankLength_two ha hc] at h ⊢
      exact h
    · exact hnot (hw.2 a b hsuffix) hc
  · by_cases hc : a = 0xC2
    · rw [List.cons_append, List.cons_append, blankLength_two ha hc] at h ⊢
      exact h
    · simp only [List.cons_append, blankLength, if_neg ha, beq_iff_eq, if_neg hc] at h ⊢
      exact h

/-! ### Texts between quotes -/

theorem closingLength?_pos {quote : UInt8} {kept : Bool} (h : closingLength? quote kept t = some n) : 0 < n := by
  rcases t with _ | ⟨a, t⟩
  · cases kept <;> cases h
  have hnext : ∀ {kept : Bool}, (· + 1) <$> closingLength? quote kept t = some n → 0 < n := by
    intro kept h
    obtain ⟨m, -, rfl⟩ := Option.map_eq_some_iff.mp h
    exact Nat.succ_pos m
  cases kept with
  | true =>
    rw [closingLength?] at h
    split at h
    · exact hnext h
    · exact hnext h
  | false =>
    rw [closingLength?] at h
    split at h
    · cases h
      exact Nat.one_pos
    · split at h
      · cases h
      · exact hnext h

/-- A text between quotes ends with its quote, whatever follows. -/
theorem closingLength?_append {quote : UInt8} {kept : Bool}
    (h : closingLength? quote kept (w ++ z) = some w.length) :
    closingLength? quote kept (w ++ y) = some w.length := by
  induction w generalizing kept with
  | nil => exact absurd (closingLength?_pos h) (Nat.lt_irrefl 0)
  | cons a w ih =>
    have hnext : ∀ {kept : Bool}, (· + 1) <$> closingLength? quote kept (w ++ z) = some (w.length + 1) →
        closingLength? quote kept (w ++ z) = some w.length ∧
          (· + 1) <$> closingLength? quote kept (w ++ y) = some (w.length + 1) := by
      intro kept h
      obtain ⟨m, hm, heq⟩ := Option.map_eq_some_iff.mp h
      obtain rfl := Nat.succ.inj heq
      exact ⟨hm, by rw [ih hm]; rfl⟩
    rw [List.cons_append, List.length_cons] at h ⊢
    cases kept with
    | true =>
      rw [closingLength?] at h ⊢
      have hhead : (w ++ y).head? = (w ++ z).head? := by
        rcases w with _ | ⟨b, w⟩
        · split at h
          all_goals exact absurd (closingLength?_pos (hnext h).1) (Nat.lt_irrefl 0)
        · rfl
      rw [hhead]
      split at h
      case isTrue hbreak =>
        rw [if_pos hbreak]
        exact (hnext h).2
      case isFalse hbreak =>
        rw [if_neg hbreak]
        exact (hnext h).2
    | false =>
      rw [closingLength?] at h ⊢
      split at h
      case isTrue hquote =>
        rw [if_pos hquote]
        exact h
      case isFalse hquote =>
        rw [if_neg hquote]
        split at h
        case isTrue => cases h
        case isFalse hend =>
          rw [if_neg hend]
          exact (hnext h).2

/-- The marks between which a text is quoted. -/
def isQuote (b : UInt8) : Bool :=
  b == code '"' || b == code '\''

theorem quotedLength?_eq_some (h : quotedLength? t = some n) :
    ∃ a rest, t = a :: rest ∧ isQuote a = true ∧ (· + 1) <$> closingLength? a false rest = some n := by
  rcases t with _ | ⟨a, t⟩
  · cases h
  · unfold quotedLength? at h
    dsimp only at h
    split at h
    · exact ⟨a, t, rfl, ‹_›, h⟩
    · cases h

theorem quotedLength?_append (h : quotedLength? (w ++ z) = some w.length) :
    quotedLength? (w ++ y) = some w.length := by
  obtain ⟨a, rest, heq, ha, h⟩ := quotedLength?_eq_some h
  obtain ⟨m, hm, hlength⟩ := Option.map_eq_some_iff.mp h
  rcases w with _ | ⟨b, w⟩
  · cases hlength
  · obtain ⟨rfl, rfl⟩ := List.cons.inj heq
    obtain rfl := Nat.succ.inj hlength
    show (if isQuote b = true then (· + 1) <$> closingLength? b false (w ++ y) else none) = _
    rw [if_pos ha, closingLength?_append hm]
    rfl

/-- No name begins with a quote. -/
theorem nameLength_quote (h : isQuote a = true) (t : Bytes) : nameLength false (a :: t) = 0 := by
  unfold isQuote at h
  simp only [Bool.or_eq_true, beq_iff_eq] at h
  rcases h with rfl | rfl
  · exact nameLength_other (by decide) (by decide) (by decide) t
  · exact nameLength_other (by decide) (by decide) (by decide) t

/-! ### Words -/

/-- Whether a text is a word where another follows it: a name that ends there, which no digit begins, or a
text between quotes. -/
inductive Word (z w : Bytes) : Prop
  | name (digit : w.head?.any isDigit = false) (ne_nil : w ≠ [])
      (ends : nameLength false (w ++ z) = w.length)
  | quoted (ends : quotedLength? (w ++ z) = some w.length)

/-- Whether a word is a text between quotes. -/
def isQuoted (w : Bytes) : Bool := w.head?.any isQuote

namespace Lexeme

/-- Whether a lexeme is read as a word. -/
def isVerbal : Lexeme → Bool
  | word s => s.all isLetter && !s.isEmpty
  | name _ | quoted => true
  | _ => false

/-- Whether a lexeme that is read as a word takes a given one. -/
def takes : Lexeme → Bytes → Bool
  | word s, w => w == s
  | name reserved, w => !isQuoted w && !reserved.contains w
  | quoted, w => isQuoted w
  | _, _ => false

end Lexeme

namespace Word

theorem ne_nil (h : Word z w) : w ≠ [] := by
  cases h with
  | name _ h => exact h
  | quoted h =>
    rintro rfl
    obtain ⟨a, rest, rfl, -, h⟩ := quotedLength?_eq_some h
    obtain ⟨m, -, h⟩ := Option.map_eq_some_iff.mp h
    cases h

theorem isQuoted_of_quoted (h : quotedLength? (w ++ z) = some w.length) : isQuoted w = true := by
  obtain ⟨a, w, rfl⟩ := List.exists_cons_of_ne_nil (Word.quoted h).ne_nil
  obtain ⟨b, rest, heq, hb, -⟩ := quotedLength?_eq_some h
  rw [(List.cons.inj heq).1]
  exact hb

theorem isQuoted_of_name (hne : w ≠ []) (h : nameLength false (w ++ z) = w.length) : isQuoted w = false := by
  obtain ⟨a, w, rfl⟩ := List.exists_cons_of_ne_nil hne
  refine Bool.eq_false_iff.mpr fun ha => ?_
  rw [List.cons_append, nameLength_quote ha] at h
  cases h

theorem visible (h : Word z w) : Visible (w ++ z) := by
  cases h with
  | name _ hne h =>
    refine visible_of_name ?_
    rw [h]
    exact fun h => hne (List.length_eq_zero_iff.mp h)
  | quoted h =>
    obtain ⟨a, rest, heq, ha, -⟩ := quotedLength?_eq_some h
    rw [heq]
    unfold isQuote at ha
    simp only [Bool.or_eq_true, beq_iff_eq] at ha
    rcases ha with rfl | rfl
    · exact ⟨_, rest, rfl, rfl, by decide⟩
    · exact ⟨_, rest, rfl, rfl, by decide⟩

/-- Where a word stands, a lexeme that is read as a word reads it or fails. -/
theorem length?_eq (h : Word z w) {l : Lexeme} (hl : l.isVerbal = true) :
    l.length? (w ++ z) = if l.takes w then some w.length else none := by
  have hfirst : (w ++ z).head? = w.head? := by
    obtain ⟨a, w, rfl⟩ := List.exists_cons_of_ne_nil h.ne_nil
    rfl
  cases l with
  | word s =>
    obtain ⟨hletters, hne⟩ := Bool.and_eq_true_iff.mp hl
    show (if s.isPrefixOf (w ++ z) && nameLength false ((w ++ z).drop s.length) = 0 then some s.length else
      none) = if (w == s) = true then some w.length else none
    by_cases hsame : w = s
    · subst hsame
      have hend : nameLength false z = 0 := by
        cases h with
        | name _ _ h => exact nameLength_rest h
        | quoted h =>
          -- a letter is no quote
          obtain ⟨a, w, rfl⟩ := List.exists_cons_of_ne_nil (Word.quoted h).ne_nil
          have hquote := isQuoted_of_quoted h
          have hname := nameLength_letters hletters z
          rw [List.cons_append, nameLength_quote hquote] at hname
          rw [List.length_cons] at hname
          omega
      rw [if_pos (by simp [hend]), if_pos (by simp)]
    · rw [if_neg, if_neg (by simpa using hsame)]
      intro hboth
      obtain ⟨hfront, hend⟩ := Bool.and_eq_true_iff.mp hboth
      obtain ⟨t, ht⟩ := List.isPrefixOf_iff_prefix.mp hfront
      have hlength := nameLength_letters hletters t
      rw [← ht, List.drop_left, decide_eq_true_eq] at hend
      rw [hend, ht] at hlength
      cases h with
      | name _ _ h =>
        rw [h] at hlength
        exact hsame (List.append_inj_left ht.symm hlength)
      | quoted h =>
        obtain ⟨a, w, rfl⟩ := List.exists_cons_of_ne_nil (Word.quoted h).ne_nil
        rw [List.cons_append, nameLength_quote (isQuoted_of_quoted h)] at hlength
        have hnil : s = [] := List.length_eq_zero_iff.mp hlength.symm
        simp [hnil] at hne
  | name reserved =>
    show Lexeme.nameLength? reserved (w ++ z) =
      if (!isQuoted w && !reserved.contains w) = true then some w.length else none
    unfold Lexeme.nameLength?
    rw [hfirst]
    cases h with
    | name hdigit hne h =>
      have hpos : w.length ≠ 0 := fun h => hne (List.length_eq_zero_iff.mp h)
      simp only [hdigit, if_neg Bool.false_ne_true, isQuoted_of_name hne h, h, List.take_left]
      cases reserved.contains w <;> simp [nonzero, hpos]
    | quoted h =>
      have hquote := isQuoted_of_quoted h
      have hnone : nameLength false (w ++ z) = 0 := by
        obtain ⟨a, w, rfl⟩ := List.exists_cons_of_ne_nil (Word.quoted h).ne_nil
        exact nameLength_quote hquote _
      simp [hquote, hnone, nonzero]
  | quoted =>
    show quotedLength? (w ++ z) = if isQuoted w = true then some w.length else none
    cases h with
    | name _ hne h =>
      rw [if_neg (Bool.eq_false_iff.mp (isQuoted_of_name hne h))]
      cases hquoted : quotedLength? (w ++ z) with
      | none => rfl
      | some n =>
        obtain ⟨a, rest, heq, ha, -⟩ := quotedLength?_eq_some hquoted
        have hnone := nameLength_quote ha rest
        rw [← heq, h] at hnone
        exact absurd (List.length_eq_zero_iff.mp hnone) hne
    | quoted h => rw [h, if_pos (isQuoted_of_quoted h)]
  | _ => cases hl

/-- What a lexeme reads as a word is one. -/
theorem of_length? {l : Lexeme} (hl : l.isVerbal = true) (h : l.length? t = some n) :
    ∃ w z, t = w ++ z ∧ w.length = n ∧ Word z w ∧ l.takes w = true := by
  have hle := Lexeme.length?_le h
  have hlength : (t.take n).length = n := by rw [List.length_take, Nat.min_eq_left hle]
  have hword : Word (t.drop n) (t.take n) := by
    cases l with
    | word s =>
      obtain ⟨hletters, hne⟩ := Bool.and_eq_true_iff.mp hl
      simp only [Lexeme.length?] at h
      split at h
      case isFalse => cases h
      case isTrue hboth =>
        cases h
        obtain ⟨hfront, hend⟩ := Bool.and_eq_true_iff.mp hboth
        obtain ⟨z, rfl⟩ := List.isPrefixOf_iff_prefix.mp hfront
        rw [List.drop_left, decide_eq_true_eq] at hend
        rw [List.take_left, List.drop_left]
        have hne : s ≠ [] := by
          rintro rfl
          cases hne
        refine .name ?_ hne (by rw [nameLength_letters hletters, hend, Nat.add_zero])
        obtain ⟨a, s, rfl⟩ := List.exists_cons_of_ne_nil hne
        exact isDigit_of_isLetter (Bool.and_eq_true_iff.mp hletters).1
    | name reserved =>
      simp only [Lexeme.length?, Lexeme.nameLength?] at h
      split at h
      · cases h
      · rename_i hdigit
        split at h
        · cases h
        · obtain ⟨rfl, hpos⟩ := nonzero_eq_some h
          have hne : t.take (nameLength false t) ≠ [] := by
            rw [ne_eq, ← List.length_eq_zero_iff, hlength]
            omega
          refine .name ?_ hne (by rw [List.take_append_drop, hlength])
          rw [List.head?_take, if_neg (by omega)]
          exact Bool.eq_false_iff.mpr hdigit
    | quoted => exact .quoted (by rw [List.take_append_drop, hlength]; exact h)
    | _ => cases hl
  refine ⟨t.take n, t.drop n, (List.take_append_drop n t).symm, hlength, hword, ?_⟩
  have heq := hword.length?_eq hl
  rw [List.take_append_drop, h] at heq
  split at heq
  · assumption
  · cases heq

/-- A word before one text is a word before another that begins with the same byte, if no name goes on there. -/
theorem of_first {z' : Bytes} (h : Word (c :: z) w)
    (hz' : nameLength false (c :: z) = 0 → nameLength false (c :: z') = 0) : Word (c :: z') w := by
  cases h with
  | name hdigit hne h =>
    have hz := nameLength_rest h
    exact .name hdigit hne (nameLength_congr h (by simp) hz' id
      fun u _ hu hblank => calm_of_first hz hu hblank).2
  | quoted h => exact .quoted (quotedLength?_append h)

/-- A word that ends with a character is a word before every text with which no name goes on. -/
theorem of_end (h : Word z w) (hz : z ≠ []) (hends : Bytes.EndsCharacter w)
    (hy : nameLength false (c :: y) = 0) (hbrace : c ≠ code '\x7b') : Word (c :: y) w := by
  cases h with
  | name hdigit hne h =>
    exact .name hdigit hne (nameLength_congr h hz (fun _ => hy) (fun hhead => absurd (Option.some.inj hhead) hbrace)
      fun u hsuffix hu hblank => calm_of_character hends hsuffix hu hblank).2
  | quoted h => exact .quoted (quotedLength?_append h)

/-- Between two names stands a gap. -/
theorem gap_ne_nil {g v : Bytes} (h : Word (g ++ (w ++ z)) v) (hw : Word z w) (hquoted : isQuoted v = false)
    (hquoted' : isQuoted w = false) : g ≠ [] := by
  rintro rfl
  cases h with
  | quoted h => rw [isQuoted_of_quoted h] at hquoted; cases hquoted
  | name _ _ h =>
    cases hw with
    | quoted h' => rw [isQuoted_of_quoted h'] at hquoted'; cases hquoted'
    | name _ hne h' =>
      have hrest := nameLength_rest h
      rw [List.nil_append, h'] at hrest
      exact hne (List.length_eq_zero_iff.mp hrest)

end Word

/-! ### Names that can be bound -/

/-- Whether a name can be bound: before a space it is read as a whole. -/
def Bindable (n : Bytes) : Prop :=
  (Lexeme.name Grammar.reservedWords).length? (n ++ [code ' ']) = some n.length

instance (n : Bytes) : Decidable (Bindable n) :=
  inferInstanceAs (Decidable (_ = _))

namespace Bindable

variable {n : Bytes}

theorem word (h : Bindable n) :
    Word [code ' '] n ∧ (Lexeme.name Grammar.reservedWords).takes n = true := by
  obtain ⟨w, z, hsplit, hlength, hword, htakes⟩ := Word.of_length? (l := .name Grammar.reservedWords) rfl h
  obtain ⟨rfl, rfl⟩ := List.append_inj hsplit hlength.symm
  exact ⟨hword, htakes⟩

theorem not_isQuoted (h : Bindable n) : isQuoted n = false := by
  have htakes := h.word.2
  rw [Lexeme.takes, Bool.and_eq_true, Bool.not_eq_true'] at htakes
  exact htakes.1

/-- A name of characters is a word before every text with which no name goes on. -/
theorem before (h : Bindable n) (hends : Bytes.EndsCharacter n) (hy : nameLength false (c :: y) = 0)
    (hbrace : c ≠ code '\x7b') : Word (c :: y) n :=
  h.word.1.of_end (by simp) hends hy hbrace

theorem before_space (h : Bindable n) (y : Bytes) : Word (code ' ' :: y) n :=
  h.word.1.of_first fun _ => nameLength_other (by decide) (by decide) (by decide) y

end Bindable

end Codemod.Syntax
