import Codemod.Syntax.Lexeme

/-!
# Lexemes lie within their text

No class of lexemes takes more bytes than the text has. Names and quoted texts take at least one, and
marks, words and quoted texts end with a visible byte.

Main statements:

* `Lexeme.length?_le` says that a lexeme lies within its text;
* `Lexeme.length?_pos_of_isSolid` says of which classes no lexeme is empty;
* `Lexeme.length?_endsVisible` says of which classes every lexeme ends with a visible byte.
-/

namespace Codemod.Syntax

variable {t : Bytes} {n : Nat}

theorem length_takeWhile_le (p : UInt8 → Bool) (t : Bytes) : (t.takeWhile p).length ≤ t.length :=
  (List.takeWhile_sublist p).length_le

theorem digitsLength_le (digit : UInt8 → Bool) (t : Bytes) : digitsLength digit t ≤ t.length :=
  length_takeWhile_le _ t

theorem bigMarkLength_le (t : Bytes) : bigMarkLength t ≤ t.length := by
  unfold bigMarkLength
  split
  case isTrue h =>
    cases t with
    | nil => cases h
    | cons a rest => simp
  case isFalse => omega

theorem exponentLength_le (t : Bytes) : exponentLength t ≤ t.length := by
  unfold exponentLength
  split
  case h_1 a rest =>
    split
    case isTrue =>
      dsimp only
      generalize hsign :
        (if rest.head? == some (code '+') || rest.head? == some (code '-') then 1 else 0) = sign
      have hsign' : sign ≤ rest.length := by
        subst hsign
        cases rest with
        | nil => simp
        | cons b more => split <;> simp
      have hdigits := digitsLength_le isDigit (rest.drop sign)
      rw [List.length_drop] at hdigits
      split
      case h_1 => omega
      case h_2 n hn =>
        rw [hn] at hdigits
        rw [List.length_cons]
        omega
    case isFalse => omega
  case h_2 => omega

/-- Only one of an exponent and the mark of a big integer can stand in one place. -/
theorem exponentLength_add_bigMarkLength_le (t : Bytes) :
    exponentLength t + bigMarkLength t ≤ t.length := by
  have hexponent := exponentLength_le t
  have hmark := bigMarkLength_le t
  by_cases h : t.head? = some (code 'n')
  · have hnone : exponentLength t = 0 := by
      cases t with
      | nil => rfl
      | cons a rest =>
        obtain rfl := Option.some.inj h
        rfl
    omega
  · have hnone : bigMarkLength t = 0 := by simp [bigMarkLength, h]
    omega

theorem basedNumberLength_le (t : Bytes) : basedNumberLength t ≤ t.length := by
  unfold basedNumberLength
  split
  case h_1 a b rest =>
    split
    case isTrue => omega
    case isFalse =>
      dsimp only
      generalize hn : (if b == code 'x' || b == code 'X' then digitsLength isHexDigit rest
        else if b == code 'o' || b == code 'O' || b == code 'b' || b == code 'B' then
          digitsLength isDigit rest else 0) = n
      have hn' : n ≤ rest.length := by
        subst hn
        have hhex := digitsLength_le isHexDigit rest
        have hdecimal := digitsLength_le isDigit rest
        split
        · exact hhex
        · split <;> omega
      have hmark := bigMarkLength_le (rest.drop n)
      rw [List.length_drop] at hmark
      rw [List.length_cons, List.length_cons]
      split <;> omega
  case h_2 => omega

theorem decimalLength_le (t : Bytes) : decimalLength t ≤ t.length := by
  unfold decimalLength
  dsimp only
  have hwhole := digitsLength_le isDigit t
  generalize digitsLength isDigit t = whole at *
  generalize hpart : (if (t.drop whole).head? == some (code '.') then
    if whole = 0 && digitsLength isDigit ((t.drop whole).drop 1) = 0 then 0
    else digitsLength isDigit ((t.drop whole).drop 1) + 1 else 0) = part
  have hpart' : whole + part ≤ t.length := by
    subst hpart
    have hplaces := digitsLength_le isDigit ((t.drop whole).drop 1)
    rw [List.length_drop, List.length_drop] at hplaces
    split
    case isTrue hdot =>
      have hrest : t.drop whole ≠ [] := by
        intro hnil
        rw [hnil] at hdot
        cases hdot
      have hlength := List.length_pos_iff.mpr hrest
      rw [List.length_drop] at hlength
      split <;> omega
    case isFalse => omega
  have hend := exponentLength_add_bigMarkLength_le (t.drop (whole + part))
  rw [List.length_drop] at hend
  split <;> omega

theorem numberLength_le (t : Bytes) : numberLength t ≤ t.length := by
  unfold numberLength
  have hbased := basedNumberLength_le t
  have hdecimal := decimalLength_le t
  split
  · split
    · exact hdecimal
    · omega
  · omega

theorem closingLength?_le {quote : UInt8} {kept : Bool} (h : closingLength? quote kept t = some n) :
    n ≤ t.length := by
  induction t generalizing kept n with
  | nil => cases kept <;> cases h
  | cons a rest ih =>
    have hstep : ∀ kept', (· + 1) <$> closingLength? quote kept' rest = some n →
        n ≤ (a :: rest).length := by
      intro kept' h
      obtain ⟨m, hm, rfl⟩ := Option.map_eq_some_iff.mp h
      exact Nat.succ_le_succ (ih hm)
    cases kept with
    | true =>
      unfold closingLength? at h
      split at h
      · exact hstep _ h
      · exact hstep _ h
    | false =>
      unfold closingLength? at h
      split at h
      · cases h; simp
      · split at h
        · cases h
        · exact hstep _ h

theorem quotedLength?_le (h : quotedLength? t = some n) : n ≤ t.length := by
  unfold quotedLength? at h
  split at h
  case h_1 a rest =>
    split at h
    · obtain ⟨m, hm, rfl⟩ := Option.map_eq_some_iff.mp h
      exact Nat.succ_le_succ (closingLength?_le hm)
    · cases h
  case h_2 => cases h

theorem closingLength?_ends {quote : UInt8} {kept : Bool} (h : closingLength? quote kept t = some n) :
    ∃ k, n = k + 1 ∧ t[k]? = some quote := by
  induction t generalizing kept n with
  | nil => cases kept <;> cases h
  | cons a rest ih =>
    have hstep : ∀ kept', (· + 1) <$> closingLength? quote kept' rest = some n →
        ∃ k, n = k + 1 ∧ (a :: rest)[k]? = some quote := by
      intro kept' h
      obtain ⟨m, hm, rfl⟩ := Option.map_eq_some_iff.mp h
      obtain ⟨k, rfl, hk⟩ := ih hm
      exact ⟨k + 1, rfl, hk⟩
    cases kept with
    | true =>
      unfold closingLength? at h
      split at h
      · exact hstep _ h
      · exact hstep _ h
    | false =>
      unfold closingLength? at h
      split at h
      case isTrue hquote =>
        cases h
        exact ⟨0, rfl, congrArg some (by simpa using hquote)⟩
      case isFalse =>
        split at h
        · cases h
        · exact hstep _ h

/-- A quoted text ends with its quote, which is visible. -/
theorem quotedLength?_ends (h : quotedLength? t = some n) :
    ∃ quote k, n = k + 1 ∧ t[k]? = some quote ∧ Bytes.isBlank quote = false := by
  unfold quotedLength? at h
  split at h
  case h_1 a rest =>
    split at h
    case isTrue hquote =>
      obtain ⟨m, hm, rfl⟩ := Option.map_eq_some_iff.mp h
      obtain ⟨k, rfl, hk⟩ := closingLength?_ends hm
      refine ⟨a, k + 1, rfl, hk, ?_⟩
      simp only [Bool.or_eq_true, beq_iff_eq] at hquote
      rcases hquote with rfl | rfl <;> decide
    case isFalse => cases h
  case h_2 => cases h

theorem regexClosingLength?_le {s : RegexState} (h : regexClosingLength? s t = some n) :
    n ≤ t.length := by
  induction t generalizing s n with
  | nil => cases s <;> cases h
  | cons a rest ih =>
    have hstep : ∀ s', (· + 1) <$> regexClosingLength? s' rest = some n →
        n ≤ (a :: rest).length := by
      intro s' h
      obtain ⟨m, hm, rfl⟩ := Option.map_eq_some_iff.mp h
      exact Nat.succ_le_succ (ih hm)
    unfold regexClosingLength? at h
    split at h
    · cases h
    · cases s with
      | kept inside => exact hstep _ h
      | plain =>
        dsimp only at h
        split at h
        · cases h; simp
        · split at h
          · exact hstep _ h
          · split at h
            · exact hstep _ h
            · exact hstep _ h
      | listed =>
        dsimp only at h
        split at h
        · exact hstep _ h
        · split at h
          · exact hstep _ h
          · exact hstep _ h

theorem regexLength?_le (h : regexLength? t = some n) : n ≤ t.length := by
  unfold regexLength? at h
  split at h
  case h_1 a rest =>
    split at h
    · obtain ⟨m, hm, h⟩ := Option.bind_eq_some_iff.mp h
      have hclosing := regexClosingLength?_le hm
      have hflags := length_takeWhile_le (fun b => code 'a' ≤ b && b ≤ code 'z') (rest.drop m)
      rw [List.length_drop] at hflags
      cases h
      rw [List.length_cons]
      omega
    · cases h
  case h_2 => cases h

theorem templateTextLength_le (kept : Bool) (t : Bytes) : templateTextLength kept t ≤ t.length := by
  induction t generalizing kept with
  | nil => cases kept <;> simp [templateTextLength]
  | cons a rest ih =>
    cases kept with
    | true => exact Nat.succ_le_succ (ih false)
    | false =>
      unfold templateTextLength
      split
      · omega
      · split
        · omega
        · exact Nat.succ_le_succ (ih _)

theorem markupNameLength_le (t : Bytes) : markupNameLength t ≤ t.length := by
  unfold markupNameLength
  have hname := nameLength_le false t
  split
  case h_1 => omega
  case h_2 n hn =>
    have hmore := length_takeWhile_le (fun b => b == code '-' || isNameByte b) (t.drop (n + 1))
    rw [List.length_drop] at hmore
    omega

theorem markupQuotedLength?_bounds (h : markupQuotedLength? t = some n) : 0 < n ∧ n ≤ t.length := by
  unfold markupQuotedLength? at h
  split at h
  case h_1 a rest =>
    split at h
    · dsimp only at h
      split at h
      · cases h
      · rename_i hclosed
        cases h
        have hlength := length_takeWhile_le (· != a) rest
        have hrest : rest.drop (rest.takeWhile (· != a)).length ≠ [] := by simpa using hclosed
        have hpos := List.length_pos_iff.mpr hrest
        rw [List.length_drop] at hpos
        rw [List.length_cons]
        omega
    · cases h
  case h_2 => cases h

theorem nonzero_eq_some {m : Nat} (h : nonzero m = some n) : n = m ∧ 0 < n := by
  unfold nonzero at h
  split at h
  · cases h
  · cases h
    omega

namespace Lexeme

theorem nameLength?_bounds {reserved : List Bytes} (h : nameLength? reserved t = some n) :
    0 < n ∧ n ≤ t.length := by
  unfold nameLength? at h
  split at h
  · cases h
  · dsimp only at h
    split at h
    · cases h
    · obtain ⟨rfl, hpos⟩ := nonzero_eq_some h
      exact ⟨hpos, nameLength_le false t⟩

/-- Whether a class has no empty lexeme: names and texts between quotes. -/
def isSolid : Lexeme → Bool
  | name _ | markupName | quoted | markupQuoted => true
  | _ => false

theorem length?_pos_of_isSolid {l : Lexeme} (hl : l.isSolid = true) (h : l.length? t = some n) :
    0 < n := by
  cases l with
  | name reserved => exact (nameLength?_bounds h).1
  | markupName => exact (nonzero_eq_some h).2
  | quoted =>
    obtain ⟨quote, k, rfl, -⟩ := quotedLength?_ends h
    exact Nat.succ_pos k
  | markupQuoted => exact (markupQuotedLength?_bounds h).1
  | _ => cases hl

/-- Whether every lexeme of a class ends with a visible byte, as marks, words and quoted texts do. -/
def endsVisible : Lexeme → Bool
  | exactly s | word s => s.getLast?.any fun b => !Bytes.isBlank b
  | quoted => true
  | _ => false

theorem endsVisible_of_begins {s : Bytes} (hs : (s.getLast?.any fun b => !Bytes.isBlank b) = true)
    (hbegins : s <+: t) : ∃ k b, s.length = k + 1 ∧ t[k]? = some b ∧ Bytes.isBlank b = false := by
  obtain ⟨b, hlast, hb⟩ := (Option.any_eq_true _ _).mp hs
  have hne : s ≠ [] := by
    rintro rfl
    cases hlast
  have hpos := List.length_pos_iff.mpr hne
  refine ⟨s.length - 1, b, by omega, ?_, by simpa using hb⟩
  obtain ⟨rest, rfl⟩ := hbegins
  rw [List.getElem?_append_left (by omega), ← List.getLast?_eq_getElem?, hlast]

theorem length?_endsVisible {l : Lexeme} (hl : l.endsVisible = true) (h : l.length? t = some n) :
    ∃ k b, n = k + 1 ∧ t[k]? = some b ∧ Bytes.isBlank b = false := by
  cases l with
  | exactly s =>
    obtain ⟨hbegins, rfl⟩ := length?_exactly.mp h
    exact endsVisible_of_begins hl hbegins
  | word s =>
    simp only [length?] at h
    split at h
    case isTrue hs =>
      cases h
      have hbegins := List.isPrefixOf_iff_prefix.mp (Bool.and_eq_true_iff.mp hs).1
      exact endsVisible_of_begins hl hbegins
    case isFalse => cases h
  | quoted =>
    obtain ⟨quote, k, rfl, hget, hquote⟩ := quotedLength?_ends h
    exact ⟨k, quote, rfl, hget, hquote⟩
  | _ => cases hl

/-- A lexeme lies within its text. -/
theorem length?_le {l : Lexeme} (h : l.length? t = some n) : n ≤ t.length := by
  have hnonzero : ∀ {m : Nat}, m ≤ t.length → nonzero m = some n → n ≤ t.length := by
    intro m hm h
    rw [(nonzero_eq_some h).1]
    exact hm
  cases l with
  | exactly s =>
    obtain ⟨hbegins, rfl⟩ := length?_exactly.mp h
    exact hbegins.length_le
  | word s =>
    simp only [length?] at h
    split at h
    case isTrue hs =>
      cases h
      have hbegins := (Bool.and_eq_true_iff.mp hs).1
      exact (List.isPrefixOf_iff_prefix.mp hbegins).length_le
    case isFalse => cases h
  | name reserved => exact (nameLength?_bounds h).2
  | privateName =>
    simp only [length?] at h
    split at h
    case isTrue hmark =>
      obtain ⟨m, hm, rfl⟩ := Option.map_eq_some_iff.mp h
      have hname := (nameLength?_bounds hm).2
      cases t with
      | nil => cases hmark
      | cons a rest => exact Nat.succ_le_succ hname
    case isFalse => cases h
  | number => exact hnonzero (numberLength_le t) h
  | quoted => exact quotedLength?_le h
  | regex => exact regexLength?_le h
  | templateText => exact hnonzero (templateTextLength_le false t) h
  | markupText => exact hnonzero (length_takeWhile_le _ t) h
  | markupName => exact hnonzero (markupNameLength_le t) h
  | markupQuoted => exact (markupQuotedLength?_bounds h).2
  | line =>
    cases h
    exact length_takeWhile_le _ t

end Lexeme
end Codemod.Syntax
