import Codemod.Proofs.LexemeBounds
import Codemod.Proofs.VisibleEnds

/-!
# Lexemes that are settled by a text

A source is read lexeme by lexeme from its beginning. What stands further behind has a part in that only where a
lexeme, a comment or a run of blanks is still open at the end of what is known of the source. Here it is told from the
known text alone that none is.

Main statements:

* `EndsAscii.trivia_append` says where blanks and comments end, whatever follows;
* `nameLength_append` and `numberLength_append` say where names and numbers end;
* `Lexeme.length?_append` says that a lexeme is settled if `Lexeme.isSettled` says that it is.
-/

namespace Codemod.Syntax

variable {a b c : UInt8} {t u z : Bytes} {n : Nat}

/-! ### Blanks and comments -/

/-- Whether a text ends with an ASCII character, so that what follows does not go on with its last character. -/
def EndsAscii (t : Bytes) : Prop :=
  ∀ b ∈ t.getLast?, b < 0x80

instance (t : Bytes) : Decidable (EndsAscii t) :=
  inferInstanceAs (Decidable (∀ b ∈ t.getLast?, b < 0x80))

namespace EndsAscii

theorem suffix (h : EndsAscii t) (hu : u <:+ t) : EndsAscii u := by
  intro b hb
  obtain ⟨w, rfl⟩ := hu
  refine h b ?_
  rw [List.getLast?_append, hb]
  rfl

theorem tail (h : EndsAscii (a :: t)) : EndsAscii t :=
  h.suffix (List.suffix_cons a t)

/-- A blank of several bytes is not completed by what follows. -/
theorem blankLength_append (h : EndsAscii t) (ht : t ≠ []) : blankLength (t ++ z) = blankLength t := by
  rcases t with _ | ⟨a, _ | ⟨b, _ | ⟨c, t⟩⟩⟩
  · exact absurd rfl ht
  · rw [List.singleton_append, blankLength_ascii (h a rfl), blankLength_ascii (h a rfl)]
  · have hb : b < 0x80 := h b rfl
    have hne : ∀ c : UInt8, 0x80 ≤ c → b ≠ c := by
      rintro c hc rfl
      exact absurd hb (UInt8.not_lt.mpr hc)
    by_cases ha : a < 0x80
    · rw [List.cons_append, blankLength_ascii ha, blankLength_ascii ha]
    · rcases z with _ | ⟨c, z⟩
      · rfl
      · simp [blankLength, ha, hne]
  · rfl

/-- A line end of several bytes is not completed by what follows. -/
theorem startsWithLineEnd_append (h : EndsAscii t) (ht : t ≠ []) :
    startsWithLineEnd (t ++ z) = startsWithLineEnd t := by
  rcases t with _ | ⟨a, _ | ⟨b, _ | ⟨c, t⟩⟩⟩
  · exact absurd rfl ht
  · have ha : a ≠ 0xE2 := by
      rintro rfl
      exact absurd (h 0xE2 rfl) (by decide)
    rcases z with _ | ⟨b, _ | ⟨c, z⟩⟩ <;> simp [startsWithLineEnd, ha]
  · have hb : b ≠ 0x80 := by
      rintro rfl
      exact absurd (h 0x80 rfl) (by decide)
    rcases z with _ | ⟨c, z⟩ <;> simp [startsWithLineEnd, hb]
  · rfl

end EndsAscii

/-- Blanks and comments of a text that another one follows. -/
def Trivia.followedBy (z : Bytes) (r : Trivia) : Trivia :=
  { r with rest := r.rest ++ z }

/-- A state in which a comment of a text that another one follows is kept in mind. -/
def TriviaState.followedBy (z : Bytes) : TriviaState → TriviaState
  | .outside k => .outside k
  | .opening before => .opening (before.followedBy z)
  | .line before => .line (before.followedBy z)
  | .block before starred => .block (before.followedBy z) starred

/-- Whether a comment that is kept in mind began as it must. -/
def TriviaState.Opened (t : Bytes) : TriviaState → Prop
  | .opening before => before.rest = code '/' :: t
  | .block before _ => [code '/', code '*'] <+: before.rest
  | _ => True

/-- Whether blanks and comments end where this text begins, whatever follows it: no comment can begin here. -/
def isSteady (t : Bytes) : Bool :=
  !t.isEmpty && t != [code '/'] && !(List.isPrefixOf [code '/', code '*'] t)

theorem ne_nil_of_isSteady (h : isSteady t = true) : t ≠ [] := by
  rintro rfl
  cases h

theorem triviaFrom_append {m : TriviaState} {found : List (Nat × Nat)} {offset : Nat} (h : EndsAscii t)
    (hm : m.Opened t) (hsteady : isSteady (triviaFrom blankLength m found offset t).rest = true) :
    triviaFrom blankLength (m.followedBy z) found offset (t ++ z) =
      (triviaFrom blankLength m found offset t).followedBy z := by
  induction t generalizing m found offset with
  | nil =>
    -- What is still open at the end is not steady.
    exfalso
    cases m with
    | outside k => cases hsteady
    | opening before =>
      have hrest : before.rest = [code '/'] := hm
      simp [triviaFrom, hrest, isSteady] at hsteady
    | line before => cases hsteady
    | block before starred =>
      simp [triviaFrom, isSteady, List.isPrefixOf_iff_prefix.mpr hm] at hsteady
  | cons a t ih =>
    have hblank : blankLength (a :: (t ++ z)) = blankLength (a :: t) := h.blankLength_append (by simp)
    have hline : startsWithLineEnd (a :: (t ++ z)) = startsWithLineEnd (a :: t) :=
      h.startsWithLineEnd_append (by simp)
    rw [List.cons_append]
    cases m with
    | outside k =>
      cases k with
      | succ k => exact ih h.tail (m := .outside k) trivial hsteady
      | zero =>
        simp only [TriviaState.followedBy, triviaFrom, hblank] at hsteady ⊢
        split
        case h_1 k hk =>
          simp only [hk] at hsteady
          exact ih h.tail (m := .outside k) trivial hsteady
        case h_2 hk =>
          simp only [hk] at hsteady
          split
          case isTrue ha =>
            rw [if_pos ha] at hsteady
            exact ih h.tail (m := .opening ⟨found, offset, a :: t⟩) (by rw [eq_of_beq ha]; rfl) hsteady
          case isFalse => rfl
    | opening before =>
      simp only [TriviaState.followedBy, triviaFrom] at hsteady ⊢
      split
      case isTrue ha =>
        rw [if_pos ha] at hsteady
        exact ih h.tail (m := .line before) trivial hsteady
      case isFalse ha =>
        rw [if_neg ha] at hsteady
        split
        case isTrue hstar =>
          rw [if_pos hstar] at hsteady
          refine ih h.tail (m := .block before false) ?_ hsteady
          have hrest : before.rest = code '/' :: a :: t := hm
          change _ <+: before.rest
          rw [hrest, eq_of_beq hstar]
          exact ⟨t, rfl⟩
        case isFalse => rfl
    | line before =>
      simp only [TriviaState.followedBy, triviaFrom, hblank, hline] at hsteady ⊢
      split
      case isTrue hend =>
        rw [if_pos hend] at hsteady
        split
        case h_1 k hk =>
          simp only [hk] at hsteady
          exact ih h.tail (m := .outside k) trivial hsteady
        case h_2 => rfl
      case isFalse hend =>
        rw [if_neg hend] at hsteady
        exact ih h.tail (m := .line before) trivial hsteady
    | block before starred =>
      simp only [TriviaState.followedBy, triviaFrom] at hsteady ⊢
      split
      case isTrue hend =>
        rw [if_pos hend] at hsteady
        exact ih h.tail (m := .outside 0) trivial hsteady
      case isFalse hend =>
        rw [if_neg hend] at hsteady
        exact ih h.tail (m := .block before (a == code '*')) hm hsteady

/-- Where blanks and comments end within a text, they end there whatever follows. -/
theorem EndsAscii.trivia_append {offset : Nat} (h : EndsAscii t) (hsteady : isSteady (trivia offset t).rest = true) :
    trivia offset (t ++ z) = (trivia offset t).followedBy z :=
  triviaFrom_append (m := .outside 0) h trivial hsteady

/-- The same for blanks alone. -/
theorem EndsAscii.dropBlanks_append (h : EndsAscii t) (hrest : dropBlanks blankLength n t ≠ []) :
    dropBlanks blankLength n (t ++ z) = dropBlanks blankLength n t ++ z := by
  induction t generalizing n with
  | nil => cases n <;> exact absurd rfl hrest
  | cons a t ih =>
    cases n with
    | succ n => exact ih h.tail hrest
    | zero =>
      have hblank : blankLength (a :: (t ++ z)) = blankLength (a :: t) := h.blankLength_append (by simp)
      simp only [List.cons_append, dropBlanks, hblank] at hrest ⊢
      split
      case h_1 => rfl
      case h_2 k hk =>
        simp only [hk] at hrest
        exact ih h.tail hrest

/-! ### Names -/

/-- Whether a name at the beginning of a text is settled: an ASCII character that goes on with no name follows it. -/
def settlesName (t : Bytes) : Bool :=
  (t.drop (nameLength false t)).head?.any fun a => a < 0x80 && a != code '\\'

theorem nameLength_append (h : EndsAscii t) {numbered : Bool}
    (hends : ((t.drop (nameLength numbered t)).head?.any fun a => a < 0x80 && a != code '\\') = true) :
    nameLength numbered (t ++ z) = nameLength numbered t := by
  fun_induction nameLength numbered t with
  | case1 => cases hends
  | case2 a t ha ih =>
    rw [List.cons_append, nameLength_numbered, eq_of_beq ha]
    exact congrArg (· + 1) (ih h.tail hends)
  | case3 a t ha ih =>
    have hmore : (a != code '\x7d') = true := by simpa using ha
    rw [List.cons_append, nameLength_numbered, hmore]
    exact congrArg (· + 1) (ih h.tail hends)
  | case4 a t hascii hname ih =>
    rw [List.cons_append, nameLength_name hname hascii]
    exact congrArg (· + 1) (ih h.tail hends)
  | case5 a hascii hname hmark => simp [eq_of_beq hmark] at hends
  | case6 a hascii hname hmark b more hu hbrace ih =>
    have hhead : ((more ++ z).head? == some (code '\x7b')) = true := by
      rcases more with _ | ⟨c, more⟩
      · cases hbrace
      · exact hbrace
    rw [List.cons_append, List.cons_append, eq_of_beq hmark, eq_of_beq hu, nameLength_escape, hhead]
    exact congrArg (· + 2) (ih h.tail.tail hends)
  | case7 a hascii hname hmark b more hu hbrace ih =>
    have hhead : ((more ++ z).head? == some (code '\x7b')) = false := by
      rcases more with _ | ⟨c, more⟩
      · cases hends
      · simpa using hbrace
    rw [List.cons_append, List.cons_append, eq_of_beq hmark, eq_of_beq hu, nameLength_escape, hhead]
    exact congrArg (· + 2) (ih h.tail.tail hends)
  | case8 a hascii hname hmark => simp [eq_of_beq hmark] at hends
  | case9 a t hascii hname hmark => exact nameLength_other hascii (by simpa using hname) (by simpa using hmark) _
  | case10 a t hascii hblank ih =>
    have hsame : blankLength (a :: (t ++ z)) = 0 := (h.blankLength_append (by simp)).trans hblank
    rw [List.cons_append, nameLength_beyond hascii, if_pos hsame]
    exact congrArg (· + 1) (ih h.tail hends)
  | case11 a t hascii => simp [hascii] at hends

/-! ### Numbers -/

/-- Whether a byte can stand in a number. -/
def isNumberByte (b : UInt8) : Bool :=
  isNameByte b || b == code '.' || b == code '+' || b == code '-'

theorem takeWhile_before {p : UInt8 → Bool} (hb : p b = false) : (u ++ b :: z).takeWhile p = u.takeWhile p := by
  induction u with
  | nil => exact List.takeWhile_cons_of_neg (by rw [hb]; exact Bool.false_ne_true)
  | cons a u ih => rw [List.cons_append, List.takeWhile_cons, List.takeWhile_cons, ih]

section Before

variable (hb : isNumberByte b = false)

include hb

theorem ne_of_isNumberByte (hc : isNumberByte c = true) : b ≠ c := by
  rintro rfl
  rw [hb] at hc
  cases hc

theorem head?_before (hc : isNumberByte c = true) : ((u ++ b :: z).head? == some c) = (u.head? == some c) := by
  rcases u with _ | ⟨a, u⟩
  · have hne := ne_of_isNumberByte hb hc
    simp [hne]
  · rfl

theorem digitsLength_before {digit : UInt8 → Bool} (hdigit : ∀ c, digit c = true → isNameByte c = true) :
    digitsLength digit (u ++ b :: z) = digitsLength digit u := by
  have hno : (digit b || b == code '_') = false := by
    have hmark := ne_of_isNumberByte hb (show isNumberByte (code '_') = true by decide)
    cases hd : digit b with
    | true =>
      unfold isNumberByte at hb
      rw [hdigit b hd] at hb
      cases hb
    | false => simpa using hmark
  exact congrArg List.length (takeWhile_before (p := fun b => digit b || b == code '_') hno)

theorem bigMarkLength_before : bigMarkLength (u ++ b :: z) = bigMarkLength u := by
  unfold bigMarkLength
  rw [head?_before hb (by decide)]

theorem exponentLength_before : exponentLength (u ++ b :: z) = exponentLength u := by
  rcases u with _ | ⟨a, u⟩
  · have hletters : b ≠ code 'e' ∧ b ≠ code 'E' :=
      ⟨ne_of_isNumberByte hb (by decide), ne_of_isNumberByte hb (by decide)⟩
    simp [exponentLength, hletters]
  · simp only [List.cons_append, exponentLength, head?_before hb (show isNumberByte (code '+') = true by decide),
      head?_before hb (show isNumberByte (code '-') = true by decide)]
    generalize hsign : (if u.head? == some (code '+') || u.head? == some (code '-') then 1 else 0) = sign
    have hle : sign ≤ u.length := by
      subst hsign
      rcases u with _ | ⟨c, u⟩
      · exact Nat.le_refl 0
      · split <;> simp
    rw [List.drop_append_of_le_length hle, digitsLength_before hb fun _ => isNameByte_of_isDigit]

theorem basedNumberLength_before : basedNumberLength (u ++ b :: z) = basedNumberLength u := by
  rcases u with _ | ⟨a, _ | ⟨c, u⟩⟩
  · have hzero : b ≠ code '0' := ne_of_isNumberByte hb (by decide)
    rcases z with _ | ⟨c, z⟩
    · rfl
    · simp [basedNumberLength, hzero]
  · have hbases : ∀ c ∈ [code 'x', code 'X', code 'o', code 'O', code 'b', code 'B'], b ≠ c := fun c hc =>
      ne_of_isNumberByte hb (List.all_eq_true.mp (by decide) c hc)
    simp only [List.forall_mem_cons] at hbases
    simp [basedNumberLength, hbases]
  · simp only [List.cons_append, basedNumberLength, digitsLength_before hb fun _ => isNameByte_of_isDigit,
      digitsLength_before hb fun _ => isNameByte_of_isHexDigit]
    generalize hn : (if c == code 'x' || c == code 'X' then digitsLength isHexDigit u
      else if c == code 'o' || c == code 'O' || c == code 'b' || c == code 'B' then
        digitsLength isDigit u else 0) = n
    have hle : n ≤ u.length := by
      subst hn
      split
      · exact digitsLength_le _ u
      · split
        · exact digitsLength_le _ u
        · exact Nat.zero_le _
    rw [List.drop_append_of_le_length hle, bigMarkLength_before hb]

theorem decimalLength_before : decimalLength (u ++ b :: z) = decimalLength u := by
  unfold decimalLength
  dsimp only
  have hwhole := digitsLength_le isDigit u
  rw [digitsLength_before hb fun _ => isNameByte_of_isDigit]
  generalize digitsLength isDigit u = whole at hwhole ⊢
  rw [List.drop_append_of_le_length hwhole, head?_before hb (show isNumberByte (code '.') = true by decide)]
  obtain ⟨part, hpart, hpart', hle⟩ : ∃ part,
      (if (u.drop whole).head? == some (code '.') then
        if whole = 0 && digitsLength isDigit ((u.drop whole ++ b :: z).drop 1) = 0 then 0
        else digitsLength isDigit ((u.drop whole ++ b :: z).drop 1) + 1 else 0) = part ∧
      (if (u.drop whole).head? == some (code '.') then
        if whole = 0 && digitsLength isDigit ((u.drop whole).drop 1) = 0 then 0
        else digitsLength isDigit ((u.drop whole).drop 1) + 1 else 0) = part ∧ whole + part ≤ u.length := by
    have hlength := List.length_drop (i := whole) (l := u)
    generalize u.drop whole = rest at hlength ⊢
    by_cases hdot : rest.head? = some (code '.')
    · obtain ⟨more, rfl⟩ := List.head?_eq_some_iff.mp hdot
      have hplaces := digitsLength_le isDigit more
      have hsame : digitsLength isDigit (more ++ b :: z) = digitsLength isDigit more :=
        digitsLength_before hb fun _ => isNameByte_of_isDigit
      rw [List.length_cons] at hlength
      simp only [List.cons_append, List.drop_succ_cons, List.drop_zero, hsame]
      refine ⟨_, rfl, rfl, ?_⟩
      split
      · split <;> omega
      · omega
    · have hno : (rest.head? == some (code '.')) = false := by simpa using hdot
      rw [hno]
      exact ⟨0, rfl, rfl, hwhole⟩
  rw [hpart, hpart', List.drop_append_of_le_length hle, exponentLength_before hb, bigMarkLength_before hb]

theorem numberLength_before : numberLength (u ++ b :: z) = numberLength u := by
  have hfirst : ((u ++ b :: z).head?.any fun a => isDigit a || a == code '.') =
      u.head?.any fun a => isDigit a || a == code '.' := by
    rcases u with _ | ⟨a, u⟩
    · have hdot : b ≠ code '.' := ne_of_isNumberByte hb (by decide)
      have hdigit : isDigit b = false := by
        refine Bool.eq_false_iff.mpr fun hdigit => ?_
        rw [isNumberByte, isNameByte_of_isDigit hdigit] at hb
        cases hb
      simp [hdot, hdigit]
    · rfl
  unfold numberLength
  rw [hfirst, basedNumberLength_before hb, decimalLength_before hb]

end Before

/-- A number is settled by a byte that cannot stand in one. -/
theorem numberLength_append (h : t.all isNumberByte = false) : numberLength (t ++ z) = numberLength t := by
  obtain ⟨b, hmem, hb⟩ := List.all_eq_false.mp h
  obtain ⟨u, v, rfl⟩ := List.append_of_mem hmem
  have hb : isNumberByte b = false := by simpa using hb
  rw [List.append_assoc, List.cons_append, numberLength_before hb, numberLength_before hb]

theorem head?_append (h : t ≠ []) : (t ++ z).head? = t.head? := by
  obtain ⟨a, t, rfl⟩ := List.exists_cons_of_ne_nil h
  rfl

/-! ### Texts with a closing mark, templates and markup -/

theorem takeWhile_append {p : UInt8 → Bool} (h : (t.takeWhile p).length < t.length) :
    (t ++ z).takeWhile p = t.takeWhile p := by
  rw [List.takeWhile_append, if_neg (Nat.ne_of_lt h)]

/-- A text that was closed is closed whatever follows. -/
theorem quotedLength?_followed (h : quotedLength? t = some n) : quotedLength? (t ++ z) = some n := by
  have hlength : (t.take n).length = n := List.length_take_of_le (quotedLength?_le h)
  have hclosed : quotedLength? (t.take n ++ t.drop n) = some (t.take n).length := by
    rw [List.take_append_drop, hlength]
    exact h
  have hmore := quotedLength?_append hclosed (y := t.drop n ++ z)
  rwa [← List.append_assoc, List.take_append_drop, hlength] at hmore

theorem regexClosingLength?_append {s : RegexState} (h : regexClosingLength? s t = some n) :
    regexClosingLength? s (t ++ z) = some n := by
  induction t generalizing s n with
  | nil => cases s <;> cases h
  | cons a t ih =>
    have hstep : ∀ s', (· + 1) <$> regexClosingLength? s' t = some n →
        (· + 1) <$> regexClosingLength? s' (t ++ z) = some n := by
      intro s' h
      obtain ⟨m, hm, rfl⟩ := Option.map_eq_some_iff.mp h
      rw [ih hm]
      rfl
    rw [List.cons_append]
    cases s with
    | kept inside =>
      simp only [regexClosingLength?] at h ⊢
      split_ifs at h ⊢
      · exact hstep _ h
      · exact hstep _ h
    | plain =>
      simp only [regexClosingLength?] at h ⊢
      split_ifs at h ⊢
      · exact h
      · exact hstep _ h
      · exact hstep _ h
      · exact hstep _ h
    | listed =>
      simp only [regexClosingLength?] at h ⊢
      split_ifs at h ⊢
      · exact hstep _ h
      · exact hstep _ h
      · exact hstep _ h

theorem regexLength?_append (h : regexLength? t = some n) (hn : n < t.length) : regexLength? (t ++ z) = some n := by
  rcases t with _ | ⟨a, t⟩
  · cases h
  rw [List.cons_append]
  unfold regexLength? at h ⊢
  dsimp only at h ⊢
  split
  case isFalse ha =>
    rw [if_neg ha] at h
    cases h
  case isTrue ha =>
    rw [if_pos ha] at h
    obtain ⟨k, hk, heq⟩ := Option.bind_eq_some_iff.mp h
    obtain rfl := Option.some.inj heq
    have hle := regexClosingLength?_le hk
    have hflags : ((t.drop k).takeWhile fun b => code 'a' ≤ b && b ≤ code 'z').length < (t.drop k).length := by
      rw [List.length_drop]
      rw [List.length_cons] at hn
      omega
    rw [regexClosingLength?_append hk, Option.bind_eq_bind, Option.bind_some, List.drop_append_of_le_length hle,
      takeWhile_append hflags]
    rfl

theorem templateTextLength_append {kept : Bool} (h : templateTextLength kept t < t.length) :
    templateTextLength kept (t ++ z) = templateTextLength kept t := by
  induction t generalizing kept with
  | nil => cases h
  | cons a t ih =>
    rw [List.length_cons] at h
    rw [List.cons_append]
    cases kept with
    | true => exact congrArg (· + 1) (ih (Nat.lt_of_succ_lt_succ h))
    | false =>
      by_cases hclose : (a == code '\x60') = true
      · simp only [templateTextLength, if_pos hclose]
      -- The mark of an expression in the template is within the text.
      have hne : t ≠ [] := by
        rintro rfl
        simp [templateTextLength, hclose] at h
      unfold templateTextLength at h ⊢
      rw [if_neg hclose] at h ⊢
      rw [if_neg hclose, head?_append hne]
      split_ifs at h ⊢
      · rfl
      · exact congrArg (· + 1) (ih (Nat.lt_of_succ_lt_succ h))

theorem markupQuotedLength?_append (h : markupQuotedLength? t = some n) : markupQuotedLength? (t ++ z) = some n := by
  rcases t with _ | ⟨a, t⟩
  · cases h
  rw [List.cons_append]
  unfold markupQuotedLength? at h ⊢
  dsimp only at h ⊢
  split
  case isFalse hquote =>
    rw [if_neg hquote] at h
    cases h
  case isTrue hquote =>
    rw [if_pos hquote] at h
    have hclosed : (t.takeWhile (· != a)).length < t.length := by
      refine Decidable.byContradiction fun hopen => ?_
      rw [List.drop_eq_nil_of_le (Nat.le_of_not_lt hopen)] at h
      cases h
    have hne : ¬ (t.drop (t.takeWhile (· != a)).length ++ z).isEmpty = true := by
      rw [List.isEmpty_iff, List.append_eq_nil_iff, List.drop_eq_nil_iff]
      omega
    rw [takeWhile_append hclosed, List.drop_append_of_le_length (Nat.le_of_lt hclosed), if_neg hne]
    split at h
    · cases h
    · exact h

theorem not_isQuoted_append (ht : t ≠ []) (h : isQuoted t = false) : isQuoted (t ++ z) = false := by
  unfold isQuoted at h ⊢
  rwa [head?_append ht]

theorem quotedLength?_of_not_isQuoted (h : isQuoted t = false) : quotedLength? t = none := by
  rcases t with _ | ⟨a, t⟩
  · rfl
  · exact if_neg (Bool.eq_false_iff.mp h)

theorem markupQuotedLength?_of_not_isQuoted (h : isQuoted t = false) : markupQuotedLength? t = none := by
  rcases t with _ | ⟨a, t⟩
  · rfl
  · exact if_neg (Bool.eq_false_iff.mp h)

theorem regexLength?_of_first (h : t.head? ≠ some (code '/')) : regexLength? t = none := by
  rcases t with _ | ⟨a, t⟩
  · rfl
  · exact if_neg fun ha => h (by rw [eq_of_beq ha, List.head?_cons])

theorem markupNameLength_append (h : EndsAscii t) (hname : settlesName t = true) (hlt : markupNameLength t < t.length) :
    markupNameLength (t ++ z) = markupNameLength t := by
  unfold markupNameLength at hlt ⊢
  rw [nameLength_append h hname]
  have hle := nameLength_le false t
  cases hn : nameLength false t with
  | zero => rfl
  | succ n =>
    rw [hn] at hle hlt
    dsimp only at hlt ⊢
    have hmore : ((t.drop (n + 1)).takeWhile fun b => b == code '-' || isNameByte b).length <
        (t.drop (n + 1)).length := by
      rw [List.length_drop]
      omega
    rw [List.drop_append_of_le_length hle, takeWhile_append hmore]

/-! ### Lexemes -/

namespace Lexeme

/-- Whether a text that is not empty tells how long a lexeme of a class at its beginning is, or that there is none,
whatever follows. -/
def isSettled (l : Lexeme) (t : Bytes) : Bool :=
  match l with
  | exactly s => s.isPrefixOf t || !t.isPrefixOf s
  | word s => if s.isPrefixOf t then settlesName (t.drop s.length) else !t.isPrefixOf s
  | name _ => settlesName t
  | privateName => t.head? != some (code '#') || settlesName (t.drop 1)
  | number => !t.all isNumberByte
  | quoted => !isQuoted t || (quotedLength? t).isSome
  | regex => t.head? != some (code '/') || (regexLength? t).any (· < t.length)
  | templateText => templateTextLength false t < t.length
  | markupText => markupTextLength t < t.length
  | markupName => settlesName t && markupNameLength t < t.length
  | markupQuoted => !isQuoted t || (markupQuotedLength? t).isSome
  | line => (t.takeWhile (· != Bytes.newline)).length < t.length

theorem isPrefixOf_append {s : Bytes} (h : (s.isPrefixOf t || !t.isPrefixOf s) = true) :
    s.isPrefixOf (t ++ z) = s.isPrefixOf t := by
  rw [Bool.eq_iff_iff, List.isPrefixOf_iff_prefix, List.isPrefixOf_iff_prefix]
  refine ⟨fun hs => ?_, fun hs => hs.trans (List.prefix_append t z)⟩
  rcases Bool.or_eq_true_iff.mp h with h | h
  · exact List.isPrefixOf_iff_prefix.mp h
  · refine (List.prefix_or_prefix_of_prefix hs (List.prefix_append t z)).resolve_right fun ht => ?_
    rw [List.isPrefixOf_iff_prefix.mpr ht] at h
    cases h

theorem nameLength?_append {reserved : List Bytes} (h : EndsAscii t) (hname : settlesName t = true) :
    nameLength? reserved (t ++ z) = nameLength? reserved t := by
  have hne : t ≠ [] := by
    rintro rfl
    cases hname
  unfold nameLength?
  dsimp only
  rw [nameLength_append h hname, head?_append hne, List.take_append_of_le_length (nameLength_le false t)]

/-- A lexeme is settled where its class says so. -/
theorem length?_append {l : Lexeme} (h : EndsAscii t) (ht : t ≠ []) (hl : l.isSettled t = true) :
    l.length? (t ++ z) = l.length? t := by
  have hhead : (t ++ z).head? = t.head? := head?_append ht
  cases l with
  | exactly s =>
    unfold length?
    dsimp only
    rw [isPrefixOf_append hl]
  | word s =>
    have hstands : (s.isPrefixOf t || !t.isPrefixOf s) = true := by
      unfold isSettled at hl
      dsimp only at hl
      split at hl
      · rename_i hs
        rw [hs]
        rfl
      · rw [hl, Bool.or_true]
    unfold length?
    dsimp only
    rw [isPrefixOf_append hstands]
    cases hs : s.isPrefixOf t with
    | false => rfl
    | true =>
      have hle := (List.isPrefixOf_iff_prefix.mp hs).length_le
      have hword : settlesName (t.drop s.length) = true := by
        unfold isSettled at hl
        dsimp only at hl
        rwa [if_pos hs] at hl
      rw [List.drop_append_of_le_length hle, nameLength_append (h.suffix (List.drop_suffix ..)) hword]
  | name reserved => exact nameLength?_append h hl
  | privateName =>
    unfold length?
    dsimp only
    rw [hhead]
    split
    · rename_i hmark
      have hname : settlesName (t.drop 1) = true := by
        unfold isSettled at hl
        dsimp only at hl
        rw [bne, hmark] at hl
        exact hl
      have hone : 1 ≤ t.length := List.length_pos_iff.mpr ht
      rw [List.drop_append_of_le_length hone, nameLength?_append (h.suffix (List.drop_suffix ..)) hname]
    · rfl
  | number =>
    have hbyte : t.all isNumberByte = false := by simpa [isSettled] using hl
    unfold length?
    dsimp only
    rw [numberLength_append hbyte]
  | quoted =>
    change quotedLength? (t ++ z) = quotedLength? t
    cases hlength : quotedLength? t with
    | some n => exact quotedLength?_followed hlength
    | none =>
      have hplain : isQuoted t = false := by simpa [isSettled, hlength] using hl
      exact quotedLength?_of_not_isQuoted (not_isQuoted_append ht hplain)
  | regex =>
    change regexLength? (t ++ z) = regexLength? t
    by_cases hslash : t.head? = some (code '/')
    · cases hlength : regexLength? t with
      | some n => exact regexLength?_append hlength (by simpa [isSettled, hslash, hlength] using hl)
      | none => simp [isSettled, hslash, hlength] at hl
    · rw [regexLength?_of_first hslash, regexLength?_of_first (hhead ▸ hslash)]
  | templateText =>
    unfold length?
    dsimp only
    rw [templateTextLength_append (of_decide_eq_true hl)]
  | markupText =>
    unfold length? markupTextLength
    dsimp only
    rw [takeWhile_append (of_decide_eq_true hl)]
  | markupName =>
    obtain ⟨hname, hlt⟩ := Bool.and_eq_true_iff.mp hl
    unfold length?
    dsimp only
    rw [markupNameLength_append h hname (of_decide_eq_true hlt)]
  | markupQuoted =>
    change markupQuotedLength? (t ++ z) = markupQuotedLength? t
    cases hlength : markupQuotedLength? t with
    | some n => exact markupQuotedLength?_append hlength
    | none =>
      have hplain : isQuoted t = false := by simpa [isSettled, hlength] using hl
      exact markupQuotedLength?_of_not_isQuoted (not_isQuoted_append ht hplain)
  | line =>
    unfold length?
    dsimp only
    rw [takeWhile_append (of_decide_eq_true hl)]

end Lexeme

end Codemod.Syntax
