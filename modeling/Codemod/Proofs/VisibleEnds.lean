import Codemod.Proofs.TopLevel
import Codemod.Proofs.Words

/-!
# Where statements end

A statement ends with a lexeme, or with a comment before the place where its semicolon is left out. Of all lexemes only
the parts of templates and of markup end with a blank, and they are closed by a mark. So every statement ends on a line
that is not blank, unless the text itself ends in the middle of a name.

Main statements:

* `Lexeme.length?_firm` says which lexemes end with a visible byte or with the text;
* `Pattern.run_leaves` says so of everything that is read by a pattern;
* `Grammar.lineVisible_of_run` says so of statements.
-/

namespace Codemod.Syntax

variable {t : Bytes} {n m : Nat} {a : UInt8}

/-! ### Visible bytes -/

/-- Whether so many bytes of a text are visible. -/
def Clear (t : Bytes) (n : Nat) : Prop :=
  n ≤ t.length ∧ ∀ b ∈ t.take n, Bytes.isBlank b = false

/-- Whether so many bytes of a text are all of it or end with a visible one. -/
def EndsFirm (t : Bytes) (n : Nat) : Prop :=
  n = t.length ∨ ∃ k b, n = k + 1 ∧ t[k]? = some b ∧ Bytes.isBlank b = false

theorem Clear.zero (t : Bytes) : Clear t 0 :=
  ⟨Nat.zero_le _, fun _ h => absurd h List.not_mem_nil⟩

theorem Clear.one (h : t.head? = some a) (ha : Bytes.isBlank a = false) : Clear t 1 := by
  obtain ⟨rest, rfl⟩ := List.head?_eq_some_iff.mp h
  refine ⟨by simp, fun b hb => ?_⟩
  obtain rfl : b = a := by simpa using hb
  exact ha

theorem Clear.add (h : Clear t n) (h' : Clear (t.drop n) m) : Clear t (n + m) := by
  obtain ⟨hle, hall⟩ := h
  obtain ⟨hle', hall'⟩ := h'
  rw [List.length_drop] at hle'
  refine ⟨by omega, ?_⟩
  rw [List.take_add]
  exact List.forall_mem_append.mpr ⟨hall, hall'⟩

theorem Clear.takeWhile {p : UInt8 → Bool} (hp : ∀ b, p b = true → Bytes.isBlank b = false) (t : Bytes) :
    Clear t (t.takeWhile p).length := by
  refine ⟨length_takeWhile_le p t, fun b hb => hp b ?_⟩
  rw [← List.prefix_iff_eq_take.mp (List.takeWhile_prefix p)] at hb
  exact SourceFile.mem_takeWhile hb

theorem Clear.firm (h : Clear t n) (hn : 0 < n) : EndsFirm t n := by
  obtain ⟨k, rfl⟩ := Nat.exists_eq_succ_of_ne_zero (Nat.ne_of_gt hn)
  have hget := List.getElem?_eq_getElem (Nat.lt_of_succ_le h.1)
  refine .inr ⟨k, _, rfl, hget, h.2 _ ?_⟩
  rw [List.mem_take_iff_getElem]
  exact ⟨k, by have := h.1; omega, rfl⟩

theorem EndsFirm.cons (h : EndsFirm t n) : EndsFirm (a :: t) (n + 1) := by
  rcases h with rfl | ⟨k, b, rfl, hget, hb⟩
  · exact .inl rfl
  · exact .inr ⟨k + 1, b, rfl, hget, hb⟩

theorem EndsFirm.first (ha : Bytes.isBlank a = false) (t : Bytes) : EndsFirm (a :: t) 1 :=
  .inr ⟨0, a, rfl, rfl, ha⟩

/-- Visible bytes behind the end leave the end visible. -/
theorem EndsFirm.add (h : EndsFirm t n) (h' : Clear (t.drop n) m) : EndsFirm t (n + m) := by
  rcases Nat.eq_zero_or_pos m with rfl | hm
  · exact h
  rcases h'.firm hm with hall | ⟨k, b, rfl, hget, hb⟩
  · rw [List.length_drop] at hall
    exact .inl (by omega)
  · rw [List.getElem?_drop] at hget
    exact .inr ⟨n + k, b, rfl, hget, hb⟩

theorem isBlank_of_beyond (ha : ¬ a < 0x80) : Bytes.isBlank a = false := by
  refine Bool.eq_false_iff.mpr fun hblank => ha ?_
  simp only [Bytes.isBlank, Bool.or_eq_true, Bool.and_eq_true, beq_iff_eq, decide_eq_true_eq] at hblank
  rcases hblank with rfl | ⟨-, hle⟩
  · decide
  · exact UInt8.lt_of_le_of_lt hle (by decide)

/-! ### Names -/

/-- A name ends with a visible byte. Only a number between braces that is not closed takes blanks with it, and the
whole text. -/
theorem nameLength_firm (numbered : Bool) (t : Bytes) (h : 0 < nameLength numbered t) :
    EndsFirm t (nameLength numbered t) := by
  -- One byte more leaves the end as it is, and may be the end itself.
  have hstep : ∀ {a rest numbered}, Bytes.isBlank a = false →
      (0 < nameLength numbered rest → EndsFirm rest (nameLength numbered rest)) →
      EndsFirm (a :: rest) (nameLength numbered rest + 1) := by
    intro a rest numbered ha ih
    rcases Nat.eq_zero_or_pos (nameLength numbered rest) with hzero | hpos
    · rw [hzero]
      exact .first ha rest
    · exact (ih hpos).cons
  fun_induction nameLength numbered t with
  | case2 a rest ha ih =>
    obtain rfl : a = code '\x7d' := by simpa using ha
    exact hstep rfl ih
  | case3 a rest ha ih =>
    rcases rest with _ | ⟨b, rest⟩
    · exact .inl rfl
    · exact (ih (by rw [nameLength_numbered]; omega)).cons
  | case4 a rest ha hname ih =>
    refine hstep (Bool.eq_false_iff.mpr fun hblank => ?_) ih
    rw [isNameByte_of_isBlank hblank] at hname
    cases hname
  | case6 a ha hname hmark b more hu hbrace ih =>
    rcases more with _ | ⟨c, more⟩
    · cases hbrace
    · exact (ih (by rw [nameLength_numbered]; omega)).cons.cons
  | case7 a ha hname hmark b more hu hbrace ih =>
    obtain rfl : b = code 'u' := by simpa using hu
    exact (hstep rfl ih).cons
  | case10 a rest ha hblank ih => exact hstep (isBlank_of_beyond ha) ih
  | case1 | case5 | case8 | case9 | case11 => exact absurd h (Nat.lt_irrefl 0)

/-! ### Numbers -/

theorem visible_of_isNameByte (h : isNameByte a = true) : Bytes.isBlank a = false :=
  Bool.eq_false_iff.mpr fun hblank => by
    rw [isNameByte_of_isBlank hblank] at h
    cases h

theorem isNameByte_of_isDigit (h : isDigit a = true) : isNameByte a = true := by
  unfold isNameByte
  rw [h]
  rfl

theorem isNameByte_of_isHexDigit (h : isHexDigit a = true) : isNameByte a = true := by
  unfold isHexDigit at h
  simp only [Bool.or_eq_true, Bool.and_eq_true, decide_eq_true_eq] at h
  rcases h with (h | ⟨hlo, hhi⟩) | ⟨hlo, hhi⟩
  · exact isNameByte_of_isDigit h
  · have hz : a ≤ code 'z' := UInt8.le_trans hhi (by decide)
    simp [isNameByte, hlo, hz]
  · have hz : a ≤ code 'Z' := UInt8.le_trans hhi (by decide)
    simp [isNameByte, hlo, hz]

theorem digitsLength_clear {digit : UInt8 → Bool} (hdigit : ∀ b, digit b = true → isNameByte b = true) (t : Bytes) :
    Clear t (digitsLength digit t) :=
  .takeWhile (fun b hb => visible_of_isNameByte <| (Bool.or_eq_true_iff.mp hb).elim (hdigit b) fun hmark => by
    obtain rfl := beq_iff_eq.mp hmark
    rfl) t

theorem bigMarkLength_clear (t : Bytes) : Clear t (bigMarkLength t) := by
  unfold bigMarkLength
  split
  · rename_i h
    exact .one (beq_iff_eq.mp h) rfl
  · exact .zero t

theorem exponentLength_clear (t : Bytes) : Clear t (exponentLength t) := by
  unfold exponentLength
  split
  · rename_i a rest
    split
    · rename_i ha
      have hfirst : Bytes.isBlank a = false := by
        simp only [Bool.or_eq_true, beq_iff_eq] at ha
        rcases ha with rfl | rfl <;> rfl
      dsimp only
      generalize hsign :
        (if rest.head? == some (code '+') || rest.head? == some (code '-') then 1 else 0) = sign
      have hclear : Clear rest sign := by
        subst hsign
        split
        · rename_i h
          simp only [Bool.or_eq_true, beq_iff_eq] at h
          exact h.elim (fun h => .one h rfl) fun h => .one h rfl
        · exact .zero rest
      have hdigits := digitsLength_clear (fun _ => isNameByte_of_isDigit) (rest.drop sign)
      split
      · exact .zero _
      · rename_i n hn
        rw [hn] at hdigits
        have hall := Clear.add (t := a :: rest) (n := 1) (.one rfl hfirst) (hclear.add hdigits)
        rwa [show 1 + (sign + (n + 1)) = n + 2 + sign by omega] at hall
    · exact .zero _
  · exact .zero _

/-- Only one of an exponent and the mark of a big integer stands in one place. -/
theorem exponentLength_add_bigMarkLength_clear (t : Bytes) : Clear t (exponentLength t + bigMarkLength t) := by
  by_cases h : t.head? = some (code 'n')
  · have hnone : exponentLength t = 0 := by
      obtain ⟨rest, rfl⟩ := List.head?_eq_some_iff.mp h
      rfl
    rw [hnone, Nat.zero_add]
    exact bigMarkLength_clear t
  · have hnone : bigMarkLength t = 0 := by simp [bigMarkLength, h]
    rw [hnone]
    exact exponentLength_clear t

theorem basedNumberLength_clear (t : Bytes) : Clear t (basedNumberLength t) := by
  unfold basedNumberLength
  split
  · rename_i a b rest
    split
    · exact .zero _
    · rename_i ha
      obtain rfl : a = code '0' := by simpa using ha
      dsimp only
      generalize hn : (if b == code 'x' || b == code 'X' then digitsLength isHexDigit rest
        else if b == code 'o' || b == code 'O' || b == code 'b' || b == code 'B' then
          digitsLength isDigit rest else 0) = n
      split
      · exact .zero _
      · rename_i hpos
        have hdigits : Bytes.isBlank b = false ∧ Clear rest n := by
          subst hn
          split at hpos
          · rename_i hb
            rw [if_pos hb]
            simp only [Bool.or_eq_true, beq_iff_eq] at hb
            exact ⟨by rcases hb with rfl | rfl <;> rfl, digitsLength_clear (fun _ => isNameByte_of_isHexDigit) rest⟩
          · rename_i hb
            rw [if_neg hb]
            split at hpos
            · rename_i hb'
              rw [if_pos hb']
              simp only [Bool.or_eq_true, beq_iff_eq] at hb'
              exact ⟨by rcases hb' with ((rfl | rfl) | rfl) | rfl <;> rfl,
                digitsLength_clear (fun _ => isNameByte_of_isDigit) rest⟩
            · exact absurd rfl hpos
        have hopening : Clear (code '0' :: b :: rest) (1 + 1) :=
          Clear.add (.one rfl rfl) (.one rfl hdigits.1)
        have hall := hopening.add (hdigits.2.add (bigMarkLength_clear _))
        rwa [show 1 + 1 + (n + bigMarkLength (rest.drop n)) = n + 2 + bigMarkLength (rest.drop n) by omega] at hall
  · exact .zero _

theorem decimalLength_clear (t : Bytes) : Clear t (decimalLength t) := by
  unfold decimalLength
  dsimp only
  have hwhole := digitsLength_clear (fun _ => isNameByte_of_isDigit) t
  generalize digitsLength isDigit t = whole at *
  generalize hpart : (if (t.drop whole).head? == some (code '.') then
    if whole = 0 && digitsLength isDigit ((t.drop whole).drop 1) = 0 then 0
    else digitsLength isDigit ((t.drop whole).drop 1) + 1 else 0) = part
  have hclear : Clear (t.drop whole) part := by
    subst hpart
    split
    · rename_i hdot
      split
      · exact .zero _
      · have hplaces := digitsLength_clear (fun _ => isNameByte_of_isDigit) ((t.drop whole).drop 1)
        rw [Nat.add_comm]
        exact Clear.add (.one (beq_iff_eq.mp hdot) rfl) hplaces
    · exact .zero _
  split
  · exact .zero t
  · rw [Nat.add_assoc]
    exact (hwhole.add hclear).add (exponentLength_add_bigMarkLength_clear _)

theorem numberLength_clear (t : Bytes) : Clear t (numberLength t) := by
  unfold numberLength
  split
  · have hbased := basedNumberLength_clear t
    split
    · exact decimalLength_clear t
    · rename_i n hn
      rwa [hn] at hbased
  · exact .zero t

/-! ### Other lexemes -/

theorem regexClosingLength?_ends {s : RegexState} (h : regexClosingLength? s t = some n) :
    ∃ k, n = k + 1 ∧ t[k]? = some (code '/') := by
  induction t generalizing s n with
  | nil => cases s <;> cases h
  | cons a rest ih =>
    have hstep : ∀ s', (· + 1) <$> regexClosingLength? s' rest = some n →
        ∃ k, n = k + 1 ∧ (a :: rest)[k]? = some (code '/') := by
      intro s' h
      obtain ⟨m, hm, rfl⟩ := Option.map_eq_some_iff.mp h
      obtain ⟨k, rfl, hk⟩ := ih hm
      exact ⟨k + 1, rfl, hk⟩
    unfold regexClosingLength? at h
    split at h
    · cases h
    · cases s with
      | kept inside => exact hstep _ h
      | plain =>
        dsimp only at h
        split at h
        · rename_i ha
          cases h
          exact ⟨0, rfl, congrArg some (beq_iff_eq.mp ha)⟩
        · split at h
          · exact hstep _ h
          · split at h <;> exact hstep _ h
      | listed =>
        dsimp only at h
        split at h
        · exact hstep _ h
        · split at h <;> exact hstep _ h

theorem regexLength?_firm (h : regexLength? t = some n) : EndsFirm t n := by
  unfold regexLength? at h
  split at h
  · rename_i a rest
    split at h
    · obtain ⟨m, hm, h⟩ := Option.bind_eq_some_iff.mp h
      cases h
      obtain ⟨k, rfl, hk⟩ := regexClosingLength?_ends hm
      have hclosed : EndsFirm (a :: rest) (k + 1 + 1) := EndsFirm.cons (.inr ⟨k, _, rfl, hk, rfl⟩)
      refine hclosed.add (Clear.takeWhile (fun b hb => visible_of_isNameByte ?_) _)
      simp [isNameByte, hb]
    · cases h
  · cases h

theorem markupNameLength_firm (h : 0 < markupNameLength t) : EndsFirm t (markupNameLength t) := by
  unfold markupNameLength at h ⊢
  split at h
  · cases h
  · rename_i n hn
    have hname := nameLength_firm false t (by omega)
    rw [hn] at hname
    refine hname.add (Clear.takeWhile (fun b hb => ?_) _)
    rcases Bool.or_eq_true_iff.mp hb with hb | hb
    · obtain rfl := beq_iff_eq.mp hb
      rfl
    · exact visible_of_isNameByte hb

theorem markupQuotedLength?_firm (h : markupQuotedLength? t = some n) : EndsFirm t n := by
  unfold markupQuotedLength? at h
  split at h
  · rename_i a rest
    split at h
    · rename_i ha
      dsimp only at h
      split at h
      · cases h
      · rename_i hclosed
        cases h
        have hmark : Bytes.isBlank a = false := by
          simp only [Bool.or_eq_true, beq_iff_eq] at ha
          rcases ha with rfl | rfl <;> rfl
        refine .inr ⟨(rest.takeWhile (· != a)).length + 1, a, rfl, ?_, hmark⟩
        -- The byte at which the text between the quotes ends is the quote.
        have hshort : (rest.takeWhile (· != a)).length < rest.length := by simpa using hclosed
        have hget := List.getElem?_eq_getElem hshort
        have hstop := (Bytes.getElem?_takeWhile (· != a) rest 0).2
        rw [List.drop_zero, Nat.zero_add] at hstop
        have heq := hstop _ hget
        rw [List.getElem?_cons_succ, hget]
        exact congrArg some (by simpa using heq)
    · cases h
  · cases h

namespace Lexeme

theorem nameLength?_firm {reserved : List Bytes} (h : nameLength? reserved t = some n) : EndsFirm t n := by
  unfold nameLength? at h
  split at h
  · cases h
  · dsimp only at h
    split at h
    · cases h
    · obtain ⟨rfl, hpos⟩ := nonzero_eq_some h
      exact nameLength_firm false t hpos

/-- Whether every lexeme of a class ends with a visible byte, unless the text ends with it. -/
def isFirm : Lexeme → Bool
  | exactly s | word s => (exactly s).endsVisible
  | templateText | markupText | line => false
  | _ => true

theorem length?_firm {l : Lexeme} (hl : l.isFirm = true) (h : l.length? t = some n) : EndsFirm t n := by
  cases l with
  | exactly s => exact .inr (length?_endsVisible (l := exactly s) hl h)
  | word s => exact .inr (length?_endsVisible (l := word s) hl h)
  | quoted => exact .inr (length?_endsVisible rfl h)
  | name reserved => exact nameLength?_firm h
  | privateName =>
    simp only [length?] at h
    split at h
    · rename_i hmark
      obtain ⟨m, hm, rfl⟩ := Option.map_eq_some_iff.mp h
      obtain ⟨rest, rfl⟩ := List.head?_eq_some_iff.mp (beq_iff_eq.mp hmark)
      exact (nameLength?_firm hm).cons
    · cases h
  | number =>
    obtain ⟨rfl, hpos⟩ := nonzero_eq_some h
    exact (numberLength_clear t).firm hpos
  | regex => exact regexLength?_firm h
  | markupName =>
    obtain ⟨rfl, hpos⟩ := nonzero_eq_some h
    exact markupNameLength_firm hpos
  | markupQuoted => exact markupQuotedLength?_firm h
  | templateText | markupText | line => cases hl

end Lexeme

/-! ### Readings -/

namespace Reading

variable {source : Bytes} {s s' s'' : Reading} {l : Lexeme} {k : Kind}

theorem Onward.reached (h : s.Onward s') (hs : Reached source s.offset s.rest) :
    Reached source s'.offset s'.rest := by
  obtain ⟨v, hv⟩ := h.rest
  have htotal := h.total
  have hlength : v.length + s'.rest.length = s.rest.length := by rw [← List.length_append, hv]
  have hreached := hs.drop (n := v.length) (by omega)
  rwa [← hv, List.drop_left, show s.offset + v.length = s'.offset by omega] at hreached

/-- Whether a reading stands where another one did, at the end of the text, or on a line that is not blank. -/
def Leaves (source : Bytes) (s s' : Reading) : Prop :=
  s'.offset = s.offset ∨ s'.rest = [] ∨ source.LineVisible s'.offset

theorem Leaves.trans (h : Leaves source s s') (h' : Leaves source s' s'') (hon : s'.Onward s'') :
    Leaves source s s'' := by
  rcases h' with hsame | hfirm
  · unfold Leaves
    rw [hsame]
    refine h.imp_right fun h => h.imp_left fun hnil => ?_
    exact List.suffix_nil.mp (hnil ▸ hon.rest)
  · exact .inr hfirm

/-- Where something was read, only the end of the text and a line that is not blank are left. -/
theorem Leaves.of_shorter (h : Leaves source s s') (hon : s.Onward s') (hlt : s'.rest.length < s.rest.length) :
    s'.rest = [] ∨ source.LineVisible s'.offset := by
  refine h.resolve_left fun hsame => ?_
  rw [hon.offset_eq_iff] at hsame
  omega

theorem take_firm (hs : Reached source s.offset s.rest) (hl : l.isFirm = true) (h : s.take l k = some s') :
    s'.rest = [] ∨ source.LineVisible s'.offset := by
  unfold take at h
  split at h
  · cases h
  · rename_i n hn
    cases h
    rcases Lexeme.length?_firm hl hn with rfl | ⟨i, b, rfl, hget, hb⟩
    · exact .inl (List.drop_length ..)
    · exact .inr (.of_last ((hs.getElem? i).trans hget) hb)

/-- The rest of a line has its first byte on the line. -/
theorem take_line (hs : Reached source s.offset s.rest) (hvisible : source.VisibleAt s.offset)
    (h : s.take .line k = some s') (hlt : s'.rest.length < s.rest.length) : source.LineVisible s'.offset := by
  cases h
  obtain ⟨a, rest, hrest⟩ := List.exists_cons_of_length_pos (show 0 < s.rest.length by omega)
  have hfirst : source[s.offset]? = some a := by
    rw [← Nat.add_zero s.offset, hs.getElem? 0, hrest]
    rfl
  have hline := (Bytes.getElem?_takeWhile (· != Bytes.newline) source s.offset).1
  rw [← hs.rest] at hline
  simp only [List.length_drop] at hlt
  refine ⟨s.offset, a, ?_, hfirst, hvisible a hfirst, fun i hi hlt => ?_⟩
  · change s.offset < s.offset + _
    omega
  · obtain ⟨c, hc, hget⟩ := hline i hi hlt
    rw [hget]
    have hne := SourceFile.mem_takeWhile hc
    rintro heq
    obtain rfl := Option.some.inj heq
    cases hne

end Reading

/-- A statement without a semicolon ends where its last lexeme does or with a comment. -/
theorem statementEnd?_leaves {source : Bytes} {lo fuel : Nat} {e : Ending} {before after : Trivia}
    (h : statementEnd? e fuel before = some after) (hbefore : before.Sound source lo) :
    after.offset = before.offset ∨ source.LineVisible after.offset := by
  cases fuel with
  | zero => cases h
  | succ fuel =>
    unfold statementEnd? at h
    split at h
    · cases h
      exact .inl rfl
    · dsimp only at h
      obtain ⟨k, hk, hnext⟩ := dropBlanks_eq_drop blankLength 0 before.rest
      rw [hnext] at h
      split at h
      · cases h
      · rename_i m hm
        obtain ⟨hlength, hline⟩ := commentLength?_bounds hm
        have hreached := hbefore.reached.drop hk
        have hskipped : before.rest.length - (before.rest.drop k).length = k := by
          rw [List.length_drop]
          omega
        rw [hreached.rest] at hline
        rw [hskipped] at h
        have hsound : Trivia.Sound source lo ⟨(before.offset + k, before.offset + k + m) :: before.comments,
            before.offset + k + m, (before.rest.drop k).drop m⟩ :=
          ⟨hreached.drop hlength, (hbefore.comments.mono (Nat.le_add_right _ _)).cons
            (Nat.le_add_right _ _) hline.of_drop⟩
        exact .inr ((statementEnd?_sound h hsound).2 hline.of_drop)

/-! ### Patterns -/

namespace Pattern

open Reading

variable {ρ : Type} {rules : ρ → Pattern ρ} {fuel : Nat} {around : Surroundings} {p q : Pattern ρ} {s s' : Reading}
  {source : Bytes}

/-- Whether a pattern, where it reads something, ends with the text or on a line that is not blank, if all rules
do. -/
def leaves : Pattern ρ → Bool
  | token l _ | glued l _ => l.isFirm
  | both p q => q.leaves && (q.consumes || p.leaves) || p.looksAhead && q.readsLine fun _ => true
  | either p q => p.leaves && q.leaves
  | many p | inside _ p => p.leaves
  | node _ p | group _ p | part _ p => p.consumes && p.leaves
  | nothing | never | rule _ | ahead _ | absent _ | ending _ | amid _ | finish => true
  | blanks => false

theorem run_leaves (hconsumes : ∀ r, (rules r).consumes = true) (hrules : ∀ r, (rules r).leaves = true)
    (hp : p.leaves = true) (hs : Reached source s.offset s.rest) (h : run rules fuel around p s = some s') :
    Leaves source s s' := by
  induction fuel generalizing around p s s' with
  | zero => cases h
  | succ fuel ih =>
    -- What stands in a node is not empty, so that the node ends where its parts do.
    have hinner : ∀ {p : Pattern ρ} {done : Reading}, (p.consumes && p.leaves) = true →
        run rules fuel around p s.skip.inner = some done → done.rest = [] ∨ source.LineVisible done.offset := by
      intro p done hp hdone
      obtain ⟨hmore, hp⟩ := Bool.and_eq_true_iff.mp hp
      have hleaves := ih (s := s.skip.inner) hp ((onward_skip s).reached hs) hdone
      exact hleaves.of_shorter (run_onward hdone) (run_consumes hconsumes hmore hdone)
    have hstay : some s = some s' → Leaves source s s' := fun h => .inl (by rw [Option.some.inj h])
    cases p with
    | nothing => exact hstay h
    | never => cases h
    | token l k => exact .inr (take_firm ((onward_skip s).reached hs) hp h)
    | glued l k => exact .inr (take_firm hs hp h)
    | both p q =>
      rw [run_both] at h
      obtain ⟨middle, hrun, hrun'⟩ := Option.bind_eq_some_iff.mp h
      have hmiddle := (run_onward hrun).reached hs
      rcases Bool.or_eq_true_iff.mp hp with hp | hp
      · obtain ⟨hq, hp⟩ := Bool.and_eq_true_iff.mp hp
        have hleaves := ih hq hmiddle hrun'
        rcases Bool.or_eq_true_iff.mp hp with hmore | hp
        · exact .inr (hleaves.of_shorter (run_onward hrun') (run_consumes hconsumes hmore hrun'))
        · exact (ih hp hs hrun).trans hleaves (run_onward hrun')
      · obtain ⟨hp, hq⟩ := Bool.and_eq_true_iff.mp hp
        obtain ⟨k, -, htake, hlt⟩ := exists_line hp hq hrun hrun'
        exact .inr (.inr (take_line ((onward_skip s).reached hs) (trivia_visible hs) htake hlt))
    | either p q =>
      obtain ⟨hp, hq⟩ := Bool.and_eq_true_iff.mp hp
      rw [run_either] at h
      cases hrun : run rules fuel around p s with
      | none => rw [hrun] at h; exact ih hq hs h
      | some done => rw [hrun] at h; cases h; exact ih hp hs hrun
    | many p =>
      rw [run_many] at h
      split at h
      · exact hstay h
      · rename_i middle hrun
        have hleaves := ih (p := p) hp hs hrun
        split at h
        · cases h; exact hleaves
        · exact hleaves.trans (ih (p := many p) hp ((run_onward hrun).reached hs) h) (run_onward h)
    | node k p =>
      obtain ⟨done, hdone, rfl⟩ := Option.map_eq_some_iff.mp h
      have hend := hinner hp hdone
      exact .inr hend
    | group k p =>
      obtain ⟨done, hdone, rfl⟩ := Option.map_eq_some_iff.mp h
      refine .inr ?_
      rw [closeGroup_offset, closeGroup_rest]
      exact hinner hp hdone
    | part r p =>
      obtain ⟨done, hdone, rfl⟩ := Option.map_eq_some_iff.mp h
      have hend := hinner hp hdone
      exact .inr hend
    | rule r => exact ih (hrules r) hs h
    | ahead p =>
      obtain ⟨_, -, rfl⟩ := Option.map_eq_some_iff.mp h
      exact hstay rfl
    | absent p =>
      rw [run_absent] at h
      split at h
      · exact hstay h
      · cases h
    | ending e =>
      obtain ⟨t, ht, rfl⟩ := Option.map_eq_some_iff.mp h
      exact (statementEnd?_leaves ht ⟨hs, CommentsIn.nil _ _⟩).imp_right .inr
    | inside around' p => exact ih (p := p) hp hs h
    | amid around' =>
      change (if around = around' then some s else none) = some s' at h
      split at h
      · exact hstay h
      · cases h
    | blanks => cases hp
    | finish =>
      change (if s.rest.isEmpty then some s else none) = some s' at h
      split at h
      · exact hstay h
      · cases h

end Pattern

/-! ### Statements -/

namespace Grammar

variable {s s' : Reading} {source : Bytes}

theorem rules_leave (d : Dialect) (r : Rule) : (rules d r).leaves = true := by
  cases d <;> cases r <;> decide +kernel

theorem hashBang_leaves : hashBang.leaves = true := by
  decide +kernel

/-- What reads a statement or the first line ends with the text or on a line that is not blank. -/
theorem lineVisible_of_run {d : Dialect} {fuel : Nat} {around : Surroundings} {p : Phrase} {t : Tree}
    (hp : p.leaves = true) (hs : Reached source s.offset s.rest)
    (h : Pattern.run (rules d) fuel around p s = some s') (hadds : s.AddsNode t s') :
    s'.rest = [] ∨ source.LineVisible s'.offset := by
  refine (Pattern.run_leaves (rules_consume d) (rules_leave d) hp hs h).resolve_left fun hsame => ?_
  have hlt := hadds.start_lt
  have hskip := (Reading.onward_skip s).total
  have hle := (Reading.onward_skip s).length_le
  rw [hadds.start_eq, hadds.stop_eq] at hlt
  omega

end Grammar
end Codemod.Syntax
