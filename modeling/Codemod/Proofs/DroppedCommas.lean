import Codemod.Proofs.DocumentReading

/-!
# Commas before closing brackets

A comma that only blanks separate from a closing bracket is taken out of a text wherever it stands, in literals too. In
pieces this makes the bodies of literals shorter and takes out commas between them; in tokens it takes out the commas
before closing brackets. No tree has such a comma, but its literals can hold one.

Main statements:

* `dropTrailingCommas_written` and `Splits.dropped` say what is left of pieces;
* `tokens_thinned` says what is left of tokens;
* `Doc.exists_of_shortened` finds the tree before its literals became shorter;
* `Doc.exists_value?_shortened` says that both have values or none has.
-/

namespace Codemod.Json

/-! ### Commas between pieces -/

/-- Whether a closing bracket is the next token of pieces. -/
def closesBehind (ps : List Piece) : Bool :=
  match ps.dropWhile Piece.isGap with
  | .char c :: _ => isClosing c
  | _ => false

/-- Pieces without the commas behind which a bracket is found to close. -/
def thinned (closes : List Piece → Bool) : List Piece → List Piece
  | [] => []
  | p :: ps => if p = .char ',' ∧ closes ps = true then thinned closes ps else p :: thinned closes ps

/-- A piece whose body has lost such commas. -/
def Piece.shortened : Piece → Piece
  | literal body => literal (dropTrailingCommas body)
  | unclosedLiteral body => unclosedLiteral (dropTrailingCommas body)
  | p => p

/-- What is left of pieces without comments when the commas before closing brackets are taken out of their text. -/
def dropped (ps : List Piece) : List Piece :=
  (thinned (fun rest => closesNext (written rest)) ps).map Piece.shortened

section

variable {ps : List Piece} {p : Piece} {closes : List Piece → Bool}

theorem thinned_cons_of_ne (hp : p ≠ .char ',') : thinned closes (p :: ps) = p :: thinned closes ps := by
  simp [thinned, hp]

theorem dropped_cons_of_ne (hp : p ≠ .char ',') : dropped (p :: ps) = p.shortened :: dropped ps := by
  rw [dropped, thinned_cons_of_ne hp]
  rfl

theorem dropped_comma : dropped (.char ',' :: ps) =
    if closesNext (written ps) = true then dropped ps else .char ',' :: dropped ps := by
  simp only [dropped, thinned, true_and]
  split <;> rfl

theorem thinned_subset (closes : List Piece → Bool) (ps : List Piece) : thinned closes ps ⊆ ps := by
  induction ps with
  | nil => exact List.Subset.refl _
  | cons p ps ih =>
    unfold thinned
    split
    · exact List.subset_cons_of_subset p ih
    · exact List.cons_subset_cons p ih

theorem isComment_shortened (p : Piece) : p.shortened.isComment = p.isComment := by
  cases p <;> rfl

theorem plain_map_shortened (hplain : ∀ p ∈ ps, p.isComment = false) :
    ∀ p ∈ ps.map Piece.shortened, p.isComment = false := by
  intro p hp
  obtain ⟨q, hq, rfl⟩ := List.mem_map.mp hp
  rw [isComment_shortened, hplain q hq]

theorem plain_dropped (hplain : ∀ p ∈ ps, p.isComment = false) : ∀ p ∈ dropped ps, p.isComment = false :=
  plain_map_shortened fun p hp => hplain p (thinned_subset _ _ hp)

/-- Commas before closing brackets are taken out of a text as they are out of its pieces. -/
theorem dropTrailingCommas_written (hps : Splits ps) (hplain : ∀ p ∈ ps, p.isComment = false) :
    dropTrailingCommas (written ps) = written (dropped ps) := by
  induction ps with
  | nil => rfl
  | cons p ps ih =>
    obtain ⟨hfits, hps⟩ := hps
    obtain ⟨hp, hplain⟩ := List.forall_mem_cons.mp hplain
    have hrest := ih hps hplain
    cases p with
    | literal body =>
      have hbody : dropTrailingCommas (body ++ '"' :: written ps) =
          dropTrailingCommas body ++ '"' :: dropTrailingCommas (written ps) :=
        dropTrailingCommas_append_firm (by decide) (by decide)
      rw [dropped_cons_of_ne (p := .literal body) (by simp)]
      simp [Piece.text, Piece.shortened, dropTrailingCommas_cons_of_ne, hbody, hrest]
    | unclosedLiteral body =>
      obtain ⟨-, hnil⟩ := hfits
      rw [dropped_cons_of_ne (p := .unclosedLiteral body) (by simp), written_cons, written_cons, ← hrest, hnil]
      simp [Piece.text, Piece.shortened, dropTrailingCommas]
    | lineComment _ | blockComment _ | unclosedComment _ => cases hp
    | char c =>
      by_cases hc : c = ','
      · subst hc
        rw [dropped_comma, written_cons, Piece.text, List.singleton_append, dropTrailingCommas, hrest]
        simp only [beq_self_eq_true, Bool.true_and]
        split <;> rfl
      · rw [dropped_cons_of_ne (by simpa using hc), written_cons, Piece.text, List.singleton_append,
          dropTrailingCommas_cons_of_ne hc, hrest]
        rfl

/-! ### Their text falls into what is left -/

/-- What may stand between quotes may do so without such commas. -/
theorem Enclosed.dropped {cs : List Char} (h : Enclosed cs) : Enclosed (dropTrailingCommas cs) := by
  induction h with
  | nil => exact .nil
  | @plain c cs hquote hback _ ih =>
    unfold dropTrailingCommas
    split
    · exact ih
    · exact .plain hquote hback ih
  | @pair c cs hcs ih =>
    rw [dropTrailingCommas_cons_of_ne (by decide), dropTrailingCommas]
    split
    · -- The backslash takes what follows the comma, which is no backslash.
      rename_i hgoes
      obtain ⟨d, more, rfl, hd⟩ := exists_of_closesNext (Bool.and_eq_true_iff.mp hgoes).2
      rw [dropTrailingCommas_cons_of_ne (by rintro rfl; cases hd)] at ih ⊢
      generalize dropTrailingCommas more = left at ih ⊢
      cases ih with
      | plain _ _ hleft => exact .pair d hleft
      | pair _ _ => cases hd
    · exact .pair c ih

theorem Unclosed.dropped {cs : List Char} (h : Unclosed cs) : Unclosed (dropTrailingCommas cs) := by
  rcases h with h | ⟨most, hmost, rfl⟩
  · exact .inl h.dropped
  · refine .inr ⟨dropTrailingCommas most, hmost.dropped, ?_⟩
    exact dropTrailingCommas_append_firm (by decide) (by decide)

/-- A comma that goes stands before no mark of a comment. -/
theorem replaces_of_closesNext {cs rest : List Char} (h : closesNext cs = true) (hcs : Replaces rest cs) :
    Replaces rest (',' :: cs) := by
  obtain ⟨d, more, rfl, hd⟩ := exists_of_closesNext h
  refine ⟨nofun, fun c hc hmark => ?_⟩
  rcases hcs.head c hc hmark with hsame | hopens
  · obtain rfl := Option.some.inj hsame
    rcases hmark with rfl | rfl <;> cases hd
  · obtain rfl := Option.some.inj hopens
    cases hd

/-- The text of what is left falls into it. -/
theorem Splits.dropped (hps : Splits ps) (hplain : ∀ p ∈ ps, p.isComment = false) : Splits (dropped ps) := by
  suffices hboth : Splits (Json.dropped ps) ∧ Replaces (written (Json.dropped ps)) (written ps) from hboth.1
  -- The piece before fits only if what is left may stand in the place of the old text.
  induction ps with
  | nil => exact ⟨trivial, id, fun _ hc => by cases hc⟩
  | cons p ps ih =>
    obtain ⟨hfits, hps⟩ := hps
    obtain ⟨hp, hplain⟩ := List.forall_mem_cons.mp hplain
    obtain ⟨hrest, hreplaces⟩ := ih hps hplain
    have hfits := hfits.replaced hp hreplaces
    cases p with
    | literal body =>
      rw [dropped_cons_of_ne (p := .literal body) (by simp)]
      exact ⟨⟨Enclosed.dropped hfits, hrest⟩, nofun, fun c hc _ => .inl hc⟩
    | unclosedLiteral body =>
      rw [dropped_cons_of_ne (p := .unclosedLiteral body) (by simp)]
      exact ⟨⟨⟨hfits.1.dropped, hfits.2⟩, hrest⟩, nofun, fun c hc _ => .inl hc⟩
    | lineComment _ | blockComment _ | unclosedComment _ => cases hp
    | char c =>
      by_cases hc : c = ','
      · subst hc
        rw [dropped_comma]
        split
        · rename_i hcloses
          exact ⟨hrest, replaces_of_closesNext hcloses hreplaces⟩
        · exact ⟨⟨hfits, hrest⟩, .cons (.char ',') _ _⟩
      · rw [dropped_cons_of_ne (by simpa using hc)]
        exact ⟨⟨hfits, hrest⟩, .cons (.char c) _ _⟩

end

/-! ### Commas between tokens -/

/-- A token whose body has lost such commas. -/
def Token.shortened : Token → Token
  | literal body => literal (dropTrailingCommas body)
  | unclosedLiteral body => unclosedLiteral (dropTrailingCommas body)
  | t => t

/-- Whether a token is a closing bracket. -/
def Token.closes : Token → Bool
  | mark c => isClosing c
  | _ => false

/-- Tokens without the commas that stand before closing brackets. -/
def dropTokens : List Token → List Token
  | [] => []
  | t :: ts => if t = .mark ',' ∧ ts.head?.any Token.closes = true then dropTokens ts else t :: dropTokens ts

section

variable {ps : List Piece} {t : Token} {ts us : List Token}

theorem closesBehind_eq (ps : List Piece) : closesBehind ps = (tokens ps).head?.any Token.closes := by
  induction ps with
  | nil => rfl
  | cons p ps ih =>
    cases hgap : p.isGap with
    | true =>
      rw [tokens_gap hgap, ← ih]
      simp [closesBehind, hgap]
    | false =>
      cases p with
      | literal _ | unclosedLiteral _ => rfl
      | lineComment _ | blockComment _ | unclosedComment _ => cases hgap
      | char c =>
        have hfirst : closesBehind (.char c :: ps) = isClosing c := by simp [closesBehind, hgap]
        rw [hfirst]
        rcases Piece.cases_char c with hblank | hmark | hword
        · rw [hblank] at hgap
          cases hgap
        · rw [tokens_mark hmark]
          rfl
        · -- A word comes next, and no character of a word closes anything.
          obtain ⟨cs, ts, hts⟩ := exists_word_of_isWordChar ps hword
          rw [hts]
          refine Bool.eq_false_iff.mpr fun hclosing => ?_
          simp only [isClosing, Bool.or_eq_true, beq_iff_eq] at hclosing
          rcases hclosing with rfl | rfl <;> cases hword

/-- Behind a comma that goes no word begins. -/
theorem startsInWord_of_closesBehind (h : closesBehind ps = true) : startsInWord ps = false := by
  refine Bool.eq_false_iff.mpr fun hstarts => ?_
  obtain ⟨cs, ts, hts⟩ := exists_word_of_startsInWord hstarts
  rw [closesBehind_eq, hts] at h
  cases h

theorem thinned_comma : thinned closesBehind (.char ',' :: ps) =
    if closesBehind ps = true then thinned closesBehind ps else .char ',' :: thinned closesBehind ps := by
  simp [thinned]

theorem startsInWord_thinned (ps : List Piece) : startsInWord (thinned closesBehind ps) = startsInWord ps := by
  induction ps with
  | nil => rfl
  | cons p ps ih =>
    by_cases hp : p = .char ','
    · subst hp
      rw [thinned_comma]
      split
      · rename_i hcloses
        rw [ih, startsInWord_of_closesBehind hcloses]
        rfl
      · rfl
    · rw [thinned_cons_of_ne hp]
      rfl

theorem dropTokens_cons_of_ne (ht : t ≠ .mark ',') : dropTokens (t :: ts) = t :: dropTokens ts := by
  simp [dropTokens, ht]

theorem dropTokens_comma : dropTokens (.mark ',' :: ts) =
    if ts.head?.any Token.closes = true then dropTokens ts else .mark ',' :: dropTokens ts := by
  simp [dropTokens]

/-- Taking out commas between pieces takes them out between tokens. -/
theorem tokens_thinned (ps : List Piece) : tokens (thinned closesBehind ps) = dropTokens (tokens ps) := by
  induction ps with
  | nil => rfl
  | cons p ps ih =>
    by_cases hp : p = .char ','
    · subst hp
      rw [thinned_comma, tokens_mark rfl, dropTokens_comma, ← closesBehind_eq]
      split
      · exact ih
      · rw [tokens_mark rfl, ih]
    rw [thinned_cons_of_ne hp]
    cases p with
    | literal body | unclosedLiteral body =>
      simp only [tokens, ih]
      rw [dropTokens_cons_of_ne (by simp)]
    | lineComment _ | blockComment _ | unclosedComment _ => exact ih
    | char c =>
      rcases Piece.cases_char c with hgap | hmark | hword
      · rw [tokens_gap hgap, tokens_gap hgap, ih]
      · rw [tokens_mark hmark, tokens_mark hmark, ih, dropTokens_cons_of_ne (by simpa using hp)]
      · rw [tokens_inWord hword, tokens_inWord hword, ih, startsInWord_thinned]
        cases hstarts : startsInWord ps with
        | true =>
          obtain ⟨cs, ts, hts⟩ := exists_word_of_startsInWord hstarts
          rw [hts, dropTokens_cons_of_ne (by simp)]
          exact (dropTokens_cons_of_ne (by simp)).symm
        | false =>
          rw [extendWord_false, extendWord_false, dropTokens_cons_of_ne (by simp)]

/-- Where no comma stands before a closing bracket, none is taken out. -/
theorem dropTokens_eq_self (h : ts.IsChain Token.MayPrecede) : dropTokens ts = ts := by
  induction ts with
  | nil => rfl
  | cons t ts ih =>
    obtain ⟨hnext, hts⟩ := List.isChain_cons.mp h
    by_cases ht : t = .mark ','
    · subst ht
      -- In a tree a comma stands before what a value or a key begins with.
      have hstays : ¬ ts.head?.any Token.closes = true := fun hcloses => by
        obtain ⟨u, hu, hcloses⟩ := Option.any_eq_true .. |>.mp hcloses
        have hbegins := (hnext u hu).behind rfl
        cases u with
        | mark k =>
          simp only [Token.begins, Token.closes, isOpening, isClosing, Bool.or_eq_true, beq_iff_eq] at hbegins hcloses
          rcases hcloses with rfl | rfl <;> simp at hbegins
        | literal _ | unclosedLiteral _ | word _ => cases hcloses
      rw [dropTokens_comma, if_neg hstays, ih hts]
    · rw [dropTokens_cons_of_ne ht, ih hts]

theorem tokens_map_shortened (ps : List Piece) : tokens (ps.map Piece.shortened) = (tokens ps).map Token.shortened := by
  induction ps with
  | nil => rfl
  | cons p ps ih =>
    have hstarts : startsInWord (ps.map Piece.shortened) = startsInWord ps := by
      cases ps with
      | nil => rfl
      | cons q ps => cases q <;> rfl
    cases p with
    | literal _ | unclosedLiteral _ => exact congrArg (_ :: ·) ih
    | lineComment _ | blockComment _ | unclosedComment _ => exact ih
    | char c =>
      rw [List.map_cons, show (Piece.char c).shortened = .char c from rfl]
      rcases Piece.cases_char c with hgap | hmark | hword
      · rw [tokens_gap hgap, tokens_gap hgap, ih]
      · rw [tokens_mark hmark, tokens_mark hmark, ih]
        rfl
      · rw [tokens_inWord hword, tokens_inWord hword, ih, hstarts]
        cases hstarts : startsInWord ps with
        | true =>
          obtain ⟨cs, ts, hts⟩ := exists_word_of_startsInWord hstarts
          rw [hts]
          rfl
        | false =>
          rw [extendWord_false, extendWord_false]
          rfl

end

/-! ### Blanks of other kinds -/

/-- Whether all blanks between literals are such as may stand between tokens. -/
def PlainBlanks (ps : List Piece) : Prop :=
  ∀ c, Piece.char c ∈ ps → isWideBlank c = true → isBlank c = true

section

variable {ps : List Piece} {c : Char}

theorem isWideBlank_of_isBlank (h : isBlank c = true) : isWideBlank c = true := by
  simp only [isBlank, Bool.or_eq_true, beq_iff_eq] at h
  rcases h with ((rfl | rfl) | rfl) | rfl <;> decide

/-- No character of a value is a blank of any kind. -/
theorem isWideBlank_of_isScalarChar (h : isScalarChar c = true) : isWideBlank c = false := by
  have hbounds : 48 ≤ c.toNat ∧ c.toNat ≤ 57 ∨ 97 ≤ c.toNat ∧ c.toNat ≤ 122 ∨ 65 ≤ c.toNat ∧ c.toNat ≤ 90 ∨
      c.toNat = 46 ∨ c.toNat = 43 ∨ c.toNat = 45 := by
    simp only [isScalarChar, isDigit, Bool.or_eq_true, Bool.and_eq_true, decide_eq_true_eq, beq_iff_eq, Char.le_def,
      UInt32.le_iff_toNat_le] at h
    rcases h with ((((h | h) | h) | rfl) | rfl) | rfl
    · exact .inl h
    · exact .inr (.inl h)
    · exact .inr (.inr (.inl h))
    all_goals decide
  simp only [isWideBlank, Text.isNumberBlank]
  simp
  omega

theorem closesNext_written (hblanks : PlainBlanks ps) (hplain : ∀ p ∈ ps, p.isComment = false) :
    closesNext (written ps) = closesBehind ps := by
  induction ps with
  | nil => rfl
  | cons p ps ih =>
    obtain ⟨hp, hplain⟩ := List.forall_mem_cons.mp hplain
    have hrest := ih (fun c hc => hblanks c (List.mem_cons_of_mem _ hc)) hplain
    cases p with
    | literal _ | unclosedLiteral _ => rfl
    | lineComment _ | blockComment _ | unclosedComment _ => cases hp
    | char c =>
      cases hc : isBlank c with
      | true =>
        have hgap : (Piece.char c).isGap = true := hc
        simpa [Piece.text, closesNext, closesBehind, isWideBlank_of_isBlank hc, hgap] using hrest
      | false =>
        have hwide : isWideBlank c = false := Bool.eq_false_iff.mpr fun hwide => by
          rw [hblanks c (List.mem_cons_self ..) hwide] at hc
          cases hc
        have hgap : (Piece.char c).isGap = false := hc
        simp [Piece.text, closesNext, closesBehind, hwide, hgap, isClosing, Bool.or_comm]

theorem dropped_eq (hblanks : PlainBlanks ps) (hplain : ∀ p ∈ ps, p.isComment = false) :
    dropped ps = (thinned closesBehind ps).map Piece.shortened := by
  unfold dropped
  congr 1
  induction ps with
  | nil => rfl
  | cons p ps ih =>
    have hblanks' : PlainBlanks ps := fun c hc => hblanks c (List.mem_cons_of_mem _ hc)
    have hplain' := (List.forall_mem_cons.mp hplain).2
    simp only [thinned, closesNext_written hblanks' hplain', ih hblanks' hplain']

/-- A character that is no comma is left. -/
theorem mem_dropped (h : Piece.char c ∈ ps) (hc : c ≠ ',') : Piece.char c ∈ dropped ps := by
  induction ps with
  | nil => cases h
  | cons p ps ih =>
    by_cases hp : p = .char ','
    · subst hp
      have hrest := ih ((List.mem_cons.mp h).resolve_left (by simpa using hc))
      rw [dropped_comma]
      split
      · exact hrest
      · exact List.mem_cons_of_mem _ hrest
    · rw [dropped_cons_of_ne hp]
      rcases List.mem_cons.mp h with rfl | h
      · exact List.mem_cons_self ..
      · exact List.mem_cons_of_mem _ (ih h)

theorem exists_mem_extendWord {cs : List Char} {joined : Bool} {ts : List Token} (h : .word cs ∈ ts) :
    ∃ more, .word more ∈ extendWord c joined ts ∧ cs ⊆ more := by
  unfold extendWord
  split
  · rename_i ds ts
    rcases List.mem_cons.mp h with heq | hmem
    · obtain rfl := Token.word.inj heq
      split
      · exact ⟨c :: cs, List.mem_cons_self .., List.subset_cons_self ..⟩
      · exact ⟨cs, by simp, fun _ => id⟩
    · split
      · exact ⟨cs, List.mem_cons_of_mem _ hmem, fun _ => id⟩
      · exact ⟨cs, List.mem_cons_of_mem _ (List.mem_cons_of_mem _ hmem), fun _ => id⟩
  · exact ⟨cs, List.mem_cons_of_mem _ h, fun _ => id⟩

/-- The words of a tail are parts of words of the whole. -/
theorem exists_word_mem {p : Piece} {cs : List Char} (h : .word cs ∈ tokens ps) :
    ∃ more, .word more ∈ tokens (p :: ps) ∧ cs ⊆ more := by
  cases p with
  | literal _ | unclosedLiteral _ => exact ⟨cs, List.mem_cons_of_mem _ h, fun _ => id⟩
  | lineComment _ | blockComment _ | unclosedComment _ => exact ⟨cs, h, fun _ => id⟩
  | char d =>
    rcases Piece.cases_char d with hgap | hmark | hword
    · exact ⟨cs, by rwa [tokens_gap hgap], fun _ => id⟩
    · exact ⟨cs, by rw [tokens_mark hmark]; exact List.mem_cons_of_mem _ h, fun _ => id⟩
    · rw [tokens_inWord hword]
      exact exists_mem_extendWord h

/-- A character of a word between literals is that of a value, where all words have only such characters. -/
theorem isScalarChar_of_mem (hwords : ∀ cs, .word cs ∈ tokens ps → ∀ c ∈ cs, isScalarChar c = true)
    (h : Piece.char c ∈ ps) (hc : isWordChar c = true) : isScalarChar c = true := by
  induction ps with
  | nil => cases h
  | cons p ps ih =>
    rcases List.mem_cons.mp h with rfl | h
    · rw [tokens_inWord hc] at hwords
      unfold extendWord at hwords
      split at hwords
      · split at hwords
        · exact hwords _ (List.mem_cons_self ..) c (List.mem_cons_self ..)
        · exact hwords _ (List.mem_cons_self ..) c (List.mem_cons_self ..)
      · exact hwords _ (List.mem_cons_self ..) c (List.mem_cons_self ..)
    · refine ih (fun cs hcs d hd => ?_) h
      obtain ⟨more, hmore, hsub⟩ := exists_word_mem hcs
      exact hwords more hmore d (hsub hd)

/-- Where all words have values, no blank of another kind stands between literals. -/
theorem plainBlanks_of_valued (h : ∀ t ∈ tokens ps, t.Valued) : PlainBlanks ps := by
  intro c hc hwide
  cases hblank : isBlank c with
  | true => rfl
  | false =>
    have hmark : isMark c = false := Bool.eq_false_iff.mpr fun hmark => by
      simp only [isMark, Bool.or_eq_true, beq_iff_eq] at hmark
      rcases hmark with ((((rfl | rfl) | rfl) | rfl) | rfl) | rfl <;> cases hwide
    have hwords : ∀ cs, .word cs ∈ tokens ps → ∀ c ∈ cs, isScalarChar c = true := fun cs hcs => by
      obtain ⟨v, hv⟩ := h _ hcs
      exact isScalarChar_of_scalar? hv
    have hscalar := isScalarChar_of_mem hwords hc (by simp [isWordChar, hblank, hmark])
    rw [isWideBlank_of_isScalarChar hscalar] at hwide
    cases hwide

theorem PlainBlanks.of_dropped (h : PlainBlanks (dropped ps)) : PlainBlanks ps :=
  fun c hc hwide => h c (mem_dropped hc (by rintro rfl; cases hwide)) hwide

end

/-! ### Literals of trees -/

mutual

/-- A tree whose literals have lost such commas. -/
def Doc.shortened : Doc → Doc
  | .literal body => .literal (dropTrailingCommas body)
  | .word cs => .word cs
  | .list items => .list items.shortened
  | .object members => .object members.shortened

def Docs.shortened : Docs → Docs
  | .nil => .nil
  | .cons d rest => .cons d.shortened rest.shortened

def Entries.shortened : Entries → Entries
  | .nil => .nil
  | .cons key d rest => .cons (dropTrailingCommas key) d.shortened rest.shortened

end

mutual

theorem Doc.tokens_shortened : ∀ d : Doc, d.shortened.tokens = d.tokens.map Token.shortened
  | .literal _ | .word _ => rfl
  | .list items => by simp [Doc.shortened, Doc.tokens, Token.shortened, items.tokens_shortened]
  | .object members => by simp [Doc.shortened, Doc.tokens, Token.shortened, members.tokens_shortened]

theorem Docs.tokens_shortened : ∀ ds : Docs, ds.shortened.tokens = ds.tokens.map Token.shortened
  | .nil => rfl
  | .cons d .nil => d.tokens_shortened
  | .cons d (.cons e rest) => by
    have hrest := (Docs.cons e rest).tokens_shortened
    rw [Docs.shortened] at hrest
    simp [Docs.shortened, Docs.tokens, Token.shortened, d.tokens_shortened, hrest]

theorem Entries.tokens_shortened : ∀ es : Entries, es.shortened.tokens = es.tokens.map Token.shortened
  | .nil => rfl
  | .cons key d .nil => by simp [Entries.shortened, Entries.tokens, Token.shortened, d.tokens_shortened]
  | .cons key d (.cons key' e rest) => by
    have hrest := (Entries.cons key' e rest).tokens_shortened
    rw [Entries.shortened] at hrest
    simp [Entries.shortened, Entries.tokens, Token.shortened, d.tokens_shortened, hrest]

end

theorem Token.eq_mark_of_shortened {t : Token} {c : Char} (h : t.shortened = .mark c) : t = .mark c := by
  cases t <;> first | exact h | cases h

theorem Token.exists_literal_of_shortened {t : Token} {body : List Char} (h : t.shortened = .literal body) :
    ∃ longer, t = .literal longer ∧ dropTrailingCommas longer = body := by
  cases t with
  | literal longer => exact ⟨longer, rfl, Token.literal.inj h⟩
  | mark _ | unclosedLiteral _ | word _ => cases h

theorem Token.eq_word_of_shortened {t : Token} {cs : List Char} (h : t.shortened = .word cs) : t = .word cs := by
  cases t <;> first | exact h | cases h

section

variable {ts : List Token}

/-- Brackets around shortened tokens are brackets around tokens. -/
theorem exists_enclosed_of_shortened {o k : Char} {us : List Token}
    (h : ts.map Token.shortened = .mark o :: (us ++ [.mark k])) :
    ∃ inner, ts = .mark o :: (inner ++ [.mark k]) ∧ inner.map Token.shortened = us := by
  obtain ⟨t, ts, rfl, ht, hts⟩ := List.map_eq_cons_iff.mp h
  obtain ⟨inner, last, rfl, hinner, hlast⟩ := List.map_eq_append_iff.mp hts
  obtain ⟨u, rfl, hu⟩ := List.map_eq_singleton_iff.mp hlast
  exact ⟨inner, by rw [Token.eq_mark_of_shortened ht, Token.eq_mark_of_shortened hu], hinner⟩

end

mutual

/-- What are the tokens of a tree when literals have lost such commas are those of a tree before. -/
theorem Doc.exists_of_shortened : ∀ (d : Doc) {ts : List Token}, ts.map Token.shortened = d.tokens →
    ∃ longer : Doc, ts = longer.tokens ∧ longer.shortened = d
  | .literal body, ts, h => by
    obtain ⟨t, rfl, ht⟩ := List.map_eq_singleton_iff.mp h
    obtain ⟨longer, rfl, rfl⟩ := Token.exists_literal_of_shortened ht
    exact ⟨.literal longer, rfl, rfl⟩
  | .word cs, ts, h => by
    obtain ⟨t, rfl, ht⟩ := List.map_eq_singleton_iff.mp h
    exact ⟨.word cs, by rw [Token.eq_word_of_shortened ht]; rfl, rfl⟩
  | .list items, ts, h => by
    obtain ⟨inner, rfl, hinner⟩ := exists_enclosed_of_shortened h
    obtain ⟨longer, rfl, rfl⟩ := items.exists_of_shortened hinner
    exact ⟨.list longer, rfl, rfl⟩
  | .object members, ts, h => by
    obtain ⟨inner, rfl, hinner⟩ := exists_enclosed_of_shortened h
    obtain ⟨longer, rfl, rfl⟩ := members.exists_of_shortened hinner
    exact ⟨.object longer, rfl, rfl⟩

theorem Docs.exists_of_shortened : ∀ (ds : Docs) {ts : List Token}, ts.map Token.shortened = ds.tokens →
    ∃ longer : Docs, ts = longer.tokens ∧ longer.shortened = ds
  | .nil, ts, h => ⟨.nil, List.map_eq_nil_iff.mp h, rfl⟩
  | .cons d .nil, ts, h => by
    obtain ⟨longer, rfl, rfl⟩ := d.exists_of_shortened h
    exact ⟨.cons longer .nil, rfl, rfl⟩
  | .cons d (.cons e rest), ts, h => by
    obtain ⟨first, others, rfl, hfirst, hothers⟩ := List.map_eq_append_iff.mp h
    obtain ⟨t, others, rfl, ht, hothers⟩ := List.map_eq_cons_iff.mp hothers
    obtain ⟨longer, rfl, rfl⟩ := d.exists_of_shortened hfirst
    obtain ⟨more, rfl, hmore⟩ := (Docs.cons e rest).exists_of_shortened hothers
    rw [Token.eq_mark_of_shortened ht]
    cases more with
    | nil => cases hmore
    | cons e' rest' => exact ⟨.cons longer (.cons e' rest'), rfl, by rw [Docs.shortened, hmore]⟩

theorem Entries.exists_of_shortened : ∀ (es : Entries) {ts : List Token}, ts.map Token.shortened = es.tokens →
    ∃ longer : Entries, ts = longer.tokens ∧ longer.shortened = es
  | .nil, ts, h => ⟨.nil, List.map_eq_nil_iff.mp h, rfl⟩
  | .cons key d .nil, ts, h => by
    obtain ⟨t, ts, rfl, ht, hts⟩ := List.map_eq_cons_iff.mp h
    obtain ⟨u, ts, rfl, hu, hts⟩ := List.map_eq_cons_iff.mp hts
    obtain ⟨longer, rfl, rfl⟩ := d.exists_of_shortened hts
    obtain ⟨key, rfl, rfl⟩ := Token.exists_literal_of_shortened ht
    rw [Token.eq_mark_of_shortened hu]
    exact ⟨.cons key longer .nil, rfl, rfl⟩
  | .cons key d (.cons key' e rest), ts, h => by
    obtain ⟨t, ts, rfl, ht, hts⟩ := List.map_eq_cons_iff.mp h
    obtain ⟨u, ts, rfl, hu, hts⟩ := List.map_eq_cons_iff.mp hts
    obtain ⟨first, others, rfl, hfirst, hothers⟩ := List.map_eq_append_iff.mp hts
    obtain ⟨w, others, rfl, hw, hothers⟩ := List.map_eq_cons_iff.mp hothers
    obtain ⟨longer, rfl, rfl⟩ := d.exists_of_shortened hfirst
    obtain ⟨key, rfl, rfl⟩ := Token.exists_literal_of_shortened ht
    obtain ⟨more, rfl, hmore⟩ := (Entries.cons key' e rest).exists_of_shortened hothers
    rw [Token.eq_mark_of_shortened hu, Token.eq_mark_of_shortened hw]
    cases more with
    | nil => cases hmore
    | cons key'' e' rest' => exact ⟨.cons key longer (.cons key'' e' rest'), rfl, by rw [Entries.shortened, hmore]⟩

end

/-- Literals have values without such commas exactly when they have some with them. -/
theorem Token.valued_shortened {t : Token} : t.shortened.Valued ↔ t.Valued := by
  cases t with
  | mark _ | unclosedLiteral _ | word _ => exact Iff.rfl
  | literal body =>
    simp only [shortened, Valued, literal?_eq_some_iff]
    constructor
    · rintro ⟨s, chars, hspells, rfl⟩
      obtain ⟨longer, hlonger⟩ := exists_spells_of_dropped hspells
      exact ⟨_, longer, hlonger, rfl⟩
    · rintro ⟨s, chars, hspells, rfl⟩
      obtain ⟨left, hleft, -⟩ := hspells.dropped
      exact ⟨_, left, hleft, rfl⟩

/-- A tree has a value without such commas exactly when it has one with them. -/
theorem Doc.exists_value?_shortened {d : Doc} : (∃ v, d.shortened.value? = some v) ↔ ∃ v, d.value? = some v := by
  rw [Doc.exists_value?_iff, Doc.exists_value?_iff, Doc.tokens_shortened]
  simp [Token.valued_shortened]

end Codemod.Json
