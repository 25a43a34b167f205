import Codemod.Proofs.Journal
import Codemod.Proofs.ScalarReading

/-!
# What the reader accepts

A text is read as a value exactly when it holds no comments and its tokens are those of a tree, and then the value is
that of the tree. One direction follows the reader: whatever it takes off a text is a row of tokens. The other one
follows the tree: its tokens are what the reader takes.

Main statements:

* `reads` says that trees stand where the reader takes something;
* `Doc.exists_readValue` says that it takes what a tree has as its tokens;
* `readChars_eq_ok_iff` puts this together for whole texts.
-/

namespace Codemod.Json

/-! ### What the reader takes -/

/-- Whether tokens without comments among them stand before the rest of a text. -/
def Took (cs : List Char) (ts : List Token) (rest : List Char) : Prop :=
  ∃ qs, pieces cs = qs ++ pieces rest ∧ (∀ q ∈ qs, q.isComment = false) ∧
    tokens (pieces cs) = ts ++ tokens (pieces rest)

/-- Whether a text goes on as it may behind a value: it ends, or a blank or a mark comes next. -/
def Follows (rest : List Char) : Prop :=
  ∀ c ∈ rest.head?, isBlank c = true ∨ isMark c = true

section

variable {cs more rest body used : List Char} {ts us : List Token} {c : Char} {v : Value}

theorem Took.trans (h : Took cs ts more) (hmore : Took more us rest) : Took cs (ts ++ us) rest := by
  obtain ⟨qs, hqs, hall, hts⟩ := h
  obtain ⟨qs', hqs', hall', hus⟩ := hmore
  exact ⟨qs ++ qs', by rw [hqs, hqs', List.append_assoc], List.forall_mem_append.mpr ⟨hall, hall'⟩,
    by rw [hts, hus, List.append_assoc]⟩

theorem pieces_char (hc : c ≠ '"' ∧ c ≠ '/') : pieces (c :: rest) = .char c :: pieces rest :=
  pieces_append (p := .char c) ⟨hc.1, fun h => absurd h hc.2⟩

theorem took_char (hc : c ≠ '"' ∧ c ≠ '/') (hts : tokens (.char c :: pieces rest) = ts ++ tokens (pieces rest)) :
    Took (c :: rest) ts rest :=
  ⟨[.char c], pieces_char hc, by simp [Piece.isComment], by rw [pieces_char hc, hts]⟩

theorem took_blanks (cs : List Char) : Took cs [] (skipBlanks cs) := by
  induction cs with
  | nil => exact ⟨[], rfl, by simp, rfl⟩
  | cons c cs ih =>
    cases hc : isBlank c with
    | false =>
      rw [skipBlanks_of_not_blank hc]
      exact ⟨[], rfl, by simp, rfl⟩
    | true =>
      have hskip : skipBlanks (c :: cs) = skipBlanks cs := List.dropWhile_cons_of_pos hc
      rw [hskip]
      have hne : c ≠ '"' ∧ c ≠ '/' := by
        constructor <;>
        · rintro rfl
          cases hc
      have hblank : Took (c :: cs) [] cs := took_char hne (tokens_gap (p := .char c) hc)
      exact hblank.trans ih

theorem took_mark (hc : isMark c = true) : Took (c :: rest) [.mark c] rest := by
  have hne : c ≠ '"' ∧ c ≠ '/' := by
    constructor <;>
    · rintro rfl
      cases hc
  exact took_char hne (tokens_mark hc)

theorem took_literal (hbody : Enclosed body) : Took ('"' :: (body ++ '"' :: rest)) [.literal body] rest := by
  have hpieces : pieces ('"' :: (body ++ '"' :: rest)) = .literal body :: pieces rest := by
    have hfits : (Piece.literal body).Fits rest := hbody
    simpa [Piece.text] using pieces_append hfits
  exact ⟨[.literal body], hpieces, by simp [Piece.isComment], by rw [hpieces]; rfl⟩

theorem Follows.bounded (h : Follows rest) : Bounded rest := by
  intro c hc
  refine Bool.eq_false_iff.mpr fun hscalar => ?_
  have hword := (isWordChar_of_isScalarChar hscalar).1
  rcases h c hc with hblank | hmark
  · simp [isWordChar, hblank] at hword
  · simp [isWordChar, hmark] at hword

theorem took_word (h : scalar? used = some v) (hrest : Follows rest) : Took (used ++ rest) [.word used] rest := by
  have hused := isScalarChar_of_scalar? h
  have hpieces : pieces (used ++ rest) = used.map .char ++ pieces rest := by
    clear h
    induction used with
    | nil => rfl
    | cons c used ih =>
      obtain ⟨hc, hused⟩ := List.forall_mem_cons.mp hused
      rw [List.cons_append, pieces_char (isWordChar_of_isScalarChar hc).2, ih hused]
      rfl
  -- The word ends here, as a blank or a mark comes next.
  have hstarts : startsInWord (pieces rest) = false := by
    cases rest with
    | nil => rfl
    | cons c rest =>
      have hword : isWordChar c = false := by rcases hrest c rfl with hc | hc <;> simp [isWordChar, hc]
      rw [pieces_char]
      · exact hword
      · rcases hrest c rfl with hc | hc <;> constructor <;>
        · rintro rfl
          cases hc
  have hne : used ≠ [] := by
    rintro rfl
    cases h
  refine ⟨used.map .char, hpieces, by simp [Piece.isComment], ?_⟩
  rw [hpieces, tokens_append hstarts, tokens_word hne fun c hc => (isWordChar_of_isScalarChar (hused c hc)).1]

/-- Where a mark stands behind blanks, a text goes on as it may behind a value. -/
theorem follows_of_skipBlanks (h : skipBlanks cs = c :: rest) (hc : isMark c = true) : Follows cs := by
  intro d hd
  cases hblank : isBlank d with
  | true => exact .inl rfl
  | false =>
    obtain ⟨cs, rfl⟩ := List.head?_eq_some_iff.mp hd
    rw [skipBlanks_of_not_blank hblank] at h
    obtain ⟨rfl, -⟩ := List.cons.inj h
    exact .inr hc

/-- Blanks and a mark. -/
theorem took_blanks_mark (h : skipBlanks cs = c :: rest) (hc : isMark c = true) : Took cs [.mark c] rest := by
  have hblanks := took_blanks cs
  rw [h] at hblanks
  exact hblanks.trans (took_mark hc)

end

/-- Whether with the given fuel values are read off texts only where trees with these values stand. -/
def ReadsValues (fuel : Nat) : Prop :=
  ∀ {cs rest v}, readValue fuel cs = .ok (v, rest) → Follows rest →
    ∃ d : Doc, d.value? = some v ∧ Took cs d.tokens rest

/-- Whether with the given fuel items are read off texts only where lists go on with trees for these items. -/
def ReadsItems (fuel : Nat) : Prop :=
  ∀ {seen cs rest v}, readItems fuel seen cs = .ok (v, rest) →
    ∃ d ds vs, (Docs.cons d ds).values? = some vs ∧ v = .list (seen.reverse ++ vs) ∧
      Took cs ((Docs.cons d ds).tokens ++ [.mark ']']) rest

/-- Whether with the given fuel members are read off texts only where objects go on with trees for these members. -/
def ReadsMembers (fuel : Nat) : Prop :=
  ∀ {seen cs rest v}, readMembers fuel seen cs = .ok (v, rest) →
    ∃ key d es ms, (Entries.cons key d es).values? = some ms ∧ v = .object (Keyed.merge seen ms) ∧
      Took cs ((Entries.cons key d es).tokens ++ [.mark '\x7d']) rest

section

variable {fuel : Nat}

/-- A string is read where a literal stands. -/
theorem took_of_readString {opening cs rest : List Char} {s : String}
    (h : readString opening fuel [] cs = .ok (s, rest)) :
    ∃ body, literal? body = some s ∧ Took ('"' :: cs) [.literal body] rest := by
  obtain ⟨body, chars, rfl, hspells, rfl⟩ := exists_spells_of_readString h
  exact ⟨body, literal?_eq_some_iff.mpr ⟨chars, hspells, by simp⟩, took_literal hspells.enclosed⟩

theorem readsValues_succ (hitems : ReadsItems fuel) (hmembers : ReadsMembers fuel) : ReadsValues (fuel + 1) := by
  intro cs rest v h hrest
  unfold readValue at h
  split at h
  · rename_i more
    obtain ⟨⟨s, rest'⟩, hread, h⟩ := Except.bind_eq_ok h
    cases h
    obtain ⟨body, hbody, htook⟩ := took_of_readString hread
    exact ⟨.literal body, by simp [Doc.value?, hbody], htook⟩
  · rename_i more
    have hopening : Took ('[' :: more) [.mark '['] more := took_mark rfl
    split at h
    · rename_i rest' hskip
      cases h
      exact ⟨.list .nil, rfl, hopening.trans (took_blanks_mark hskip rfl)⟩
    · -- The list is not empty, and its items are read as those of a list that goes on.
      obtain ⟨d, ds, vs, hvs, rfl, htook⟩ := hitems h
      refine ⟨.list (.cons d ds), by simp [Doc.value?, hvs], ?_⟩
      exact hopening.trans ((took_blanks more).trans htook)
  · rename_i more
    have hopening : Took ('\x7b' :: more) [.mark '\x7b'] more := took_mark rfl
    split at h
    · rename_i rest' hskip
      cases h
      exact ⟨.object .nil, rfl, hopening.trans (took_blanks_mark hskip rfl)⟩
    · obtain ⟨key, d, es, ms, hms, rfl, htook⟩ := hmembers h
      refine ⟨.object (.cons key d es), by simp [Doc.value?, hms, Members.ofList], ?_⟩
      exact hopening.trans ((took_blanks more).trans htook)
  · have hread : readScalar cs = .ok (v, rest) := h
    obtain ⟨used, rfl, hused⟩ := exists_scalar_of_readScalar hread hrest.bounded
    exact ⟨.word used, hused, took_word hused hrest⟩

theorem readsItems_succ (hvalues : ReadsValues fuel) (hitems : ReadsItems fuel) : ReadsItems (fuel + 1) := by
  intro seen cs rest v h
  unfold readItems at h
  obtain ⟨⟨u, behind⟩, hread, h⟩ := Except.bind_eq_ok h
  simp only at h
  split at h
  · rename_i rest' hskip
    cases h
    obtain ⟨d, hd, htook⟩ := hvalues hread (follows_of_skipBlanks hskip rfl)
    exact ⟨d, .nil, [u], by simp [Docs.values?, hd], by simp, htook.trans (took_blanks_mark hskip rfl)⟩
  · rename_i more hskip
    obtain ⟨d, hd, htook⟩ := hvalues hread (follows_of_skipBlanks hskip rfl)
    obtain ⟨e, ds, vs, hvs, rfl, htooks⟩ := hitems h
    refine ⟨d, .cons e ds, u :: vs, Docs.values?_cons.mpr ⟨u, vs, hd, hvs, rfl⟩, by simp, ?_⟩
    have hboth := (htook.trans (took_blanks_mark hskip rfl)).trans ((took_blanks more).trans htooks)
    simpa [Docs.tokens] using hboth
  · cases h

theorem readsMembers_succ (hvalues : ReadsValues fuel) (hmembers : ReadsMembers fuel) : ReadsMembers (fuel + 1) := by
  intro seen cs rest v h
  unfold readMembers at h
  split at h
  · rename_i text
    obtain ⟨⟨key, more⟩, hkey, h⟩ := Except.bind_eq_ok h
    simp only at h
    split at h
    · rename_i more' hcolon
      obtain ⟨⟨u, behind⟩, hread, h⟩ := Except.bind_eq_ok h
      obtain ⟨body, hbody, htook⟩ := took_of_readString hkey
      have hname := (htook.trans (took_blanks_mark hcolon rfl)).trans (took_blanks more')
      simp only at h
      split at h
      · rename_i rest' hskip
        cases h
        obtain ⟨d, hd, htook⟩ := hvalues hread (follows_of_skipBlanks hskip rfl)
        refine ⟨body, d, .nil, [(key, u)], by simp [Entries.values?, hd, hbody], rfl, ?_⟩
        simpa [Entries.tokens] using (hname.trans htook).trans (took_blanks_mark hskip rfl)
      · rename_i behind' hskip
        obtain ⟨d, hd, htook⟩ := hvalues hread (follows_of_skipBlanks hskip rfl)
        obtain ⟨key', e, es, ms, hms, rfl, htooks⟩ := hmembers h
        refine ⟨body, d, .cons key' e es, (key, u) :: ms,
          Entries.values?_cons.mpr ⟨key, u, ms, hbody, hd, hms, rfl⟩, rfl, ?_⟩
        have hmember := (hname.trans htook).trans (took_blanks_mark hskip rfl)
        simpa [Entries.tokens] using hmember.trans ((took_blanks behind').trans htooks)
      · cases h
    · cases h
  · cases h

/-- Whatever the reader takes, trees stand there. -/
theorem reads (fuel : Nat) : ReadsValues fuel ∧ ReadsItems fuel ∧ ReadsMembers fuel := by
  induction fuel with
  | zero =>
    refine ⟨fun {cs rest v} h => ?_, fun {seen cs rest v} h => ?_, fun {seen cs rest v} h => ?_⟩ <;>
      simp [readValue, readItems, readMembers, stop] at h
  | succ fuel ih =>
    obtain ⟨hvalues, hitems, hmembers⟩ := ih
    exact ⟨readsValues_succ hitems hmembers, readsItems_succ hvalues hitems, readsMembers_succ hvalues hmembers⟩

end

/-! ### What a tree has as its tokens -/

namespace Token

/-- A token as it is written. -/
def text (t : Token) : List Char :=
  written t.pieces

theorem text_word (cs : List Char) : (word cs).text = cs := by
  simp [text, pieces, written, List.flatMap_map, Piece.text]

end Token

/-- What is left of pieces behind tokens: further pieces without comments, which have the other tokens. -/
structure LeftBehind (us : List Token) (rs : List Piece) : Prop where
  plain : ∀ p ∈ rs, p.isComment = false
  tokens : tokens rs = us

section

variable {ps rs : List Piece} {t : Token} {ts us : List Token}

theorem skipBlanks_written {gap : List Piece} (hgap : ∀ p ∈ gap, p.isGap = true)
    (hplain : ∀ p ∈ gap, p.isComment = false) (cs : List Char) : skipBlanks (written gap ++ cs) = skipBlanks cs := by
  induction gap with
  | nil => rfl
  | cons p gap ih =>
    obtain ⟨hp, hgap'⟩ := List.forall_mem_cons.mp hgap
    obtain ⟨hplain, hrest⟩ := List.forall_mem_cons.mp hplain
    cases p with
    | char c =>
      have hc : isBlank c = true := hp
      simpa [Piece.text, skipBlanks, hc] using ih hgap' hrest
    | literal _ | unclosedLiteral _ => cases hp
    | lineComment _ | blockComment _ | unclosedComment _ => cases hplain

/-- A token is written without a blank before it. -/
theorem Token.Proper.exists_cons (h : t.Proper) : ∃ c cs, t.text = c :: cs ∧ isBlank c = false := by
  cases t with
  | mark c => exact ⟨c, [], rfl, isBlank_of_isMark h⟩
  | literal body => exact ⟨'"', body ++ ['"'] , by simp [text, pieces, Piece.text], rfl⟩
  | unclosedLiteral body => exact ⟨'"', body, by simp [text, pieces, Piece.text], rfl⟩
  | word cs =>
    obtain ⟨hne, hcs⟩ := h
    obtain ⟨c, cs, rfl⟩ := List.exists_cons_of_ne_nil hne
    have hc := hcs c (List.mem_cons_self ..)
    simp only [isWordChar, Bool.and_eq_true, Bool.not_eq_true'] at hc
    exact ⟨c, cs, text_word _, hc.1⟩

/-- Behind blanks stands the first token. -/
theorem exists_skipped (hps : LeftBehind (t :: us) ps) :
    ∃ rs, skipBlanks (written ps) = t.text ++ written rs ∧ LeftBehind us rs ∧ t.Proper ∧
      (∀ cs, t = .word cs → startsInWord rs = false) := by
  obtain ⟨hplain, hts⟩ := hps
  obtain ⟨gap, rs, rfl, hgap, hproper, hrest, hends⟩ := exists_of_tokens_eq_cons hts
  simp only [List.forall_mem_append] at hplain
  refine ⟨rs, ?_, ⟨hplain.2, hrest⟩, hproper, hends⟩
  obtain ⟨c, cs, htext, hc⟩ := hproper.exists_cons
  rw [written_append, written_append, List.append_assoc, skipBlanks_written hgap hplain.1.1]
  change skipBlanks (t.text ++ written rs) = _
  rw [htext, List.cons_append, skipBlanks_of_not_blank hc]

/-- Behind blanks stands the first mark. -/
theorem exists_skipped_mark {c : Char} (hps : LeftBehind (.mark c :: us) ps) :
    ∃ rs, skipBlanks (written ps) = c :: written rs ∧ LeftBehind us rs := by
  obtain ⟨rs, hskip, hrs, -⟩ := exists_skipped hps
  exact ⟨rs, hskip, hrs⟩

/-- No closing bracket stands where a value or a key comes next. -/
theorem not_closing {k : Char} (hts : Shaped ts) (hps : LeftBehind (ts ++ us) ps) (hk : isClosing k = true)
    (rest : List Char) : skipBlanks (written ps) ≠ k :: rest := by
  obtain ⟨t, ht, hbegins⟩ := hts.first
  obtain ⟨ts, rfl⟩ := List.head?_eq_some_iff.mp ht
  obtain ⟨rs, hskip, -, hproper, -⟩ := exists_skipped hps
  intro h
  rw [hskip] at h
  simp only [isClosing, Bool.or_eq_true, beq_iff_eq] at hk
  cases t with
  | mark c =>
    obtain ⟨rfl, -⟩ := List.cons.inj h
    rcases hk with rfl | rfl <;> cases hbegins
  | literal _ | unclosedLiteral _ =>
    obtain ⟨rfl, -⟩ := List.cons.inj h
    rcases hk with hk | hk <;> cases hk
  | word cs =>
    obtain ⟨hne, hcs⟩ := hproper
    obtain ⟨c, cs, rfl⟩ := List.exists_cons_of_ne_nil hne
    rw [Token.text_word] at h
    obtain ⟨rfl, -⟩ := List.cons.inj h
    have hc := hcs c (List.mem_cons_self ..)
    rcases hk with rfl | rfl <;> cases hc

/-- Where no word goes on, no value does. -/
theorem bounded_written (h : startsInWord rs = false) : Bounded (written rs) := by
  cases rs with
  | nil => nofun
  | cons p rs =>
    intro c hc
    refine Bool.eq_false_iff.mpr fun hscalar => ?_
    obtain ⟨hword, hquote, hslash⟩ := isWordChar_of_isScalarChar hscalar
    cases p with
    | char d =>
      obtain rfl := Option.some.inj hc
      exact Bool.false_ne_true (h.symm.trans hword)
    | literal _ | unclosedLiteral _ => exact hquote (Option.some.inj hc).symm
    | lineComment _ | blockComment _ | unclosedComment _ => exact hslash (Option.some.inj hc).symm

end

/-! ### Steps of the reader -/

section

variable {fuel : Nat} {seen : List Value} {cs more rest : List Char} {v : Value}

theorem readValue_scalar (h : ∀ c ∈ cs.head?, isScalarChar c = true) : readValue (fuel + 1) cs = readScalar cs := by
  unfold readValue
  split
  · exact absurd (h '"' rfl) (by decide)
  · exact absurd (h '[' rfl) (by decide)
  · exact absurd (h '\x7b' rfl) (by decide)
  · rfl

/-- A string is read from a literal. -/
theorem readString_of_literal? {opening body : List Char} {s : String} (h : literal? body = some s) :
    readString opening ((body ++ '"' :: rest).length + 1) [] (body ++ '"' :: rest) = .ok (s, rest) := by
  obtain ⟨chars, hspells, rfl⟩ := literal?_eq_some_iff.mp h
  have hfuel : body.length < (body ++ '"' :: rest).length + 1 := by
    rw [List.length_append]
    omega
  exact readString_of_spells hspells hfuel

theorem readValue_list (h : ∀ rest, skipBlanks cs ≠ ']' :: rest) :
    readValue (fuel + 1) ('[' :: cs) = readItems fuel [] (skipBlanks cs) := by
  simp only [readValue]

theorem readValue_object (h : ∀ rest, skipBlanks cs ≠ '\x7d' :: rest) :
    readValue (fuel + 1) ('\x7b' :: cs) = readMembers fuel [] (skipBlanks cs) := by
  simp only [readValue]

theorem readItems_last (hv : readValue fuel cs = .ok (v, more)) (hskip : skipBlanks more = ']' :: rest) :
    readItems (fuel + 1) seen cs = .ok (.list (v :: seen).reverse, rest) := by
  rw [readItems, hv]
  simp [bind, Except.bind, hskip, pure, Except.pure]

theorem readItems_more (hv : readValue fuel cs = .ok (v, more)) (hskip : skipBlanks more = ',' :: rest) :
    readItems (fuel + 1) seen cs = readItems fuel (v :: seen) (skipBlanks rest) := by
  rw [readItems, hv]
  simp only [bind, Except.bind, hskip]

variable {members : Members} {body text : List Char} {key : String}

theorem readMembers_last (hkey : literal? body = some key) (hcolon : skipBlanks text = ':' :: cs)
    (hv : readValue fuel (skipBlanks cs) = .ok (v, more)) (hskip : skipBlanks more = '\x7d' :: rest) :
    readMembers (fuel + 1) members ('"' :: (body ++ '"' :: text)) = .ok (.object (Keyed.set members key v), rest) := by
  rw [readMembers, readString_of_literal? hkey]
  simp [bind, Except.bind, hcolon, hv, hskip, pure, Except.pure]

theorem readMembers_more (hkey : literal? body = some key) (hcolon : skipBlanks text = ':' :: cs)
    (hv : readValue fuel (skipBlanks cs) = .ok (v, more)) (hskip : skipBlanks more = ',' :: rest) :
    readMembers (fuel + 1) members ('"' :: (body ++ '"' :: text)) =
      readMembers fuel (Keyed.set members key v) (skipBlanks rest) := by
  rw [readMembers, readString_of_literal? hkey]
  simp only [bind, Except.bind, hcolon, hv, hskip]

end

/-! ### A tree is read -/

theorem Token.text_literal (body rest : List Char) : (literal body).text ++ rest = '"' :: (body ++ '"' :: rest) := by
  simp [text, pieces, Piece.text]

mutual

/-- The value of a tree is read from its tokens. -/
theorem Doc.exists_readValue : ∀ (d : Doc) (fuel : Nat) {ps us v}, LeftBehind (d.tokens ++ us) ps → d.value? = some v →
    2 * d.tokens.length ≤ fuel →
    ∃ rs, readValue fuel (skipBlanks (written ps)) = .ok (v, written rs) ∧ LeftBehind us rs
  -- Each tree has a token, so that some fuel is left.
  | d, 0, _, _, _, _, _, hfuel => absurd (List.length_eq_zero_iff.mp (by omega)) d.shaped.ne_nil
  | .literal body, fuel + 1, ps, us, v, hps, hv, _ => by
    obtain ⟨rs, hskip, hrs, -⟩ := exists_skipped hps
    obtain ⟨s, hs, rfl⟩ := Option.map_eq_some_iff.mp hv
    refine ⟨rs, ?_, hrs⟩
    rw [hskip, Token.text_literal]
    simp only [readValue]
    rw [readString_of_literal? hs]
    rfl
  | .word cs, fuel + 1, ps, us, v, hps, hv, _ => by
    obtain ⟨rs, hskip, hrs, hproper, hends⟩ := exists_skipped hps
    refine ⟨rs, ?_, hrs⟩
    rw [hskip, Token.text_word, readValue_scalar, readScalar_append hv (bounded_written (hends cs rfl))]
    intro c hc
    obtain ⟨d, cs, rfl⟩ := List.exists_cons_of_ne_nil hproper.1
    obtain rfl := Option.some.inj hc
    exact isScalarChar_of_scalar? hv _ (List.mem_cons_self ..)
  | .list .nil, fuel + 1, ps, us, v, hps, hv, _ => by
    obtain ⟨rs, hskip, hrs⟩ := exists_skipped_mark hps
    obtain ⟨rs', hskip', hrs'⟩ := exists_skipped_mark hrs
    cases hv
    refine ⟨rs', ?_, hrs'⟩
    rw [hskip]
    simp only [readValue, hskip']
  | .list (.cons d ds), fuel + 1, ps, us, v, hps, hv, hfuel => by
    obtain ⟨vs, hvs, rfl⟩ := Option.map_eq_some_iff.mp hv
    simp only [Doc.tokens, List.cons_append, List.append_assoc, List.nil_append, List.length_cons, List.length_append,
      List.length_nil] at hps hfuel
    obtain ⟨rs, hskip, hrs⟩ := exists_skipped_mark hps
    have hopens := not_closing ((Docs.cons d ds).shaped.resolve_left nofun) hrs (k := ']') rfl
    obtain ⟨rs', hread, hrs'⟩ := (Docs.cons d ds).exists_readItems fuel [] nofun hrs hvs (by omega)
    exact ⟨rs', by rw [hskip, readValue_list hopens, hread, List.reverse_nil, List.nil_append], hrs'⟩
  | .object .nil, fuel + 1, ps, us, v, hps, hv, _ => by
    obtain ⟨rs, hskip, hrs⟩ := exists_skipped_mark hps
    obtain ⟨rs', hskip', hrs'⟩ := exists_skipped_mark hrs
    cases hv
    refine ⟨rs', ?_, hrs'⟩
    rw [hskip]
    simp only [readValue, hskip']
    rfl
  | .object (.cons key d es), fuel + 1, ps, us, v, hps, hv, hfuel => by
    obtain ⟨ms, hms, rfl⟩ := Option.map_eq_some_iff.mp hv
    simp only [Doc.tokens, List.cons_append, List.append_assoc, List.nil_append, List.length_cons, List.length_append,
      List.length_nil] at hps hfuel
    obtain ⟨rs, hskip, hrs⟩ := exists_skipped_mark hps
    have hopens := not_closing ((Entries.cons key d es).shaped.resolve_left nofun) hrs (k := '\x7d') rfl
    obtain ⟨rs', hread, hrs'⟩ := (Entries.cons key d es).exists_readMembers fuel [] nofun hrs hms (by omega)
    exact ⟨rs', by rw [hskip, readValue_object hopens, hread, Members.ofList], hrs'⟩

theorem Docs.exists_readItems : ∀ (ds : Docs) (fuel : Nat) (seen : List Value) {ps us vs}, ds ≠ .nil →
    LeftBehind (ds.tokens ++ .mark ']' :: us) ps → ds.values? = some vs → 2 * ds.tokens.length < fuel →
    ∃ rs, readItems fuel seen (skipBlanks (written ps)) = .ok (.list (seen.reverse ++ vs), written rs) ∧
      LeftBehind us rs
  | .nil, _, _, _, _, _, hne, _, _, _ => absurd rfl hne
  | .cons d .nil, fuel + 1, seen, ps, us, vs, _, hps, hvs, hfuel => by
    obtain ⟨v, more, hv, hmore, rfl⟩ := Docs.values?_cons.mp hvs
    obtain rfl : [] = more := Option.some.inj hmore
    simp only [Docs.tokens] at hps hfuel
    obtain ⟨rs, hread, hrs⟩ := d.exists_readValue fuel hps hv (by omega)
    obtain ⟨rs', hskip, hrs'⟩ := exists_skipped_mark hrs
    exact ⟨rs', by rw [readItems_last hread hskip, List.reverse_cons], hrs'⟩
  | .cons d (.cons e ds), fuel + 1, seen, ps, us, vs, _, hps, hvs, hfuel => by
    obtain ⟨v, vs', hv, hvs', rfl⟩ := Docs.values?_cons.mp hvs
    simp only [Docs.tokens, List.append_assoc, List.cons_append, List.length_append, List.length_cons] at hps hfuel
    obtain ⟨rs, hread, hrs⟩ := d.exists_readValue fuel hps hv (by omega)
    obtain ⟨rs', hskip, hrs'⟩ := exists_skipped_mark hrs
    obtain ⟨rs'', hread', hrs''⟩ :=
      (Docs.cons e ds).exists_readItems fuel (v :: seen) nofun hrs' hvs' (by omega)
    exact ⟨rs'', by rw [readItems_more hread hskip, hread']; simp, hrs''⟩

theorem Entries.exists_readMembers : ∀ (es : Entries) (fuel : Nat) (seen : Members) {ps us ms}, es ≠ .nil →
    LeftBehind (es.tokens ++ .mark '\x7d' :: us) ps → es.values? = some ms → 2 * es.tokens.length < fuel →
    ∃ rs, readMembers fuel seen (skipBlanks (written ps)) = .ok (.object (Keyed.merge seen ms), written rs) ∧
      LeftBehind us rs
  | .nil, _, _, _, _, _, hne, _, _, _ => absurd rfl hne
  | .cons body d .nil, fuel + 1, seen, ps, us, ms, _, hps, hms, hfuel => by
    obtain ⟨key, v, more, hkey, hv, hmore, rfl⟩ := Entries.values?_cons.mp hms
    obtain rfl : [] = more := Option.some.inj hmore
    simp only [Entries.tokens, List.cons_append, List.length_cons] at hps hfuel
    obtain ⟨rs, hquote, hrs, -⟩ := exists_skipped hps
    obtain ⟨rs', hcolon, hrs'⟩ := exists_skipped_mark hrs
    obtain ⟨rs'', hread, hrs''⟩ := d.exists_readValue fuel hrs' hv (by omega)
    obtain ⟨rs₃, hskip, hrs₃⟩ := exists_skipped_mark hrs''
    refine ⟨rs₃, ?_, hrs₃⟩
    rw [hquote, Token.text_literal, readMembers_last hkey hcolon hread hskip]
    rfl
  | .cons body d (.cons body' e es), fuel + 1, seen, ps, us, ms, _, hps, hms, hfuel => by
    obtain ⟨key, v, ms', hkey, hv, hms', rfl⟩ := Entries.values?_cons.mp hms
    simp only [Entries.tokens, List.append_assoc, List.cons_append, List.length_append, List.length_cons] at hps hfuel
    obtain ⟨rs, hquote, hrs, -⟩ := exists_skipped hps
    obtain ⟨rs', hcolon, hrs'⟩ := exists_skipped_mark hrs
    obtain ⟨rs'', hread, hrs''⟩ := d.exists_readValue fuel hrs' hv (by omega)
    obtain ⟨rs₃, hskip, hrs₃⟩ := exists_skipped_mark hrs''
    obtain ⟨rs₄, hread', hrs₄⟩ := (Entries.cons body' e es).exists_readMembers fuel (Keyed.set seen key v) nofun
      hrs₃ hms' (by omega)
    refine ⟨rs₄, ?_, hrs₄⟩
    rw [hquote, Token.text_literal, readMembers_more hkey hcolon hread hskip, hread']
    rfl

end

/-! ### Whole texts -/

theorem length_extendWord_le (c : Char) (joined : Bool) (ts : List Token) :
    (extendWord c joined ts).length ≤ ts.length + 1 := by
  unfold extendWord
  split
  · split <;> simp
  · simp

theorem length_tokens_le (ps : List Piece) : (tokens ps).length ≤ (written ps).length := by
  induction ps with
  | nil => rfl
  | cons p ps ih =>
    have hpos := List.length_pos_iff.mpr p.text_ne_nil
    rw [written_cons, List.length_append]
    cases p with
    | literal _ | unclosedLiteral _ =>
      simp only [tokens, List.length_cons]
      omega
    | lineComment _ | blockComment _ | unclosedComment _ =>
      simp only [tokens]
      omega
    | char c =>
      have hextend := length_extendWord_le c (startsInWord ps) (tokens ps)
      simp only [tokens]
      split
      · omega
      split
      · rw [List.length_cons]
        omega
      · omega

/-- Nothing but blanks and comments stands where there are no tokens. -/
theorem gaps_of_tokens_eq_nil {ps : List Piece} (h : tokens ps = []) : ∀ p ∈ ps, p.isGap = true := by
  induction ps with
  | nil => simp
  | cons p ps ih =>
    cases hgap : p.isGap with
    | true =>
      rw [tokens_gap hgap] at h
      exact List.forall_mem_cons.mpr ⟨hgap, ih h⟩
    | false =>
      cases p with
      | literal _ | unclosedLiteral _ => cases h
      | lineComment _ | blockComment _ | unclosedComment _ => cases hgap
      | char c =>
        rcases Piece.cases_char c with hblank | hmark | hword
        · rw [hblank] at hgap
          cases hgap
        · rw [tokens_mark hmark] at h
          cases h
        · obtain ⟨cs, ts, hts⟩ := exists_word_of_isWordChar ps hword
          rw [hts] at h
          cases h

/-- A document that begins with a byte order mark holds no value. -/
theorem readValue_byteOrderMark (fuel : Nat) (cs : List Char) :
    readValue (fuel + 1) ('\uFEFF' :: cs) = stop .expectingValue ('\uFEFF' :: cs) := rfl

/-- Pieces without comments that have the tokens of a tree with a value are read as that value. -/
theorem readChars_written {ps : List Piece} {d : Doc} {v : Value} (hplain : ∀ p ∈ ps, p.isComment = false)
    (hps : tokens ps = d.tokens) (hv : d.value? = some v) : readChars (written ps) = .ok v := by
  have hfuel : 2 * d.tokens.length ≤ 2 * (written ps).length + 2 := by
    have hle := length_tokens_le ps
    rw [hps] at hle
    omega
  have hall : LeftBehind (d.tokens ++ []) ps := ⟨hplain, by simpa using hps⟩
  obtain ⟨rs, hread, hrs⟩ := d.exists_readValue _ hall hv hfuel
  have hnone : skipBlanks (written rs) = [] := by
    simpa [skipBlanks] using skipBlanks_written (gaps_of_tokens_eq_nil hrs.tokens) hrs.plain []
  unfold readChars
  split
  · rename_i cs hmark
    rw [hmark, skipBlanks_of_not_blank rfl, readValue_byteOrderMark] at hread
    cases hread
  · rw [hread]
    simp [hnone]

/-- A text is read as a value exactly when there are no comments in it and its tokens are those of a tree with this
value. -/
theorem readChars_eq_ok_iff {cs : List Char} {v : Value} : readChars cs = .ok v ↔
    (∀ p ∈ pieces cs, p.isComment = false) ∧ ∃ d : Doc, tokens (pieces cs) = d.tokens ∧ d.value? = some v := by
  constructor
  · intro h
    unfold readChars at h
    split at h
    · cases h
    split at h
    · cases h
    rename_i u rest hread
    split at h
    · rename_i hnone
      cases h
      have hfollows : Follows rest := fun c hc => by
        obtain ⟨rest, rfl⟩ := List.head?_eq_some_iff.mp hc
        cases hblank : isBlank c with
        | true => exact .inl rfl
        | false =>
          rw [skipBlanks_of_not_blank hblank] at hnone
          cases hnone
      -- Blanks, the tree and blanks again make up the whole text.
      obtain ⟨d, hd, htook⟩ := (reads _).1 hread hfollows
      have hend := took_blanks rest
      rw [hnone] at hend
      obtain ⟨qs, hqs, hplain, htokens⟩ := ((took_blanks cs).trans htook).trans hend
      rw [show pieces [] = [] from rfl, List.append_nil] at hqs
      rw [hqs] at htokens ⊢
      exact ⟨hplain, d, by simpa [show pieces [] = [] from rfl] using htokens, hd⟩
    · cases h
  · rintro ⟨hplain, d, hd, hv⟩
    have hread := readChars_written hplain hd hv
    rwa [(splits_pieces cs).2] at hread

end Codemod.Json
