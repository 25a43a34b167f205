import Codemod.Proofs.SpelledStrings
import Mathlib.Data.List.Chain

/-!
# The tokens of a document

Between blanks and comments a document is a row of tokens: marks, literals and words, which are the longest runs of
other characters. Numbers and the names of values are words. A document as a tree has its own row of tokens, and a
value if each of its literals and words has one.

Main statements:

* `tokens_append` says that rows join where no word goes on;
* `exists_of_tokens_eq_cons` and `exists_of_tokens_eq_append` find the pieces of a token and of a row of them;
* `Doc.exists_value?_iff` says which trees have a value;
* `Doc.shaped` says what stands next to what in the tokens of a tree, and `Doc.closesWell` what stands before a closing
  bracket.
-/

namespace Codemod.Json

/-! ### Tokens of pieces -/

/-- A token of a document. -/
inductive Token where
  /-- A bracket, a comma or a colon. -/
  | mark (c : Char)
  | literal (body : List Char)
  | unclosedLiteral (body : List Char)
  | word (cs : List Char)
  deriving DecidableEq, Repr

/-- Whether a character is a token of its own. -/
def isMark (c : Char) : Bool :=
  c == '[' || c == ']' || c == '\x7b' || c == '\x7d' || c == ',' || c == ':'

/-- Whether a character belongs to a word. -/
def isWordChar (c : Char) : Bool :=
  !isBlank c && !isMark c

namespace Piece

/-- Whether a piece is a character of a word. -/
def inWord : Piece → Bool
  | char c => isWordChar c
  | _ => false

/-- Whether a piece stands between tokens: it is a blank or a comment. -/
def isGap : Piece → Bool
  | char c => isBlank c
  | p => p.isComment

end Piece

/-- The pieces of a token. -/
def Token.pieces : Token → List Piece
  | mark c => [.char c]
  | literal body => [.literal body]
  | unclosedLiteral body => [.unclosedLiteral body]
  | word cs => cs.map .char

/-- Whether pieces begin in a word. -/
def startsInWord (ps : List Piece) : Bool :=
  ps.head?.any Piece.inWord

/-- A character of a word before tokens. If the tokens begin in the same word, it belongs to the first of them. -/
def extendWord (c : Char) (joined : Bool) : List Token → List Token
  | .word cs :: ts => if joined then .word (c :: cs) :: ts else .word [c] :: .word cs :: ts
  | ts => .word [c] :: ts

/-- The tokens of pieces. A blank separates tokens, and so does a comment. -/
def tokens : List Piece → List Token
  | [] => []
  | .literal body :: ps => .literal body :: tokens ps
  | .unclosedLiteral body :: ps => .unclosedLiteral body :: tokens ps
  | .char c :: ps =>
    if isBlank c then tokens ps
    else if isMark c then .mark c :: tokens ps
    else extendWord c (startsInWord ps) (tokens ps)
  | .lineComment _ :: ps | .blockComment _ :: ps | .unclosedComment _ :: ps => tokens ps

section

variable {ps qs : List Piece} {p : Piece} {t : Token} {ts us : List Token} {c : Char} {cs : List Char}

@[simp] theorem tokens_nil : tokens [] = [] := rfl

@[simp] theorem tokens_literal : tokens (.literal cs :: ps) = .literal cs :: tokens ps := rfl

theorem isBlank_of_isMark (h : isMark c = true) : isBlank c = false := by
  simp only [isMark, Bool.or_eq_true, beq_iff_eq] at h
  rcases h with ((((rfl | rfl) | rfl) | rfl) | rfl) | rfl <;> rfl

theorem tokens_mark (h : isMark c = true) : tokens (.char c :: ps) = .mark c :: tokens ps := by
  simp [tokens, isBlank_of_isMark h, h]

theorem tokens_gap (h : p.isGap = true) : tokens (p :: ps) = tokens ps := by
  cases p with
  | char c => exact if_pos h
  | literal _ | unclosedLiteral _ => cases h
  | lineComment _ | blockComment _ | unclosedComment _ => rfl

theorem tokens_gaps (h : ∀ p ∈ ps, p.isGap = true) : tokens (ps ++ qs) = tokens qs := by
  induction ps with
  | nil => rfl
  | cons p ps ih =>
    obtain ⟨hp, hps⟩ := List.forall_mem_cons.mp h
    rw [List.cons_append, tokens_gap hp, ih hps]

theorem tokens_inWord (h : isWordChar c = true) :
    tokens (.char c :: ps) = extendWord c (startsInWord ps) (tokens ps) := by
  obtain ⟨hblank, hmark⟩ := Bool.and_eq_true_iff.mp h
  simp only [Bool.not_eq_true'] at hblank hmark
  simp [tokens, hblank, hmark]

@[simp] theorem extendWord_false : extendWord c false ts = .word [c] :: ts := by
  unfold extendWord
  split <;> simp

/-- Pieces that begin in a word have it as their first token. -/
theorem exists_word_of_startsInWord (h : startsInWord ps = true) : ∃ cs ts, tokens ps = .word cs :: ts := by
  cases ps with
  | nil => cases h
  | cons p ps =>
    cases p with
    | char c =>
      rw [tokens_inWord h]
      unfold extendWord
      split
      · split <;> exact ⟨_, _, rfl⟩
      · exact ⟨_, _, rfl⟩
    | literal _ | unclosedLiteral _ | lineComment _ | blockComment _ | unclosedComment _ => cases h

theorem exists_word_of_isWordChar {c : Char} (ps : List Piece) (hc : isWordChar c = true) :
    ∃ cs ts, tokens (.char c :: ps) = .word cs :: ts := by
  have hstarts : startsInWord (.char c :: ps) = true := hc
  exact exists_word_of_startsInWord hstarts

theorem Piece.cases_char (c : Char) : (Piece.char c).isGap = true ∨ isMark c = true ∨ isWordChar c = true := by
  cases hblank : isBlank c with
  | true => exact .inl hblank
  | false => cases hmark : isMark c <;> simp [isWordChar, hblank, hmark]

/-- The tokens of pieces are those of their parts where no word goes on from one to the other. -/
theorem tokens_append (h : startsInWord qs = false) : tokens (ps ++ qs) = tokens ps ++ tokens qs := by
  induction ps with
  | nil => rfl
  | cons p ps ih =>
    cases p with
    | literal _ | unclosedLiteral _ => exact congrArg (_ :: ·) ih
    | lineComment _ | blockComment _ | unclosedComment _ => exact ih
    | char c =>
      rw [List.cons_append]
      rcases Piece.cases_char c with hgap | hmark | hword
      · rw [tokens_gap hgap, tokens_gap hgap, ih]
      · rw [tokens_mark hmark, tokens_mark hmark, ih, List.cons_append]
      · rw [tokens_inWord hword, tokens_inWord hword, ih]
        -- Whether the word goes on is seen in the first part, unless this is its last character.
        cases hstarts : startsInWord ps with
        | true =>
          have hsame : startsInWord (ps ++ qs) = true := by
            cases ps with
            | nil => cases hstarts
            | cons p ps => exact hstarts
          obtain ⟨cs, ts, hts⟩ := exists_word_of_startsInWord hstarts
          simp [hsame, hts, extendWord]
        | false =>
          have hsame : startsInWord (ps ++ qs) = false := by
            cases ps with
            | nil => exact h
            | cons p ps => exact hstarts
          simp [hsame]

/-- The characters of a word are one token. -/
theorem tokens_word (hne : cs ≠ []) (hcs : ∀ c ∈ cs, isWordChar c = true) : tokens (cs.map .char) = [.word cs] := by
  induction cs with
  | nil => exact absurd rfl hne
  | cons c cs ih =>
    obtain ⟨hc, hcs⟩ := List.forall_mem_cons.mp hcs
    rw [List.map_cons, tokens_inWord hc]
    cases cs with
    | nil => rfl
    | cons d cs =>
      have hstarts : startsInWord ((d :: cs).map .char) = true := (List.forall_mem_cons.mp hcs).1
      rw [ih (by simp) hcs, hstarts]
      rfl

/-- Pieces begin with the characters of a word up to its end, which may be none. -/
theorem exists_word (ps : List Piece) : ∃ (cs : List Char) (qs : List Piece), ps = cs.map .char ++ qs ∧
    (∀ c ∈ cs, isWordChar c = true) ∧ startsInWord qs = false := by
  induction ps with
  | nil => exact ⟨[], [], rfl, by simp, rfl⟩
  | cons p ps ih =>
    cases hp : p.inWord with
    | false => exact ⟨[], p :: ps, rfl, by simp, hp⟩
    | true =>
      obtain ⟨cs, qs, rfl, hcs, hqs⟩ := ih
      cases p with
      | char c => exact ⟨c :: cs, qs, rfl, List.forall_mem_cons.mpr ⟨hp, hcs⟩, hqs⟩
      | literal _ | unclosedLiteral _ | lineComment _ | blockComment _ | unclosedComment _ => cases hp

/-- Whether a token can stand in a text: a mark is one, and a word has characters, all of them of words. -/
def Token.Proper : Token → Prop
  | mark c => isMark c = true
  | literal _ | unclosedLiteral _ => True
  | word cs => cs ≠ [] ∧ ∀ c ∈ cs, isWordChar c = true

/-- The first token of pieces stands behind a gap, and a word goes up to its end. -/
theorem exists_of_tokens_eq_cons (h : tokens ps = t :: ts) : ∃ gap qs, ps = gap ++ t.pieces ++ qs ∧
    (∀ p ∈ gap, p.isGap = true) ∧ t.Proper ∧ tokens qs = ts ∧ (∀ cs, t = .word cs → startsInWord qs = false) := by
  induction ps with
  | nil => cases h
  | cons p ps ih =>
    cases hgap : p.isGap with
    | true =>
      rw [tokens_gap hgap] at h
      obtain ⟨gap, qs, rfl, hall, hrest⟩ := ih h
      exact ⟨p :: gap, qs, rfl, List.forall_mem_cons.mpr ⟨hgap, hall⟩, hrest⟩
    | false =>
      cases p with
      | literal body =>
        obtain ⟨rfl, rfl⟩ := List.cons.inj h
        exact ⟨[], ps, rfl, by simp, trivial, rfl, fun _ h => by cases h⟩
      | unclosedLiteral body =>
        obtain ⟨rfl, rfl⟩ := List.cons.inj h
        exact ⟨[], ps, rfl, by simp, trivial, rfl, fun _ h => by cases h⟩
      | lineComment _ | blockComment _ | unclosedComment _ => cases hgap
      | char c =>
        rcases Piece.cases_char c with hblank | hmark | hword
        · rw [hblank] at hgap
          cases hgap
        · rw [tokens_mark hmark] at h
          obtain ⟨rfl, rfl⟩ := List.cons.inj h
          exact ⟨[], ps, rfl, by simp, hmark, rfl, fun _ h => by cases h⟩
        · -- The token is the whole word, so the pieces are cut at its end.
          obtain ⟨cs, qs, hps, hcs, hqs⟩ := exists_word (.char c :: ps)
          have hne : cs ≠ [] := by
            rintro rfl
            rw [List.map_nil, List.nil_append] at hps
            rw [← hps] at hqs
            exact Bool.false_ne_true (hqs.symm.trans hword)
          rw [hps, tokens_append hqs, tokens_word hne hcs] at h
          obtain ⟨rfl, rfl⟩ := List.cons.inj h
          exact ⟨[], qs, hps, by simp, ⟨hne, hcs⟩, rfl, fun _ _ => hqs⟩

/-- Where tokens fall into two rows, so do their pieces. -/
theorem exists_of_tokens_eq_append (h : tokens ps = ts ++ us) :
    ∃ qs rs, ps = qs ++ rs ∧ tokens qs = ts ∧ tokens rs = us := by
  induction ts generalizing ps with
  | nil => exact ⟨[], ps, rfl, rfl, h⟩
  | cons t ts ih =>
    obtain ⟨gap, rest, rfl, hgap, hproper, hrest, hends⟩ := exists_of_tokens_eq_cons h
    obtain ⟨qs, rs, rfl, rfl, hrs⟩ := ih hrest
    refine ⟨gap ++ t.pieces ++ qs, rs, by simp, ?_, hrs⟩
    rw [List.append_assoc, tokens_gaps hgap]
    cases t with
    | mark c => exact tokens_mark hproper
    | literal body => rfl
    | unclosedLiteral body => rfl
    | word cs =>
      have hqs : startsInWord qs = false := by
        cases qs with
        | nil => rfl
        | cons q qs => exact hends cs rfl
      rw [Token.pieces, tokens_append hqs, tokens_word hproper.1 hproper.2]
      rfl

end

/-! ### Documents as trees -/

mutual

/-- A document as a tree. Its literals and words are kept as they are written. -/
inductive Doc where
  | literal (body : List Char)
  | word (cs : List Char)
  | list (items : Docs)
  | object (members : Entries)

/-- The items of a list. -/
inductive Docs where
  | nil
  | cons (d : Doc) (rest : Docs)

/-- The members of an object, the key of each of them being what stands between its quotes. -/
inductive Entries where
  | nil
  | cons (key : List Char) (d : Doc) (rest : Entries)

end

mutual

/-- The tokens of a document. -/
def Doc.tokens : Doc → List Token
  | .literal body => [.literal body]
  | .word cs => [.word cs]
  | .list items => .mark '[' :: (items.tokens ++ [.mark ']'])
  | .object members => .mark '\x7b' :: (members.tokens ++ [.mark '\x7d'])

/-- The tokens of items with commas between them. -/
def Docs.tokens : Docs → List Token
  | .nil => []
  | .cons d .nil => d.tokens
  | .cons d (.cons e rest) => d.tokens ++ .mark ',' :: (Docs.cons e rest).tokens

/-- The tokens of members with commas between them. -/
def Entries.tokens : Entries → List Token
  | .nil => []
  | .cons key d .nil => .literal key :: .mark ':' :: d.tokens
  | .cons key d (.cons key' e rest) =>
    .literal key :: .mark ':' :: (d.tokens ++ .mark ',' :: (Entries.cons key' e rest).tokens)

end

/-- The string that a literal stands for. -/
def literal? (body : List Char) : Option String :=
  match readString [] (body.length + 1) [] (body ++ ['"']) with
  | .ok (s, []) => some s
  | _ => none

/-- A value that is written as a word or a number. -/
def readScalar (cs : List Char) : Except Stop (Value × List Char) :=
  match readWord cs with
  | some r => .ok r
  | none =>
    match cs with
    | '-' :: rest => readNumber true cs rest
    | _ => readNumber false cs cs

/-- The value that a word stands for as a whole. -/
def scalar? (cs : List Char) : Option Value :=
  match readScalar cs with
  | .ok (v, []) => some v
  | _ => none

mutual

/-- The value of a document. -/
def Doc.value? : Doc → Option Value
  | .literal body => (literal? body).map .text
  | .word cs => scalar? cs
  | .list items => items.values?.map .list
  | .object members => members.values?.map fun l => .object (Members.ofList l)

/-- The values of items. -/
def Docs.values? : Docs → Option (List Value)
  | .nil => some []
  | .cons d rest => do
    let v ← d.value?
    let vs ← rest.values?
    some (v :: vs)

/-- The keys and the values of members, a repeated key each time. -/
def Entries.values? : Entries → Option (List (String × Value))
  | .nil => some []
  | .cons key d rest => do
    let k ← literal? key
    let v ← d.value?
    let ms ← rest.values?
    some ((k, v) :: ms)

end

theorem Docs.values?_cons {d : Doc} {rest : Docs} {vs : List Value} : (Docs.cons d rest).values? = some vs ↔
    ∃ v more, d.value? = some v ∧ rest.values? = some more ∧ v :: more = vs := by
  simp [Docs.values?, Option.bind_eq_some_iff]

theorem Entries.values?_cons {key : List Char} {d : Doc} {rest : Entries} {ms : List (String × Value)} :
    (Entries.cons key d rest).values? = some ms ↔
      ∃ k v more, literal? key = some k ∧ d.value? = some v ∧ rest.values? = some more ∧ (k, v) :: more = ms := by
  simp [Entries.values?, Option.bind_eq_some_iff]

theorem Docs.exists_values?_cons {d : Doc} {rest : Docs} : (∃ vs, (Docs.cons d rest).values? = some vs) ↔
    (∃ v, d.value? = some v) ∧ ∃ vs, rest.values? = some vs := by
  constructor
  · rintro ⟨vs, h⟩
    obtain ⟨v, more, hv, hmore, -⟩ := Docs.values?_cons.mp h
    exact ⟨⟨v, hv⟩, more, hmore⟩
  · rintro ⟨⟨v, hv⟩, more, hmore⟩
    exact ⟨v :: more, Docs.values?_cons.mpr ⟨v, more, hv, hmore, rfl⟩⟩

theorem Entries.exists_values?_cons {key : List Char} {d : Doc} {rest : Entries} :
    (∃ ms, (Entries.cons key d rest).values? = some ms) ↔
      (∃ k, literal? key = some k) ∧ (∃ v, d.value? = some v) ∧ ∃ ms, rest.values? = some ms := by
  constructor
  · rintro ⟨ms, h⟩
    obtain ⟨k, v, more, hk, hv, hmore, -⟩ := Entries.values?_cons.mp h
    exact ⟨⟨k, hk⟩, ⟨v, hv⟩, more, hmore⟩
  · rintro ⟨⟨k, hk⟩, ⟨v, hv⟩, more, hmore⟩
    exact ⟨(k, v) :: more, Entries.values?_cons.mpr ⟨k, v, more, hk, hv, hmore, rfl⟩⟩

theorem literal?_eq_some_iff {body : List Char} {s : String} :
    literal? body = some s ↔ ∃ chars, Spells body chars ∧ s = String.ofList chars := by
  unfold literal?
  constructor
  · intro h
    split at h
    · rename_i s' hread
      cases h
      obtain ⟨body', chars, hbody, hspells, rfl⟩ := exists_spells_of_readString hread
      obtain ⟨rfl, -⟩ := List.append_inj' hbody rfl
      exact ⟨chars, hspells, by simp⟩
    · cases h
  · rintro ⟨chars, hspells, rfl⟩
    have hread : readString [] (body.length + 1) [] (body ++ ['"']) = .ok (String.ofList chars, []) :=
      readString_of_spells hspells (Nat.lt_succ_self _)
    rw [hread]

/-- Whether a token has a value of its own, if it needs one. -/
def Token.Valued : Token → Prop
  | mark _ => True
  | literal body => ∃ s, literal? body = some s
  | unclosedLiteral _ => False
  | word cs => ∃ v, scalar? cs = some v

mutual

/-- A document has a value exactly when each of its literals and words has one. -/
theorem Doc.exists_value?_iff : ∀ d : Doc, (∃ v, d.value? = some v) ↔ ∀ t ∈ d.tokens, t.Valued
  | .literal body => by simp [Doc.value?, Doc.tokens, Token.Valued]
  | .word cs => by simp [Doc.value?, Doc.tokens, Token.Valued]
  | .list items => by
    have ih := Docs.exists_values?_iff items
    simp only [Doc.value?, Doc.tokens, List.forall_mem_cons, List.forall_mem_append, ← ih]
    simp [Token.Valued]
  | .object members => by
    have ih := Entries.exists_values?_iff members
    simp only [Doc.value?, Doc.tokens, List.forall_mem_cons, List.forall_mem_append, ← ih]
    simp [Token.Valued]

theorem Docs.exists_values?_iff : ∀ ds : Docs, (∃ vs, ds.values? = some vs) ↔ ∀ t ∈ ds.tokens, t.Valued
  | .nil => by simp [Docs.values?, Docs.tokens]
  | .cons d .nil => by
    have ih := Doc.exists_value?_iff d
    simp only [Docs.tokens, ← ih, Docs.exists_values?_cons]
    simp [Docs.values?]
  | .cons d (.cons e rest) => by
    have ih := Doc.exists_value?_iff d
    have ihrest := Docs.exists_values?_iff (.cons e rest)
    simp only [Docs.tokens, List.forall_mem_append, List.forall_mem_cons, ← ih, ← ihrest]
    simp [Docs.exists_values?_cons (d := d), Token.Valued]

theorem Entries.exists_values?_iff : ∀ es : Entries, (∃ ms, es.values? = some ms) ↔ ∀ t ∈ es.tokens, t.Valued
  | .nil => by simp [Entries.values?, Entries.tokens]
  | .cons key d .nil => by
    have ih := Doc.exists_value?_iff d
    simp only [Entries.tokens, List.forall_mem_cons, ← ih, Entries.exists_values?_cons]
    simp [Entries.values?, Token.Valued]
  | .cons key d (.cons key' e rest) => by
    have ih := Doc.exists_value?_iff d
    have ihrest := Entries.exists_values?_iff (.cons key' e rest)
    simp only [Entries.tokens, List.forall_mem_append, List.forall_mem_cons, ← ih, ← ihrest]
    simp [Entries.exists_values?_cons (d := d), Token.Valued]

end

/-! ### What stands next to what -/

/-- An opening bracket. -/
def isOpening (c : Char) : Bool :=
  c == '[' || c == '\x7b'

/-- A closing bracket. -/
def isClosing (c : Char) : Bool :=
  c == ']' || c == '\x7d'

namespace Token

/-- Whether a value can begin with a token. -/
def begins : Token → Bool
  | mark c => isOpening c
  | _ => true

/-- Whether a value can end with a token. -/
def ends : Token → Bool
  | mark c => isClosing c
  | _ => true

/-- Whether a token may stand directly before another one: no value follows a value, and a comma stands between two of
them. -/
structure MayPrecede (t u : Token) : Prop where
  values : t.ends = true → u.begins = false
  behind : t = mark ',' → u.begins = true
  before : u = mark ',' → t.ends = true

variable {t u : Token} {c : Char}

theorem MayPrecede.separator (ht : t.ends = true) (hc : c = ',' ∨ c = ':') : MayPrecede t (mark c) :=
  ⟨fun _ => (by rcases hc with rfl | rfl <;> rfl), fun h => (by rw [h] at ht; cases ht), fun _ => ht⟩

theorem MayPrecede.behind_separator (hu : u.begins = true) (hc : c = ',' ∨ c = ':') : MayPrecede (mark c) u :=
  ⟨fun h => by rcases hc with rfl | rfl <;> exact (Bool.false_ne_true h).elim, fun _ => hu,
    fun h => by rw [h] at hu; cases hu⟩

theorem MayPrecede.behind_opening (hu : u.begins = true) (hc : isOpening c = true) : MayPrecede (mark c) u := by
  simp only [isOpening, Bool.or_eq_true, beq_iff_eq] at hc
  refine ⟨fun h => ?_, fun _ => hu, fun h => by rw [h] at hu; cases hu⟩
  rcases hc with rfl | rfl <;> exact (Bool.false_ne_true h).elim

theorem MayPrecede.closing (ht : t.ends = true) (hc : isClosing c = true) : MayPrecede t (mark c) := by
  simp only [isClosing, Bool.or_eq_true, beq_iff_eq] at hc
  refine ⟨fun _ => ?_, fun h => (by rw [h] at ht; cases ht), fun _ => ht⟩
  rcases hc with rfl | rfl <;> rfl

end Token

/-- Whether tokens can be those of a value by what stands next to what. -/
structure Shaped (ts : List Token) : Prop where
  next : ts.IsChain Token.MayPrecede
  first : ∃ t ∈ ts.head?, t.begins = true
  last : ∃ t ∈ ts.getLast?, t.ends = true

namespace Shaped

variable {ts us : List Token}

theorem single {t : Token} (hbegins : t.begins = true) (hends : t.ends = true) : Shaped [t] :=
  ⟨.singleton t, ⟨t, rfl, hbegins⟩, ⟨t, rfl, hends⟩⟩

theorem ne_nil (hts : Shaped ts) : ts ≠ [] := by
  rintro rfl
  obtain ⟨t, ht, -⟩ := hts.first
  cases ht

/-- A comma or a colon joins tokens. -/
theorem join {c : Char} (hts : Shaped ts) (hus : Shaped us) (hc : c = ',' ∨ c = ':') :
    Shaped (ts ++ .mark c :: us) := by
  obtain ⟨first, hfirst, hbegins⟩ := hts.first
  obtain ⟨last, hlast, hends⟩ := hts.last
  obtain ⟨first', hfirst', hbegins'⟩ := hus.first
  obtain ⟨last', hlast', hends'⟩ := hus.last
  refine ⟨?_, ⟨first, ?_, hbegins⟩, ⟨last', ?_, hends'⟩⟩
  · have hbehind : (.mark c :: us).IsChain Token.MayPrecede := by
      refine List.isChain_cons.mpr ⟨fun u hu => ?_, hus.next⟩
      obtain rfl := Option.mem_unique hu hfirst'
      exact .behind_separator hbegins' hc
    refine hts.next.append hbehind fun t ht u hu => ?_
    obtain rfl := Option.mem_unique ht hlast
    obtain rfl := Option.mem_unique hu rfl
    exact .separator hends hc
  · exact List.mem_head?_append_of_mem_head? hfirst
  · simp [List.getLast?_cons, Option.mem_def.mp hlast']

/-- Brackets around tokens, or around nothing. -/
theorem enclosed {o k : Char} (hts : ts = [] ∨ Shaped ts) (ho : isOpening o = true) (hk : isClosing k = true) :
    Shaped (.mark o :: (ts ++ [.mark k])) := by
  refine ⟨?_, ⟨.mark o, rfl, ho⟩, ⟨.mark k, ?_, hk⟩⟩
  rcases hts with rfl | hts
  · simp only [isOpening, isClosing, Bool.or_eq_true, beq_iff_eq] at ho hk
    refine List.isChain_pair.mpr ⟨fun _ => ?_, fun h => ?_, fun h => ?_⟩
    · rcases hk with rfl | rfl <;> rfl
    · rcases ho with rfl | rfl <;> cases h
    · rcases hk with rfl | rfl <;> cases h
  · obtain ⟨first, hfirst, hbegins⟩ := hts.first
    obtain ⟨last, hlast, hends⟩ := hts.last
    refine List.isChain_cons.mpr ⟨fun u hu => ?_, hts.next.append (.singleton _) fun t ht u hu => ?_⟩
    · obtain rfl := Option.mem_unique hu (List.mem_head?_append_of_mem_head? hfirst)
      exact .behind_opening hbegins ho
    · obtain rfl := Option.mem_unique ht hlast
      obtain rfl := Option.mem_unique hu rfl
      exact .closing hends hk
  · rw [← List.cons_append, List.getLast?_concat]
    rfl

end Shaped

mutual

/-- The tokens of a document stand next to each other as they may. -/
theorem Doc.shaped : ∀ d : Doc, Shaped d.tokens
  | .literal _ | .word _ => .single rfl rfl
  | .list items => .enclosed (items.shaped.imp_left fun h => by rw [h]; rfl) rfl rfl
  | .object members => .enclosed (members.shaped.imp_left fun h => by rw [h]; rfl) rfl rfl

theorem Docs.shaped : ∀ ds : Docs, ds = .nil ∨ Shaped ds.tokens
  | .nil => .inl rfl
  | .cons d .nil => .inr d.shaped
  | .cons d (.cons e rest) => .inr (d.shaped.join ((Docs.cons e rest).shaped.resolve_left nofun) (.inl rfl))

theorem Entries.shaped : ∀ es : Entries, es = .nil ∨ Shaped es.tokens
  | .nil => .inl rfl
  | .cons key d .nil => .inr ((Shaped.single (t := .literal key) rfl rfl).join d.shaped (.inr rfl))
  | .cons key d (.cons key' e rest) => by
    have hrest := (Entries.cons key' e rest).shaped.resolve_left nofun
    have hmember := (Shaped.single (t := .literal key) rfl rfl).join d.shaped (.inr rfl)
    exact .inr (by simpa [Entries.tokens] using hmember.join hrest (.inl rfl))

end

/-! ### What stands before closing brackets -/

/-- Whether tokens end in those of a document. -/
def EndsInDoc (ts : List Token) : Prop :=
  ∃ (most : List Token) (d : Doc), ts = most ++ d.tokens

/-- Whether a closing bracket may follow tokens: they end in an opening one or in a document. -/
def Closable (ts : List Token) : Prop :=
  (∃ most o, isOpening o = true ∧ ts = most ++ [.mark o]) ∨ EndsInDoc ts

/-- Whether each closing bracket among tokens follows such tokens. -/
def ClosesWell (ts : List Token) : Prop :=
  ∀ before k behind, ts = before ++ .mark k :: behind → isClosing k = true → Closable before

section

variable {ts us : List Token}

theorem EndsInDoc.behind (h : EndsInDoc ts) (us : List Token) : EndsInDoc (us ++ ts) := by
  obtain ⟨most, d, rfl⟩ := h
  exact ⟨us ++ most, d, by simp⟩

theorem Closable.behind (h : Closable ts) (us : List Token) : Closable (us ++ ts) := by
  rcases h with ⟨most, o, ho, rfl⟩ | h
  · exact .inl ⟨us ++ most, o, ho, by simp⟩
  · exact .inr (h.behind us)

theorem ClosesWell.nil : ClosesWell [] :=
  fun _ _ _ heq => by simp at heq

theorem ClosesWell.single {t : Token} (h : ∀ k, t = .mark k → isClosing k = false) : ClosesWell [t] := by
  intro before k behind heq hk
  cases before with
  | nil =>
    obtain ⟨rfl, -⟩ := List.cons.inj heq
    rw [h k rfl] at hk
    cases hk
  | cons u before => simp at heq

theorem ClosesWell.append (hts : ClosesWell ts) (hus : ClosesWell us) : ClosesWell (ts ++ us) := by
  intro before k behind heq hk
  rcases List.append_eq_append_iff.mp heq with ⟨more, rfl, hmore⟩ | ⟨more, rfl, hmore⟩
  · exact (hus more k behind hmore hk).behind ts
  · cases more with
    | nil => simpa using (hus [] k behind hmore.symm hk).behind before
    | cons t more =>
      obtain ⟨rfl, -⟩ := List.cons.inj hmore
      exact hts before k more rfl hk

theorem ClosesWell.separator {c : Char} (hc : c = ',' ∨ c = ':') : ClosesWell [.mark c] :=
  .single fun k hk => by
    obtain rfl := Token.mark.inj hk
    rcases hc with rfl | rfl <;> rfl

/-- Tokens in brackets that are none or end in a document. -/
theorem ClosesWell.enclosed {o k : Char} (hts : ClosesWell ts) (hlast : ts = [] ∨ EndsInDoc ts)
    (ho : isOpening o = true) : ClosesWell (.mark o :: (ts ++ [.mark k])) := by
  have hopening : ClosesWell [.mark o] := .single fun k hk => by
    obtain rfl := Token.mark.inj hk
    simp only [isOpening, Bool.or_eq_true, beq_iff_eq] at ho
    rcases ho with rfl | rfl <;> rfl
  have hclosing : Closable (.mark o :: ts) := by
    rcases hlast with rfl | hlast
    · exact .inl ⟨[], o, ho, rfl⟩
    · exact .inr (hlast.behind [.mark o])
  intro before k' behind heq hk'
  rw [← List.cons_append] at heq
  rcases List.append_eq_append_iff.mp heq with ⟨more, rfl, hmore⟩ | ⟨more, hbefore, hmore⟩
  · cases more with
    | nil => simpa using hclosing
    | cons t more => simp at hmore
  · cases more with
    | nil => simpa [hbefore] using hclosing
    | cons t more =>
      obtain ⟨rfl, -⟩ := List.cons.inj hmore
      exact (hopening.append hts) before k' more hbefore hk'

end

mutual

/-- Each closing bracket of a document follows an opening one or a document. -/
theorem Doc.closesWell : ∀ d : Doc, ClosesWell d.tokens
  | .literal _ | .word _ => .single nofun
  | .list items => by
    rcases items.closesWell with rfl | ⟨hitems, hlast⟩
    · exact ClosesWell.nil.enclosed (.inl rfl) rfl
    · exact hitems.enclosed (.inr hlast) rfl
  | .object members => by
    rcases members.closesWell with rfl | ⟨hmembers, hlast⟩
    · exact ClosesWell.nil.enclosed (.inl rfl) rfl
    · exact hmembers.enclosed (.inr hlast) rfl

theorem Docs.closesWell : ∀ ds : Docs, ds = .nil ∨ ClosesWell ds.tokens ∧ EndsInDoc ds.tokens
  | .nil => .inl rfl
  | .cons d .nil => .inr ⟨d.closesWell, [], d, rfl⟩
  | .cons d (.cons e rest) => by
    obtain ⟨hrest, hlast⟩ := (Docs.cons e rest).closesWell.resolve_left nofun
    have hitem := d.closesWell.append (.separator (.inl rfl))
    rw [Docs.tokens, List.append_cons]
    exact .inr ⟨hitem.append hrest, hlast.behind _⟩

theorem Entries.closesWell : ∀ es : Entries, es = .nil ∨ ClosesWell es.tokens ∧ EndsInDoc es.tokens
  | .nil => .inl rfl
  | .cons key d .nil => by
    have hkey := (ClosesWell.single (t := .literal key) nofun).append (.separator (.inr rfl))
    exact .inr ⟨hkey.append d.closesWell, [.literal key, .mark ':'], d, rfl⟩
  | .cons key d (.cons key' e rest) => by
    obtain ⟨hrest, hlast⟩ := (Entries.cons key' e rest).closesWell.resolve_left nofun
    have hkey := (ClosesWell.single (t := .literal key) nofun).append (.separator (.inr rfl))
    have hmember := (hkey.append d.closesWell).append (.separator (.inl rfl))
    rw [Entries.tokens, List.append_cons]
    exact .inr ⟨hmember.append hrest, (hlast.behind _).behind [.literal key, .mark ':']⟩

end

end Codemod.Json
