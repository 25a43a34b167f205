import Mathlib.Data.List.Permutation
import Codemod.Proofs.ShortenedLiterals

/-!
# What is accepted beyond JSON

A text with comments and trailing commas can be tidied: a blank is put in the place of each comment, and then each comma
goes that directly follows a value and stands before a closing bracket. What is read with comments is not always JSON
once it is tidied: where a comment is taken out, two words become one, and a comma goes before a closing bracket even if
an opening one stands before it.

Main statements:

* `tidyOnto_induction` carries over what each deletion of a comma keeps;
* `tokens_withoutComments` says where taking out comments joins no words;
* `tidyOnto_eq` says where all commas before closing brackets go;
* `accepted_text_tidied` says which accepted texts are JSON once they are tidied, and when the value stays the same.
-/

namespace Codemod.Json

/-! ### Tidying -/

/-- Pieces with a blank in the place of each comment. -/
def blanked (ps : List Piece) : List Piece :=
  ps.map fun p => if p.isComment then .char ' ' else p

/-- Whether pieces end in some that are read as a value. -/
def endsInValue (done : List Piece) : Bool :=
  done.tails.any fun ps => (readChars (written ps)).isOk

/-- Pieces put behind others without the commas that directly follow a value and stand before a closing bracket. -/
def tidyOnto (done : List Piece) : List Piece → List Piece
  | [] => done
  | p :: ps =>
    if p = .char ',' ∧ closesBehind ps = true ∧ endsInValue done = true then tidyOnto done ps
    else tidyOnto (done ++ [p]) ps

/-- A text with a blank in the place of each comment outside its literals and without the commas that directly follow a
value and stand before a closing bracket. -/
def tidied (t : String) : String :=
  String.ofList (written (tidyOnto [] (blanked (pieces t.toList))))

section

variable {done ps : List Piece} {p : Piece}

/-- What the deletion of a comma keeps, tidying keeps. -/
theorem tidyOnto_induction {P : List Piece → Prop}
    (step : ∀ done ps, closesBehind ps = true → endsInValue done = true → P (done ++ .char ',' :: ps) → P (done ++ ps))
    (done ps : List Piece) (h : P (done ++ ps)) : P (tidyOnto done ps) := by
  induction ps generalizing done with
  | nil => simpa [tidyOnto] using h
  | cons p ps ih =>
    unfold tidyOnto
    split
    · rename_i hgoes
      obtain ⟨rfl, hcloses, hvalue⟩ := hgoes
      exact ih done (step done ps hcloses hvalue h)
    · exact ih (done ++ [p]) (by simpa using h)

theorem tidyOnto_subset (ps : List Piece) : tidyOnto [] ps ⊆ ps := by
  refine tidyOnto_induction (P := fun qs => qs ⊆ ps) (fun done more _ _ h => ?_) [] ps (List.Subset.refl _)
  exact fun q hq => h (by simp only [List.mem_append, List.mem_cons] at hq ⊢; tauto)

/-- Literals are kept. -/
theorem mem_tidyOnto (hp : p ∈ ps) (hcomma : p ≠ .char ',') : p ∈ tidyOnto [] ps := by
  refine tidyOnto_induction (P := fun qs => p ∈ qs) (fun done more _ _ h => ?_) [] ps hp
  simpa [hcomma] using h

/-! ### Tidied texts fall into what is left -/

theorem plain_blanked (ps : List Piece) : ∀ p ∈ blanked ps, p.isComment = false := by
  intro p hp
  obtain ⟨q, -, rfl⟩ := List.mem_map.mp hp
  cases hq : q.isComment with
  | true => rfl
  | false => simpa using hq

theorem tokens_blanked (ps : List Piece) : tokens (blanked ps) = tokens ps := by
  induction ps with
  | nil => rfl
  | cons p ps ih =>
    have hstarts : startsInWord (blanked ps) = startsInWord ps := by
      cases ps with
      | nil => rfl
      | cons q ps => cases q <;> rfl
    cases p with
    | literal _ | unclosedLiteral _ => exact congrArg (_ :: ·) ih
    | lineComment _ | blockComment _ | unclosedComment _ => exact ih
    | char c =>
      have hsame : blanked (.char c :: ps) = .char c :: blanked ps := rfl
      rw [hsame]
      simp only [tokens, ih, hstarts]

/-- A blank may stand where a comment stood. -/
theorem Splits.blanked (hps : Splits ps) : Splits (blanked ps) := by
  suffices hboth : Splits (Json.blanked ps) ∧ Replaces (written (Json.blanked ps)) (written ps) from hboth.1
  induction ps with
  | nil => exact ⟨trivial, id, fun _ hc => by cases hc⟩
  | cons p ps ih =>
    obtain ⟨hfits, hps⟩ := hps
    obtain ⟨hrest, hreplaces⟩ := ih hps
    cases hp : p.isComment with
    | false =>
      have hsame : Json.blanked (p :: ps) = p :: Json.blanked ps := by simp [Json.blanked, hp]
      rw [hsame]
      exact ⟨⟨hfits.replaced hp hreplaces, hrest⟩, .cons p _ _⟩
    | true =>
      have hsame : Json.blanked (p :: ps) = .char ' ' :: Json.blanked ps := by simp [Json.blanked, hp]
      rw [hsame]
      refine ⟨⟨⟨by decide, fun h => absurd h (by decide)⟩, hrest⟩, fun hnil => ?_, fun c hc hmark => ?_⟩
      · exact absurd (List.append_eq_nil_iff.mp hnil).1 p.text_ne_nil
      · obtain rfl := Option.some.inj hc
        rcases hmark with hmark | hmark <;> cases hmark

/-- What may stand behind pieces in the place of others, the text still falls into both. -/
theorem Splits.append_replaced {qs qs' : List Piece} (h : Splits (ps ++ qs)) (hplain : ∀ p ∈ ps, p.isComment = false)
    (hqs : Splits qs') (hreplaces : Replaces (written qs') (written qs)) : Splits (ps ++ qs') := by
  suffices hboth : Splits (ps ++ qs') ∧ Replaces (written (ps ++ qs')) (written (ps ++ qs)) from hboth.1
  induction ps with
  | nil => exact ⟨hqs, hreplaces⟩
  | cons p ps ih =>
    obtain ⟨hfits, hps⟩ := h
    obtain ⟨hp, hplain⟩ := List.forall_mem_cons.mp hplain
    obtain ⟨hrest, hreplaces⟩ := ih hps hplain
    exact ⟨⟨hfits.replaced hp hreplaces, hrest⟩, .cons p _ _⟩

theorem Splits.right {qs : List Piece} (h : Splits (ps ++ qs)) : Splits qs := by
  induction ps with
  | nil => exact h
  | cons p ps ih => exact ih h.2

theorem Splits.left {qs : List Piece} (h : Splits (ps ++ qs)) (hplain : ∀ p ∈ ps, p.isComment = false) : Splits ps := by
  have hnone : Replaces (written []) (written qs) := ⟨fun _ => rfl, fun _ hc => by cases hc⟩
  have hleft : Splits (ps ++ []) := h.append_replaced hplain trivial hnone
  rwa [List.append_nil] at hleft

/-- No mark of a comment stands directly behind a comma that goes. -/
theorem replaces_of_closesBehind (h : closesBehind ps = true) (hplain : ∀ p ∈ ps, p.isComment = false) :
    Replaces (written ps) (written (.char ',' :: ps)) := by
  refine ⟨nofun, fun c hc hmark => ?_⟩
  cases ps with
  | nil => cases h
  | cons p ps =>
    obtain ⟨hp, -⟩ := List.forall_mem_cons.mp hplain
    cases p with
    | literal _ | unclosedLiteral _ => cases h
    | lineComment _ | blockComment _ | unclosedComment _ => cases hp
    | char d =>
      obtain rfl : d = c := Option.some.inj hc
      rcases hmark with rfl | rfl <;> cases h

/-- Without a comma that goes, a text falls into the other pieces. -/
theorem Splits.without_comma (hsplits : Splits (done ++ .char ',' :: ps))
    (hplain : ∀ p ∈ done ++ .char ',' :: ps, p.isComment = false) (hcloses : closesBehind ps = true) :
    Splits (done ++ ps) ∧ ∀ p ∈ done ++ ps, p.isComment = false := by
  simp only [List.forall_mem_append, List.forall_mem_cons] at hplain
  obtain ⟨hdone, -, hps⟩ := hplain
  have hrest : Splits ps := hsplits.right.2
  exact ⟨hsplits.append_replaced hdone hrest (replaces_of_closesBehind hcloses hps),
    List.forall_mem_append.mpr ⟨hdone, hps⟩⟩

/-- A tidied text falls into the pieces that are left. -/
theorem splits_tidyOnto (hps : Splits ps) (hplain : ∀ p ∈ ps, p.isComment = false) : Splits (tidyOnto [] ps) :=
  (tidyOnto_induction (P := fun qs => Splits qs ∧ ∀ p ∈ qs, p.isComment = false)
    (fun _ _ hcloses _ h => h.1.without_comma h.2 hcloses) [] ps ⟨hps, hplain⟩).1

end

/-! ### Words that come together -/

/-- Whether a token is a word. -/
def Token.isWord : Token → Bool
  | word _ => true
  | _ => false

/-- Whether no two words stand next to each other. -/
def WordsApart (ts : List Token) : Prop :=
  ts.IsChain fun t u => ¬ (t.isWord = true ∧ u.isWord = true)

section

variable {ps : List Piece} {ts us : List Token} {t : Token} {c : Char} {cs : List Char}

theorem Shaped.wordsApart (h : Shaped ts) : WordsApart ts := by
  refine h.next.imp fun t u hnext hwords => ?_
  cases t with
  | word _ =>
    cases u with
    | word _ => exact Bool.noConfusion (hnext.values rfl)
    | mark _ | literal _ | unclosedLiteral _ => cases hwords.2
  | mark _ | literal _ | unclosedLiteral _ => cases hwords.1

theorem WordsApart.of_extendWord {joined : Bool} (h : WordsApart (extendWord c joined ts)) : WordsApart ts := by
  unfold extendWord at h
  split at h
  · split at h
    · exact List.isChain_cons.mpr (List.isChain_cons.mp h)
    · exact (List.isChain_cons.mp h).2
  · exact (List.isChain_cons.mp h).2

/-- Where no two words stand next to each other, taking out comments joins no words. -/
theorem tokens_withoutComments (h : WordsApart (tokens ps)) : tokens (withoutComments ps) = tokens ps := by
  induction ps with
  | nil => rfl
  | cons p ps ih =>
    cases p with
    | lineComment _ | blockComment _ | unclosedComment _ => exact ih h
    | literal _ | unclosedLiteral _ => exact congrArg (_ :: ·) (ih (List.isChain_cons.mp h).2)
    | char c =>
      have hkept : withoutComments (.char c :: ps) = .char c :: withoutComments ps := rfl
      rw [hkept]
      rcases Piece.cases_char c with hgap | hmark | hword
      · rw [tokens_gap hgap] at h ⊢
        rw [tokens_gap hgap, ih h]
      · rw [tokens_mark hmark] at h ⊢
        rw [tokens_mark hmark, ih (List.isChain_cons.mp h).2]
      · rw [tokens_inWord hword] at h ⊢
        rw [tokens_inWord hword, ih h.of_extendWord]
        cases hstarts : startsInWord ps with
        | true =>
          have hsame : startsInWord (withoutComments ps) = true := by
            cases ps with
            | nil => cases hstarts
            | cons q ps =>
              cases q with
              | char d => exact hstarts
              | literal _ | unclosedLiteral _ | lineComment _ | blockComment _ | unclosedComment _ => cases hstarts
          rw [hsame]
        | false =>
          cases hjoins : startsInWord (withoutComments ps) with
          | false => rfl
          | true =>
            -- A word behind the comment would stand next to this one.
            obtain ⟨cs, ts, hts⟩ := exists_word_of_startsInWord hjoins
            rw [ih h.of_extendWord] at hts
            rw [hstarts, hts, extendWord_false] at h
            exact absurd ⟨rfl, rfl⟩ ((List.isChain_cons.mp h).1 (.word cs) rfl)

/-! ### Commas with nothing before them -/

/-- An opening bracket as a token. -/
def Token.opens : Token → Bool
  | mark c => isOpening c
  | _ => false

theorem Token.not_opens_of_ends (h : t.ends = true) : t.opens = false := by
  cases t with
  | mark c =>
    have hends : isClosing c = true := h
    simp only [isClosing, Bool.or_eq_true, beq_iff_eq] at hends
    rcases hends with rfl | rfl <;> rfl
  | literal _ | unclosedLiteral _ | word _ => rfl

/-- Whether tokens hold a comma with an opening bracket directly before it and a closing one directly behind it. -/
def LoneComma (ts : List Token) : Prop :=
  ∃ before behind, ts = before ++ .mark ',' :: behind ∧ before.getLast?.any Token.opens = true ∧
    behind.head?.any Token.closes = true

/-- Whether tokens end in one that a value ends with. -/
def EndsWithValue (ts : List Token) : Prop :=
  ts.getLast?.any Token.ends = true

/-- Whether a token is an opening bracket where tokens end, does not change with those before them. -/
theorem any_getLast?_append {p : Token → Bool} (hne : us ≠ []) :
    (ts ++ us).getLast?.any p = us.getLast?.any p := by
  rw [List.getLast?_append_of_ne_nil _ hne]

theorem any_head?_append {p : Token → Bool} (hne : ts ≠ []) : (ts ++ us).head?.any p = ts.head?.any p := by
  obtain ⟨t, ts, rfl⟩ := List.exists_cons_of_ne_nil hne
  rfl

/-- A comma between a value and a closing bracket makes no other comma lone. -/
theorem loneComma_append_iff (hts : EndsWithValue ts) (hus : us.head?.any Token.closes = true) :
    LoneComma (ts ++ .mark ',' :: us) ↔ LoneComma (ts ++ us) := by
  have hopens : ¬ ts.getLast?.any Token.opens = true := fun h => by
    obtain ⟨t, ht, hends⟩ := Option.any_eq_true .. |>.mp hts
    rw [Option.mem_def.mp ht, Option.any_some, Token.not_opens_of_ends hends] at h
    cases h
  have hfirst : ∀ more, us ≠ .mark ',' :: more := by
    rintro more rfl
    cases hus
  have hlast : ∀ most, ts ≠ most ++ [.mark ','] := by
    rintro most rfl
    simp [EndsWithValue, Token.ends, isClosing] at hts
  -- The lone comma stands behind the one that goes or before it, and it is not that one.
  constructor
  · rintro ⟨before, behind, heq, hbefore, hbehind⟩
    rcases List.append_eq_append_iff.mp heq with ⟨more, rfl, hmore⟩ | ⟨more, rfl, hmore⟩
    · cases more with
      | nil =>
        rw [List.append_nil] at hbefore
        exact absurd hbefore hopens
      | cons t more =>
        obtain ⟨rfl, rfl⟩ := List.cons.inj hmore
        have hne : more ≠ [] := by
          rintro rfl
          exact hfirst _ rfl
        refine ⟨ts ++ more, behind, by simp, ?_, hbehind⟩
        rw [any_getLast?_append hne, ← hbefore, any_getLast?_append (by simp), ← List.singleton_append,
          any_getLast?_append hne]
    · cases more with
      | nil =>
        rw [List.append_nil] at hopens
        exact absurd hbefore hopens
      | cons t more =>
        rw [List.cons_append] at hmore
        obtain ⟨rfl, rfl⟩ := List.cons.inj hmore
        have hne : more ≠ [] := by
          rintro rfl
          exact hlast before rfl
        refine ⟨before, more ++ us, by simp, hbefore, ?_⟩
        rw [any_head?_append hne] at hbehind ⊢
        exact hbehind
  · rintro ⟨before, behind, heq, hbefore, hbehind⟩
    rcases List.append_eq_append_iff.mp heq with ⟨more, rfl, rfl⟩ | ⟨more, rfl, hmore⟩
    · have hne : more ≠ [] := by
        rintro rfl
        exact hfirst behind rfl
      refine ⟨ts ++ .mark ',' :: more, behind, by simp, ?_, hbehind⟩
      rw [any_getLast?_append hne] at hbefore
      rw [any_getLast?_append (by simp), ← List.singleton_append, any_getLast?_append hne, hbefore]
    · cases more with
      | nil => exact absurd hmore.symm (hfirst behind)
      | cons t more =>
        rw [List.cons_append] at hmore
        obtain ⟨rfl, rfl⟩ := List.cons.inj hmore
        have hne : more ≠ [] := by
          rintro rfl
          exact hlast before rfl
        refine ⟨before, more ++ .mark ',' :: us, by simp, hbefore, ?_⟩
        rw [any_head?_append hne] at hbehind ⊢
        exact hbehind

/-- No comma of a tree is lone. -/
theorem Shaped.not_loneComma (h : Shaped ts) : ¬ LoneComma ts := by
  rintro ⟨before, behind, rfl, hbefore, -⟩
  obtain ⟨t, ht, hopens⟩ := Option.any_eq_true .. |>.mp hbefore
  have hends := ((List.isChain_append.mp h.next).2.2 t ht (.mark ',') rfl).before rfl
  rw [Token.not_opens_of_ends hends] at hopens
  cases hopens

end

/-! ### What stands before a comma that goes -/

section

variable {done ps : List Piece}

theorem tokens_append_comma : tokens (done ++ .char ',' :: ps) = tokens done ++ .mark ',' :: tokens ps := by
  rw [tokens_append (show startsInWord (.char ',' :: ps) = false from rfl), tokens_mark rfl]

theorem tokens_append_closing (h : closesBehind ps = true) : tokens (done ++ ps) = tokens done ++ tokens ps :=
  tokens_append (startsInWord_of_closesBehind h)

theorem exists_closing (h : closesBehind ps = true) : ∃ k more, tokens ps = .mark k :: more ∧ isClosing k = true := by
  rw [closesBehind_eq] at h
  obtain ⟨t, ht, hcloses⟩ := Option.any_eq_true .. |>.mp h
  obtain ⟨more, hmore⟩ := List.head?_eq_some_iff.mp ht
  cases t with
  | mark k => exact ⟨k, more, hmore, hcloses⟩
  | literal _ | unclosedLiteral _ | word _ => cases hcloses

theorem EndsWithValue.cons {ts : List Token} (t : Token) (h : EndsWithValue ts) : EndsWithValue (t :: ts) := by
  have hne : ts ≠ [] := by
    rintro rfl
    cases h
  unfold EndsWithValue
  rw [← List.singleton_append, any_getLast?_append hne]
  exact h

theorem EndsWithValue.extendWord {ts : List Token} {c : Char} {joined : Bool} (h : EndsWithValue ts) :
    EndsWithValue (extendWord c joined ts) := by
  unfold Json.extendWord
  split
  · rename_i cs ts
    split
    · cases ts with
      | nil => rfl
      | cons t ts =>
        unfold EndsWithValue at h ⊢
        rwa [List.getLast?_cons_cons] at h ⊢
    · exact h.cons _
  · exact h.cons _

/-- What ends with a value does so with anything before it. -/
theorem EndsWithValue.behind (h : EndsWithValue (tokens ps)) (done : List Piece) :
    EndsWithValue (tokens (done ++ ps)) := by
  induction done with
  | nil => exact h
  | cons p done ih =>
    rw [List.cons_append]
    cases p with
    | literal _ | unclosedLiteral _ => exact ih.cons _
    | lineComment _ | blockComment _ | unclosedComment _ => exact ih
    | char c =>
      rcases Piece.cases_char c with hgap | hmark | hword
      · rwa [tokens_gap hgap]
      · rw [tokens_mark hmark]
        exact ih.cons _
      · rw [tokens_inWord hword]
        exact ih.extendWord

theorem EndsInDoc.endsWithValue {ts : List Token} (h : EndsInDoc ts) : EndsWithValue ts := by
  obtain ⟨most, d, rfl⟩ := h
  obtain ⟨t, ht, hends⟩ := d.shaped.last
  rw [EndsWithValue, any_getLast?_append d.shaped.ne_nil, Option.mem_def.mp ht]
  exact hends

/-- Pieces that end in some which are read as a value end with one. -/
theorem endsWithValue_of_endsInValue (hsplits : Splits done) (h : endsInValue done = true) :
    EndsWithValue (tokens done) := by
  obtain ⟨ps, hps, hread⟩ := List.any_eq_true.mp h
  obtain ⟨before, rfl⟩ := (List.mem_tails ps done).mp hps
  cases hvalue : readChars (written ps) with
  | error f => rw [hvalue] at hread; cases hread
  | ok v =>
    obtain ⟨-, d, hd, -⟩ := readChars_eq_ok_iff.mp hvalue
    rw [pieces_written hsplits.right] at hd
    have hlast : EndsInDoc (tokens ps) := ⟨[], d, hd⟩
    exact hlast.endsWithValue.behind before

/-- Pieces whose tokens end in those of a tree with a value end in some which are read as a value. -/
theorem endsInValue_of_endsInDoc (hplain : ∀ p ∈ done, p.isComment = false) (hvalued : ∀ t ∈ tokens done, t.Valued)
    (h : EndsInDoc (tokens done)) : endsInValue done = true := by
  obtain ⟨most, d, hts⟩ := h
  obtain ⟨before, ps, rfl, -, hps⟩ := exists_of_tokens_eq_append hts
  obtain ⟨v, hv⟩ := d.exists_value?_iff.mpr fun t ht => hvalued t (by rw [hts]; exact List.mem_append_right _ ht)
  have hread := readChars_written (fun p hp => hplain p (List.mem_append_right _ hp)) hps hv
  refine List.any_eq_true.mpr ⟨ps, (List.mem_tails _ _).mpr (List.suffix_append before ps), ?_⟩
  rw [hread]
  rfl

/-! ### Which commas go -/

/-- A lone comma stays. -/
theorem loneComma_tidyOnto (hps : Splits ps) (hplain : ∀ p ∈ ps, p.isComment = false) (h : LoneComma (tokens ps)) :
    LoneComma (tokens (tidyOnto [] ps)) := by
  refine (tidyOnto_induction
    (P := fun qs => (Splits qs ∧ ∀ p ∈ qs, p.isComment = false) ∧ LoneComma (tokens qs))
    (fun done more hcloses hvalue h => ?_) [] ps ⟨⟨hps, hplain⟩, h⟩).2
  obtain ⟨⟨hsplits, hall⟩, hlone⟩ := h
  have hdone := hsplits.left (List.forall_mem_append.mp hall).1
  rw [tokens_append_comma, loneComma_append_iff (endsWithValue_of_endsInValue hdone hvalue)
    (by rwa [← closesBehind_eq]), ← tokens_append_closing hcloses] at hlone
  exact ⟨hsplits.without_comma hall hcloses, hlone⟩

/-- Where words stand apart once a text is tidied, they did before. -/
theorem wordsApart_of_tidyOnto (h : WordsApart (tokens (tidyOnto [] ps))) : WordsApart (tokens ps) := by
  by_contra hjoined
  refine tidyOnto_induction (P := fun qs => ¬ WordsApart (tokens qs)) (fun done more hcloses _ hjoined happart => ?_)
    [] ps hjoined h
  rw [tokens_append_closing hcloses] at happart
  obtain ⟨hdone, hmore, -⟩ := List.isChain_append.mp happart
  rw [tokens_append_comma] at hjoined
  refine hjoined (hdone.append (List.isChain_cons.mpr ⟨fun u _ hwords => ?_, hmore⟩) fun t _ u hu hwords => ?_)
  · cases hwords.1
  · obtain rfl := Option.mem_unique hu rfl
    cases hwords.2

/-- Where what is left without the commas before closing brackets is a tree and none of them is lone, all of them go. -/
theorem tidyOnto_eq {d : Doc} (hd : tokens (done ++ thinned closesBehind ps) = d.tokens)
    (hvalued : ∀ t ∈ d.tokens, t.Valued) (hplain : ∀ p ∈ done ++ ps, p.isComment = false)
    (hlone : ¬ LoneComma (tokens (done ++ ps))) : tidyOnto done ps = done ++ thinned closesBehind ps := by
  induction ps generalizing done with
  | nil => simp [tidyOnto, thinned]
  | cons p ps ih =>
    by_cases hgoes : p = .char ',' ∧ closesBehind ps = true
    · obtain ⟨rfl, hcloses⟩ := hgoes
      rw [thinned_comma, if_pos hcloses] at hd ⊢
      obtain ⟨k, more, hmore, hk⟩ := exists_closing hcloses
      have hkept : tokens (done ++ thinned closesBehind ps) = tokens done ++ .mark k :: dropTokens more := by
        have hno : k ≠ ',' := by rintro rfl; cases hk
        have hstarts := (startsInWord_thinned ps).trans (startsInWord_of_closesBehind hcloses)
        rw [tokens_append hstarts, tokens_thinned, hmore, dropTokens_cons_of_ne (by simpa using hno)]
      obtain ⟨hdone, -, hps⟩ : _ ∧ _ ∧ _ := by
        simpa only [List.forall_mem_append, List.forall_mem_cons] using hplain
      -- The closing bracket follows an opening one, and the comma is lone, or it follows a tree.
      rcases d.closesWell _ k _ (hd.symm.trans hkept) hk with ⟨most, o, ho, hopening⟩ | hvalue
      · refine absurd ⟨tokens done, tokens ps, tokens_append_comma, ?_, ?_⟩ hlone
        · simpa [hopening, Token.opens] using ho
        · rwa [← closesBehind_eq]
      · have hends : endsInValue done = true := by
          refine endsInValue_of_endsInDoc hdone (fun t ht => hvalued t ?_) hvalue
          rw [← hd, hkept]
          exact List.mem_append_left _ ht
        have hlast : EndsWithValue (tokens done) := hvalue.endsWithValue
        rw [tokens_append_comma, loneComma_append_iff hlast (by rwa [← closesBehind_eq]),
          ← tokens_append_closing hcloses] at hlone
        rw [tidyOnto, if_pos ⟨rfl, hcloses, hends⟩]
        exact ih hd (List.forall_mem_append.mpr ⟨hdone, hps⟩) hlone
    · have hstays : ¬ (p = .char ',' ∧ closesBehind ps = true ∧ endsInValue done = true) :=
        fun h => hgoes ⟨h.1, h.2.1⟩
      have hkept : thinned closesBehind (p :: ps) = p :: thinned closesBehind ps := if_neg hgoes
      rw [tidyOnto, if_neg hstays, hkept, ih]
      · simp
      · simpa [hkept] using hd
      · simpa using hplain
      · simpa using hlone

end

/-! ### Accepted texts -/

theorem plain_withoutComments (ps : List Piece) : ∀ p ∈ withoutComments ps, p.isComment = false :=
  fun _ hp => by simpa using (List.mem_filter.mp hp).2

/-- Behind an accepted text stands a tree: its tokens without the comments and without the commas before closing
brackets are those of the tree, and it is read as the value of the tree whose literals have lost such commas. -/
theorem exists_doc_of_readWithComments {t : String} {v : Value} (h : readWithComments t = .ok v) :
    ∃ (d : Doc) (u : Value), dropTokens (tokens (withoutComments (pieces t.toList))) = d.tokens ∧
      d.value? = some u ∧ d.shortened.value? = some v := by
  obtain ⟨hsplits, hwritten⟩ := splits_pieces t.toList
  have hplain := plain_withoutComments (pieces t.toList)
  have hkept : strip .code t.toList = written (withoutComments (pieces t.toList)) := by
    conv_lhs => rw [← hwritten, strip_written hsplits]
  rw [readWithComments, hkept, dropTrailingCommas_written hsplits.withoutComments hplain] at h
  obtain ⟨-, d, hd, hv⟩ := readChars_eq_ok_iff.mp h
  rw [pieces_written (hsplits.withoutComments.dropped hplain)] at hd
  have hblanks : PlainBlanks (withoutComments (pieces t.toList)) := by
    refine (plainBlanks_of_valued ?_).of_dropped
    rw [hd]
    exact d.exists_value?_iff.mp ⟨v, hv⟩
  rw [dropped_eq hblanks hplain, tokens_map_shortened, tokens_thinned] at hd
  obtain ⟨longer, hlonger, rfl⟩ := d.exists_of_shortened hd
  obtain ⟨u, hu⟩ := Doc.exists_value?_shortened.mp ⟨v, hv⟩
  exact ⟨longer, u, hlonger, hu, hv⟩

section

variable {t : String} {v w : Value}

theorem pieces_tidied (t : String) : pieces (tidied t).toList = tidyOnto [] (blanked (pieces t.toList)) := by
  rw [tidied, String.toList_ofList]
  exact pieces_written (splits_tidyOnto (splits_pieces t.toList).1.blanked (plain_blanked _))

/-- What a tidied text is read as. -/
theorem read_tidied_iff : read (tidied t) = .ok w ↔
    ∃ d : Doc, tokens (tidyOnto [] (blanked (pieces t.toList))) = d.tokens ∧ d.value? = some w := by
  have hplain : ∀ p ∈ tidyOnto [] (blanked (pieces t.toList)), p.isComment = false :=
    fun p hp => plain_blanked _ p (tidyOnto_subset _ hp)
  rw [read, readChars_eq_ok_iff, pieces_tidied]
  exact ⟨And.right, fun h => ⟨hplain, h⟩⟩

theorem literal_mem_tidyOnto_iff {body : List Char} {ps : List Piece} :
    .literal body ∈ tidyOnto [] (blanked ps) ↔ .literal body ∈ ps := by
  have hblanked : .literal body ∈ blanked ps ↔ .literal body ∈ ps := by
    constructor
    · intro h
      obtain ⟨p, hp, heq⟩ := List.mem_map.mp h
      split at heq
      · cases heq
      · rwa [← heq]
    · exact fun h => List.mem_map.mpr ⟨_, h, rfl⟩
  rw [← hblanked]
  exact ⟨fun h => tidyOnto_subset _ h, fun h => mem_tidyOnto h (by simp)⟩

end

/-- Which accepted texts are JSON once they are tidied: those in which no words come together where comments are taken
out, and no comma stands alone between brackets. Such a text is read as the same value once it is tidied if no literal
holds a comma before a closing bracket; and if each object writes each key once, it is only then. -/
theorem accepted_text_tidied {t : String} {v : Value} (h : readWithComments t = .ok v) :
    ((∃ w, read (tidied t) = .ok w) ↔
      tokens (withoutComments (pieces t.toList)) = tokens (pieces t.toList) ∧
        ¬ LoneComma (tokens (pieces t.toList))) ∧
    ∀ w, read (tidied t) = .ok w →
      ((∀ body, .literal body ∈ pieces t.toList → ¬ HoldsTrailingComma body) → w = v) ∧
      (WritesKeysOnce (pieces (tidied t).toList) → w = v →
        ∀ body, .literal body ∈ pieces t.toList → ¬ HoldsTrailingComma body) := by
  obtain ⟨hsplits, hwritten⟩ := splits_pieces t.toList
  obtain ⟨d, u, hd, hu, hv⟩ := exists_doc_of_readWithComments h
  have hvalued := d.exists_value?_iff.mp ⟨u, hu⟩
  -- What is JSON once it is tidied has the tokens of a tree, where words stand apart and no comma is lone.
  have hapart : ∀ w, read (tidied t) = .ok w →
      tokens (withoutComments (pieces t.toList)) = tokens (pieces t.toList) ∧
        ¬ LoneComma (tokens (pieces t.toList)) := by
    intro w hw
    obtain ⟨e, he, -⟩ := read_tidied_iff.mp hw
    have hwords : WordsApart (tokens (pieces t.toList)) := by
      rw [← tokens_blanked]
      refine wordsApart_of_tidyOnto ?_
      rw [he]
      exact e.shaped.wordsApart
    refine ⟨tokens_withoutComments hwords, fun hlone => e.shaped.not_loneComma ?_⟩
    rw [← he]
    exact loneComma_tidyOnto hsplits.blanked (plain_blanked _) (by rwa [tokens_blanked])
  -- Otherwise all commas before closing brackets go, and the tree behind the accepted text is left.
  have htidied : tokens (withoutComments (pieces t.toList)) = tokens (pieces t.toList) →
      ¬ LoneComma (tokens (pieces t.toList)) → tokens (tidyOnto [] (blanked (pieces t.toList))) = d.tokens := by
    intro hsame hlone
    have hleft : tokens (thinned closesBehind (blanked (pieces t.toList))) = d.tokens := by
      rw [tokens_thinned, tokens_blanked, ← hsame, hd]
    have hall : tidyOnto [] (blanked (pieces t.toList)) = [] ++ thinned closesBehind (blanked (pieces t.toList)) :=
      tidyOnto_eq hleft hvalued (plain_blanked _) (by rwa [List.nil_append, tokens_blanked])
    rw [hall, List.nil_append, hleft]
  refine ⟨⟨fun ⟨w, hw⟩ => hapart w hw, fun ⟨hsame, hlone⟩ => ⟨u, read_tidied_iff.mpr ⟨d, htidied hsame hlone, hu⟩⟩⟩,
    fun w hw => ?_⟩
  obtain ⟨hsame, hlone⟩ := hapart w hw
  have htokens := htidied hsame hlone
  have hread : read (tidied t) = .ok u := read_tidied_iff.mpr ⟨d, htokens, hu⟩
  obtain rfl : u = w := Except.ok.inj (hread.symm.trans hw)
  refine ⟨fun hnone => ?_, fun honce hsame => ?_⟩
  · have hsame : (tidyOnto [] (blanked (pieces t.toList))).map Piece.shortened =
        tidyOnto [] (blanked (pieces t.toList)) :=
      map_shortened_eq_self (by rwa [htokens]) fun body hbody => hnone body (literal_mem_tidyOnto_iff.mp hbody)
    have hshortened : tokens (tidyOnto [] (blanked (pieces t.toList))) = d.shortened.tokens := by
      rw [Doc.tokens_shortened, ← htokens, ← tokens_map_shortened, hsame]
    exact Except.ok.inj (hread.symm.trans (read_tidied_iff.mpr ⟨d.shortened, hshortened, hv⟩))
  · subst hsame
    have hkeys : d.KeysOnce := honce d (by rw [pieces_tidied, htokens])
    exact fun body hbody => not_holds_of_shortened_eq htokens (Doc.shortened_eq hkeys hu hv) body
      (literal_mem_tidyOnto_iff.mpr hbody)

/-- A comma behind a value goes, and a comment behind the comma joins no words. -/
theorem comma_behind_value_tidied : readWithComments "[1,/**/]" = .ok (.list [.int 1]) ∧
    tidied "[1,/**/]" = "[1 ]" ∧ read "[1 ]" = .ok (.list [.int 1]) ∧
    tokens (withoutComments (pieces "[1,/**/]".toList)) = tokens (pieces "[1,/**/]".toList) ∧
    ¬ LoneComma (tokens (pieces "[1,/**/]".toList)) := by
  have hread : readWithComments "[1,/**/]" = .ok (.list [.int 1]) := by cbv
  have htidied : tidied "[1,/**/]" = "[1 ]" := by decide +kernel
  have hjson : read "[1 ]" = .ok (.list [.int 1]) := by cbv
  refine ⟨hread, htidied, hjson, (accepted_text_tidied hread).1.mp ⟨.list [.int 1], ?_⟩⟩
  rw [htidied, hjson]

/-- Two numbers become one where the comment between them is taken out. -/
theorem comment_joins_numbers :
    ¬ ∀ (t : String) (v : Value), readWithComments t = .ok v → read (tidied t) = .ok v := by
  intro h
  have hread : readWithComments "[1/**/2]" = .ok (.list [.int 12]) := by cbv
  have htidied : tidied "[1/**/2]" = "[1 2]" := by decide +kernel
  have hfails : ∃ f, read "[1 2]" = .error f := ⟨_, by cbv⟩
  obtain ⟨f, hf⟩ := hfails
  have hsame := h _ _ hread
  rw [htidied, hf] at hsame
  cases hsame

end Codemod.Json
