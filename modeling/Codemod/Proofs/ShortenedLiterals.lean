import Codemod.Proofs.DroppedCommas
import Codemod.Proofs.KeyedLists

/-!
# What a document loses with its commas

A literal that holds a comma before a closing bracket is read as a shorter string once such commas are taken out. If
each object writes each of its keys once, the value of a document shows this: it stays the same exactly when no
literal holds such a comma.

Main statements:

* `Members.ofList_eq_self` and `Members.nodup_of_length` say when the members of an object are all kept apart;
* `Doc.shortened_eq` says that a document which keeps its value keeps its literals;
* `plain_text_read_with_comments` says which texts without comments are read as the same value with them.
-/

namespace Codemod

namespace Json

namespace Members

variable {ms : List (String × Value)}

/-- Members under keys of their own are kept as they are. -/
theorem ofList_eq_self (h : (Keyed.keys ms).Nodup) : ofList ms = ms := by
  have hboth : (Keyed.keys ([] : Members) ++ Keyed.keys ms).Nodup := h
  exact Keyed.merge_eq_append hboth

/-- Members are kept apart only under keys of their own. -/
theorem nodup_of_length (h : (ofList ms).length = ms.length) : (Keyed.keys ms).Nodup := by
  have hnone : (Keyed.keys ([] : Members)).Nodup := List.nodup_nil
  exact Keyed.nodup_of_length_merge hnone (h.trans (Nat.zero_add _).symm)

end Members

/-! ### Literals that lose a comma -/

/-- A literal keeps its string exactly when it holds no comma before a closing bracket. -/
theorem literal?_dropped_iff {body : List Char} {s : String} (h : literal? body = some s) :
    literal? (dropTrailingCommas body) = some s ↔ ¬ HoldsTrailingComma body := by
  rw [← dropTrailingCommas_eq_self_iff]
  constructor
  · intro hsame
    obtain ⟨chars, hspells, rfl⟩ := literal?_eq_some_iff.mp h
    obtain ⟨left, hleft, -, hshorter⟩ := hspells.dropped
    by_contra hne
    have hlt := hshorter hne
    rw [literal?_eq_some_iff.mpr ⟨left, hleft, rfl⟩, Option.some.injEq, String.ofList_inj] at hsame
    rw [hsame] at hlt
    omega
  · intro heq
    rw [heq, h]

mutual

/-- Whether each object writes each of its keys once. -/
def Doc.KeysOnce : Doc → Prop
  | .literal _ | .word _ => True
  | .list items => items.KeysOnce
  | .object members => (∀ ms, members.values? = some ms → (Keyed.keys ms).Nodup) ∧ members.KeysOnce

def Docs.KeysOnce : Docs → Prop
  | .nil => True
  | .cons d rest => d.KeysOnce ∧ rest.KeysOnce

def Entries.KeysOnce : Entries → Prop
  | .nil => True
  | .cons _ d rest => d.KeysOnce ∧ rest.KeysOnce

end

theorem Entries.length_values? : ∀ {es : Entries} {ms ms' : List (String × Value)}, es.values? = some ms →
    es.shortened.values? = some ms' → ms'.length = ms.length
  | .nil, ms, ms', h, h' => by
    cases h
    cases h'
    rfl
  | .cons key d rest, ms, ms', h, h' => by
    obtain ⟨_, _, more, -, -, hmore, rfl⟩ := Entries.values?_cons.mp h
    obtain ⟨_, _, more', -, -, hmore', rfl⟩ := Entries.values?_cons.mp h'
    simp [Entries.length_values? hmore hmore']

mutual

theorem Doc.shortened_eq : ∀ {d : Doc} {v : Value}, d.KeysOnce → d.value? = some v → d.shortened.value? = some v →
    d.shortened = d
  | .literal body, v, _, h, h' => by
    obtain ⟨s, hs, rfl⟩ := Option.map_eq_some_iff.mp h
    obtain ⟨s', hs', heq⟩ := Option.map_eq_some_iff.mp h'
    obtain rfl := Value.text.inj heq
    rw [Doc.shortened, dropTrailingCommas_eq_self_iff.mpr ((literal?_dropped_iff hs).mp hs')]
  | .word cs, _, _, _, _ => rfl
  | .list items, v, honce, h, h' => by
    obtain ⟨vs, hvs, rfl⟩ := Option.map_eq_some_iff.mp h
    obtain ⟨vs', hvs', heq⟩ := Option.map_eq_some_iff.mp h'
    obtain rfl := Value.list.inj heq
    rw [Doc.shortened, Docs.shortened_eq honce hvs hvs']
  | .object members, v, honce, h, h' => by
    obtain ⟨ms, hms, rfl⟩ := Option.map_eq_some_iff.mp h
    obtain ⟨ms', hms', heq⟩ := Option.map_eq_some_iff.mp h'
    have hunited := Value.object.inj heq
    rw [Members.ofList_eq_self (honce.1 ms hms)] at hunited
    -- As many members are left as there were, so no two of them have come under one key.
    have hkeys : (Keyed.keys ms').Nodup :=
      Members.nodup_of_length (by rw [hunited, Entries.length_values? hms hms'])
    rw [Members.ofList_eq_self hkeys] at hunited
    subst hunited
    rw [Doc.shortened, Entries.shortened_eq honce.2 hms hms']

theorem Docs.shortened_eq : ∀ {ds : Docs} {vs : List Value}, ds.KeysOnce → ds.values? = some vs →
    ds.shortened.values? = some vs → ds.shortened = ds
  | .nil, _, _, _, _ => rfl
  | .cons d rest, vs, honce, h, h' => by
    obtain ⟨v, more, hv, hmore, rfl⟩ := Docs.values?_cons.mp h
    obtain ⟨v', more', hv', hmore', heq⟩ := Docs.values?_cons.mp h'
    obtain ⟨rfl, rfl⟩ := List.cons.inj heq
    rw [Docs.shortened, Doc.shortened_eq honce.1 hv hv', Docs.shortened_eq honce.2 hmore hmore']

theorem Entries.shortened_eq : ∀ {es : Entries} {ms : List (String × Value)}, es.KeysOnce → es.values? = some ms →
    es.shortened.values? = some ms → es.shortened = es
  | .nil, _, _, _, _ => rfl
  | .cons key d rest, ms, honce, h, h' => by
    obtain ⟨k, v, more, hk, hv, hmore, rfl⟩ := Entries.values?_cons.mp h
    obtain ⟨k', v', more', hk', hv', hmore', heq⟩ := Entries.values?_cons.mp h'
    obtain ⟨hmember, rfl⟩ := List.cons.inj heq
    obtain ⟨rfl, rfl⟩ := Prod.mk.inj hmember
    rw [Entries.shortened, dropTrailingCommas_eq_self_iff.mpr ((literal?_dropped_iff hk).mp hk'),
      Doc.shortened_eq honce.1 hv hv', Entries.shortened_eq honce.2 hmore hmore']

end

/-! ### Texts without comments -/

/-- Whether each object of a text writes each of its keys once. -/
def WritesKeysOnce (ps : List Piece) : Prop :=
  ∀ d : Doc, tokens ps = d.tokens → d.KeysOnce

section

variable {ps : List Piece} {d : Doc} {v w : Value}

/-- What is left without the commas has the tokens of the tree whose literals have lost them. -/
theorem tokens_dropped (hplain : ∀ p ∈ ps, p.isComment = false) (hblanks : PlainBlanks ps)
    (hd : dropTokens (tokens ps) = d.tokens) : tokens (dropped ps) = d.shortened.tokens := by
  rw [dropped_eq hblanks hplain, tokens_map_shortened, tokens_thinned, hd, Doc.tokens_shortened]

/-- The token of a literal. -/
def Piece.quoted? : Piece → Option Token
  | literal body => some (.literal body)
  | unclosedLiteral body => some (.unclosedLiteral body)
  | _ => none

theorem mem_extendWord {c : Char} {joined : Bool} {t : Token} {ts : List Token} (h : t ∈ ts) (ht : ∀ cs, t ≠ .word cs) :
    t ∈ extendWord c joined ts := by
  unfold extendWord
  split
  · rename_i cs ts
    have hmem := (List.mem_cons.mp h).resolve_left (ht cs)
    split
    · exact List.mem_cons_of_mem _ hmem
    · exact List.mem_cons_of_mem _ h
  · exact List.mem_cons_of_mem _ h

/-- Each literal is a token. -/
theorem mem_tokens {p : Piece} {t : Token} (hp : p ∈ ps) (ht : p.quoted? = some t) : t ∈ tokens ps := by
  have hword : ∀ cs, t ≠ .word cs := by
    rintro cs rfl
    cases p <;> cases ht
  induction ps with
  | nil => cases hp
  | cons q ps ih =>
    rcases List.mem_cons.mp hp with rfl | hp
    · cases p with
      | literal _ | unclosedLiteral _ =>
        cases ht
        exact List.mem_cons_self ..
      | lineComment _ | blockComment _ | unclosedComment _ | char _ => cases ht
    · have hrest := ih hp
      cases q with
      | literal _ | unclosedLiteral _ => exact List.mem_cons_of_mem _ hrest
      | lineComment _ | blockComment _ | unclosedComment _ => exact hrest
      | char c =>
        rcases Piece.cases_char c with hgap | hmark | hchar
        · rwa [tokens_gap hgap]
        · rw [tokens_mark hmark]
          exact List.mem_cons_of_mem _ hrest
        · rw [tokens_inWord hchar]
          exact mem_extendWord hrest hword

/-- Literals stay as they are if they hold no comma before a closing bracket, where each token has a value. -/
theorem map_shortened_eq_self (hts : ∀ t ∈ tokens ps, t.Valued)
    (h : ∀ body, .literal body ∈ ps → ¬ HoldsTrailingComma body) : ps.map Piece.shortened = ps := by
  have hall : ∀ p ∈ ps, p.shortened = p := fun p hp => by
    cases p with
    | literal body => rw [Piece.shortened, dropTrailingCommas_eq_self_iff.mpr (h body hp)]
    | unclosedLiteral body => exact (hts _ (mem_tokens hp rfl)).elim
    | lineComment _ | blockComment _ | unclosedComment _ | char _ => rfl
  exact (List.map_congr_left hall).trans (List.map_id ps)

/-- A tree that stays as it is has no literal that holds a comma before a closing bracket. -/
theorem not_holds_of_shortened_eq (hd : tokens ps = d.tokens) (heq : d.shortened = d) :
    ∀ body, .literal body ∈ ps → ¬ HoldsTrailingComma body := by
  intro body hbody
  have hmap : (tokens ps).map Token.shortened = (tokens ps).map id := by
    rw [hd, ← Doc.tokens_shortened, heq, List.map_id]
  have hsame := List.map_eq_map_iff.mp hmap _ (mem_tokens hbody rfl)
  exact dropTrailingCommas_eq_self_iff.mp (Token.literal.inj hsame)

end

/-- What a text without comments is read as, and what the same text is read as when comments are looked for: the value
of the text whose literals have lost the commas before closing brackets. If there are none it is the same value; and if
each object writes each key once, it is only then. -/
theorem plain_text_read_with_comments {t : String} {v : Value} (h : read t = .ok v) :
    ∃ w, readWithComments t = .ok w ∧
      readChars (written ((pieces t.toList).map Piece.shortened)) = .ok w ∧
      ((∀ body, .literal body ∈ pieces t.toList → ¬ HoldsTrailingComma body) → w = v) ∧
      (WritesKeysOnce (pieces t.toList) → w = v →
        ∀ body, .literal body ∈ pieces t.toList → ¬ HoldsTrailingComma body) := by
  obtain ⟨hsplits, hwritten⟩ := splits_pieces t.toList
  obtain ⟨hplain, d, hd, hv⟩ := readChars_eq_ok_iff.mp h
  have hvalued : ∀ u ∈ tokens (pieces t.toList), u.Valued := by
    rw [hd]
    exact d.exists_value?_iff.mp ⟨v, hv⟩
  obtain ⟨w, hw⟩ := Doc.exists_value?_shortened.mpr ⟨v, hv⟩
  have hleft : dropTrailingCommas (strip .code t.toList) = written (dropped (pieces t.toList)) := by
    have hkept : withoutComments (pieces t.toList) = pieces t.toList :=
      List.filter_eq_self.mpr fun p hp => by simp [hplain p hp]
    rw [← dropTrailingCommas_written hsplits hplain]
    conv_lhs => rw [← hwritten, strip_written hsplits, hkept]
  have hdropped : tokens (dropped (pieces t.toList)) = d.shortened.tokens :=
    tokens_dropped hplain (plainBlanks_of_valued hvalued) (by rw [hd, dropTokens_eq_self d.shaped.next])
  have hshortened : readChars (written ((pieces t.toList).map Piece.shortened)) = .ok w :=
    readChars_written (plain_map_shortened hplain) (by rw [tokens_map_shortened, hd, Doc.tokens_shortened]) hw
  refine ⟨w, ?_, hshortened, fun hnone => ?_, fun honce hsame => ?_⟩
  · rw [readWithComments, hleft, readChars_written (plain_dropped hplain) hdropped hw]
  · rw [map_shortened_eq_self hvalued hnone, hwritten] at hshortened
    exact Except.ok.inj (hshortened.symm.trans h)
  · subst hsame
    exact not_holds_of_shortened_eq hd (Doc.shortened_eq (honce d hd) hv hw)

/-- A comma that is no comma before a closing bracket stays in its literal. -/
theorem comma_in_literal_kept : read "[\",\"]" = .ok (.list [.text ","]) ∧
    readWithComments "[\",\"]" = .ok (.list [.text ","]) := by
  have hread : read "[\",\"]" = .ok (.list [.text ","]) := by rfl
  obtain ⟨w, hw, -, hsame, -⟩ := plain_text_read_with_comments hread
  have hpieces : pieces "[\",\"]".toList = [.char '[', .literal [','], .char ']'] := by decide
  refine ⟨hread, ?_⟩
  rw [hw, hsame]
  intro body hbody
  rw [hpieces] at hbody
  obtain rfl : body = [','] := by simpa using hbody
  exact dropTrailingCommas_eq_self_iff.mp (by decide)

/-- A comma before a closing bracket is lost from a literal. -/
theorem bracket_in_literal_loses_comma :
    ¬ ∀ (t : String) (v : Value), read t = .ok v → readWithComments t = .ok v := by
  intro h
  have hread : read "[\",]\"]" = .ok (.list [.text ",]"]) := by rfl
  have hshorter : readWithComments "[\",]\"]" = .ok (.list [.text "]"]) := by rfl
  have hsame := h _ _ hread
  rw [hshorter] at hsame
  simp at hsame

end Json

end Codemod
