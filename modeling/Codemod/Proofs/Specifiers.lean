import Codemod.Proofs.WordRows
import Codemod.Syntax.Grammar.Statements

/-!
# What specifiers say

Imports and exports list specifiers: a name, perhaps with another name that is given to it, perhaps behind a word
that tells that only a type is meant. Their patterns choose between forms of one to four words, where the words
that mark the forms (`type`, `as`) may be names themselves; `onWords` computes the choice on words alone. A form
is read up to a mark, so that the next word cannot be taken for one of it.

Main statements:

* `form_of_words` says that a form reads a row of words before a mark as it reads the words, and `exists_row` that
  what it has read was such a row;
* `onWords_specifier` says that what a grammar lets a specifier say is read so, and `exists_specified` that
  nothing else is;
* `Tree.specified?_eq` says that the node of a specifier says what the words do.
-/

namespace Codemod.Syntax

open Pattern Grammar

/-! ### Marks -/

/-- The marks of lists and of what stands for a whole module. -/
def isMark (b : UInt8) : Bool :=
  b == code ',' || b == code '\x7b' || b == code '\x7d' || b == code '*'

section

variable {m : UInt8} {w z : Bytes}

theorem isMark_cases (h : isMark m = true) :
    m = code ',' ∨ m = code '\x7b' ∨ m = code '\x7d' ∨ m = code '*' := by
  unfold isMark at h
  simpa [or_assoc] using h

/-- No name begins with a mark. -/
theorem nameLength_mark (h : isMark m = true) (t : Bytes) : nameLength false (m :: t) = 0 := by
  rcases isMark_cases h with rfl | rfl | rfl | rfl
  all_goals exact nameLength_other (by decide) (by decide) (by decide) t

theorem visible_mark (h : isMark m = true) (t : Bytes) : Visible (m :: t) := by
  rcases isMark_cases h with rfl | rfl | rfl | rfl
  all_goals exact ⟨_, t, rfl, rfl, by decide⟩

/-- No lexeme that is read as a word begins with a mark. -/
theorem length?_mark (h : isMark m = true) {l : Lexeme} (hl : l.isVerbal = true) (t : Bytes) :
    l.length? (m :: t) = none := by
  cases hsome : l.length? (m :: t) with
  | none => rfl
  | some n =>
    obtain ⟨w, z, heq, -, hword, -⟩ := Word.of_length? hl hsome
    obtain ⟨a, w, rfl⟩ := List.exists_cons_of_ne_nil hword.ne_nil
    obtain ⟨rfl, rfl⟩ := List.cons.inj heq
    cases hword with
    | name _ _ hends =>
      rw [List.cons_append, nameLength_mark h] at hends
      cases hends
    | quoted hends =>
      have hquote := Word.isQuoted_of_quoted hends
      rcases isMark_cases h with rfl | rfl | rfl | rfl
      all_goals cases hquote

/-- A mark is not read where a word stands. -/
theorem exactly_word (h : isMark m = true) (hw : Word z w) : (Lexeme.exactly [m]).length? (w ++ z) = none := by
  cases hsome : (Lexeme.exactly [m]).length? (w ++ z) with
  | none => rfl
  | some n =>
    obtain ⟨⟨t, ht⟩, -⟩ := Lexeme.length?_exactly.mp hsome
    obtain ⟨k, hk⟩ : ∃ k, (Lexeme.name []).length? (w ++ z) = some k ∨
        Lexeme.quoted.length? (w ++ z) = some k := by
      refine ⟨w.length, ?_⟩
      rw [hw.length?_eq rfl, hw.length?_eq rfl]
      cases hquoted : isQuoted w <;> simp [Lexeme.takes, hquoted]
    rw [← ht] at hk
    rcases hk with hk | hk
    · rw [show ([m] ++ t) = m :: t from rfl, length?_mark h rfl] at hk
      cases hk
    · rw [show ([m] ++ t) = m :: t from rfl, length?_mark h rfl] at hk
      cases hk

end

/-- No word is read where a mark stands. -/
theorem refuses_mark {rules : Rule → Phrase} {around : Surroundings} {p : Phrase} {s : Reading} {m : UInt8}
    {y : Bytes} (hp : p.isOne = true) (hm : isMark m = true) (hrest : s.skip.rest = m :: y) : Refuses rules around p s := by
  intro fuel
  cases hrun : run rules fuel around p s with
  | none => rfl
  | some s' =>
    obtain ⟨w, t, heq, hword⟩ := exists_skipped hp ⟨fuel, hrun⟩
    have hnone := exactly_word hm hword
    rw [← heq, hrest] at hnone
    simp [Lexeme.length?] at hnone

/-! ### Rows that end with a mark -/

/-- Whether a mark that ends a specifier follows. -/
def Closes (z : Bytes) : Prop :=
  ∃ g m y, z = g ++ m :: y ∧ Gap g ∧ (m = code ',' ∨ m = code '\x7d')

/-- The mark that ends a specifier. -/
abbrev closing : Phrase := any [",", "\x7d"]

namespace Closes

variable {rules : Rule → Phrase} {around : Surroundings} {p : Phrase} {s : Reading} {z : Bytes}

theorem exists_skip (h : Closes z) (hs : s.rest = z) :
    ∃ m y, s.skip.rest = m :: y ∧ isMark m = true ∧ (m = code ',' ∨ m = code '\x7d') := by
  obtain ⟨g, m, y, rfl, hg, hm⟩ := h
  have hmark : isMark m = true := by rcases hm with rfl | rfl <;> rfl
  exact ⟨m, y, (Reading.skip_gap hg (visible_mark hmark y) hs).2, hmark, hm⟩

/-- A mark is read where it follows. -/
theorem reads (h : Closes z) (hs : s.rest = z) : ∃ s', Reads rules around closing s s' := by
  obtain ⟨m, y, hrest, -, rfl | rfl⟩ := h.exists_skip hs
  · have htake : ∃ s', s.skip.take (.exactly [code ',']) .symbol = some s' := by
      unfold Reading.take
      rw [hrest]
      exact ⟨_, rfl⟩
    obtain ⟨s', hs'⟩ := htake
    exact ⟨s', .left (.token hs')⟩
  · have htake : ∃ s', s.skip.take (.exactly [code '\x7d']) .symbol = some s' := by
      unfold Reading.take
      rw [hrest]
      exact ⟨_, rfl⟩
    obtain ⟨s', hs'⟩ := htake
    have hcomma : s.skip.take (.exactly [code ',']) .symbol = none := by
      unfold Reading.take
      rw [hrest]
      rfl
    exact ⟨s', .right (.token hcomma) (.token hs')⟩

/-- No word is read where a mark follows. -/
theorem refuses_one (hp : p.isOne = true) (h : Closes z) (hs : s.rest = z) : Refuses rules around p s := by
  obtain ⟨m, y, hrest, hmark, -⟩ := h.exists_skip hs
  exact refuses_mark hp hmark hrest

end Closes

/-- No mark is read where a word follows. -/
theorem closing_refuses {rules : Rule → Phrase} {around : Surroundings} {s : Reading} {c : Chunk} {z : Bytes}
    (hs : s.rest = c.text ++ z) (hg : Gap c.gap) (hw : Word z c.word) : Refuses rules around closing s := by
  have hrest := (Reading.skip_gap hg hw.visible (by rw [hs, Chunk.text, List.append_assoc])).2
  have hnone : ∀ m, isMark m = true → s.skip.take (.exactly [m]) .symbol = none := by
    intro m hm
    unfold Reading.take
    rw [hrest, exactly_word hm hw]
  exact .either (.token (hnone (code ',') rfl)) (.token (hnone (code '\x7d') rfl))

/-- Patterns of words up to the mark that ends a specifier. -/
inductive Form : Phrase → Prop
  | finish : Form specifierEnd
  | both {p q : Phrase} (hp : p.isOne = true) (hq : Form q) : Form (.both p q)
  | either {p q : Phrase} (hp : Form p) (hq : Form q) : Form (.either p q)

/-- The nodes that a form makes of the words before a mark, if it reads them. -/
def onWords : Phrase → List Bytes → Option (List (Kind × Option Role))
  | .both p q, w :: ws => (p.onWord w).bind fun kind => (onWords q ws).map (kind :: ·)
  | .either p q, ws => (onWords p ws).orElse fun _ => onWords q ws
  | .ahead _, [] => some []
  | _, _ => none

/-- The nodes that a form may make of words, whichever of its choices succeeds. -/
def MayRead : Phrase → List Bytes → List (Kind × Option Role) → Prop
  | .both p q, w :: ws, kind :: kinds => p.MayTake w kind ∧ MayRead q ws kinds
  | .either p q, ws, kinds => MayRead p ws kinds ∨ MayRead q ws kinds
  | .ahead _, [], [] => True
  | _, _, _ => False

/-- Where a row of words has been read. -/
structure ReadsRow (cs : List Chunk) (kinds : List (Kind × Option Role)) (z : Bytes) (s s' : Reading) : Prop where
  rest : s'.rest = z
  offset : s'.offset = s.offset + (rowText cs).length
  adds : Reading.Adds (leavesAt s.offset cs kinds) s s'

namespace ReadsRow

variable {c : Chunk} {cs : List Chunk} {kind : Kind × Option Role} {kinds : List (Kind × Option Role)} {z : Bytes}
  {s s' s'' : Reading}

theorem nil (hs : s.rest = z) : ReadsRow [] [] z s s :=
  ⟨hs, rfl, .refl s⟩

theorem cons (h : ReadsOne c kind (rowText cs ++ z) s s') (h' : ReadsRow cs kinds z s' s'') :
    ReadsRow (c :: cs) (kind :: kinds) z s s'' := by
  refine ⟨h'.rest, by rw [h'.offset, h.offset]; simp [Nat.add_assoc], ?_⟩
  have hadds := h.adds.trans h'.adds
  rw [h.offset] at hadds
  exact hadds

end ReadsRow

section

variable {rules : Rule → Phrase} {around : Surroundings} {p : Phrase} {cs : List Chunk} {s s' : Reading} {z : Bytes}

/-- A form reads a row of words before a mark as it reads the words. -/
theorem form_of_words (rules : Rule → Phrase) (around : Surroundings) (hp : Form p) (hz : Closes z)
    (hs : s.rest = rowText cs ++ z) (hcs : Spelled cs z) :
    (∀ kinds, onWords p (cs.map (·.word)) = some kinds →
        ∃ s', Reads rules around p s s' ∧ ReadsRow cs kinds z s s') ∧
      (onWords p (cs.map (·.word)) = none → Refuses rules around p s) := by
  induction hp generalizing cs s with
  | finish =>
    cases cs with
    | nil =>
      refine ⟨fun kinds hkinds => ?_, fun hnone => ?_⟩
      · cases hkinds
        obtain ⟨s', hs'⟩ := hz.reads hs
        exact ⟨s, .ahead hs', .nil hs⟩
      · cases hnone
    | cons c cs =>
      refine ⟨fun kinds hkinds => ?_, fun _ => .ahead ?_⟩
      · cases hkinds
      · exact closing_refuses (by rw [hs, rowText_cons, List.append_assoc]) hcs.1 hcs.2.1
  | @both p q hp hq ih =>
    cases cs with
    | nil =>
      refine ⟨fun kinds hkinds => ?_, fun _ => .first (hz.refuses_one hp hs)⟩
      cases hkinds
    | cons c cs =>
      obtain ⟨hgap, hword, hrest⟩ := hcs
      obtain ⟨hreads, hrefuses, hran⟩ :=
        one_of_word rules around hp (by rw [hs, rowText_cons, List.append_assoc]) hgap hword
      refine ⟨fun kinds hkinds => ?_, fun hnone => ?_⟩
      · obtain ⟨kind, hkind, hkinds⟩ := Option.bind_eq_some_iff.mp hkinds
        obtain ⟨more, hmore, rfl⟩ := Option.map_eq_some_iff.mp hkinds
        obtain ⟨s', hs', hone⟩ := hreads kind hkind
        obtain ⟨s'', hs'', hrow⟩ := (ih hone.rest hrest).1 more hmore
        exact ⟨s'', hs'.both hs'', .cons hone hrow⟩
      · cases hkind : p.onWord c.word with
        | none => exact .first (hrefuses hkind)
        | some kind =>
          -- whatever node the word became, the second part fails behind it
          have hmore : onWords q (cs.map (·.word)) = none := by
            simpa [onWords, hkind] using hnone
          refine .both fun s' hs' => ?_
          obtain ⟨_, -, hone⟩ := hran s' hs'
          exact (ih hone.rest hrest).2 hmore
  | @either p q hp hq ihp ihq =>
    obtain ⟨hreads, hrefuses⟩ := ihp hs hcs
    obtain ⟨hreads', hrefuses'⟩ := ihq hs hcs
    refine ⟨fun kinds hkinds => ?_, fun hnone => ?_⟩
    · cases hfirst : onWords p (cs.map (·.word)) with
      | none =>
        obtain ⟨s', hs', hrow⟩ := hreads' kinds (by simpa [onWords, hfirst] using hkinds)
        exact ⟨s', .right (hrefuses hfirst) hs', hrow⟩
      | some first =>
        obtain ⟨s', hs', hrow⟩ := hreads kinds (by simpa [onWords, hfirst] using hkinds)
        exact ⟨s', .left hs', hrow⟩
    · cases hfirst : onWords p (cs.map (·.word)) with
      | none => exact .either (hrefuses hfirst) (hrefuses' (by simpa [onWords, hfirst] using hnone))
      | some first => simp [onWords, hfirst] at hnone

/-- Where a specifier is over, the text goes on. -/
theorem rest_ne_nil (h : Ran rules around specifierEnd s s') : s.rest ≠ [] := by
  obtain ⟨done, hdone⟩ := h.exists_ahead
  intro hnil
  have hskip : s.skip.rest = [] := by
    show (trivia s.offset s.rest).rest = []
    rw [hnil]
    rfl
  rcases hdone.either with hdone | hdone
  all_goals
    have htake := hdone.token
    unfold Reading.take at htake
    rw [hskip] at htake
    cases htake

/-- What a form has read is a row of words, and the text goes on behind it. -/
theorem exists_row (hp : Form p) (h : Ran rules around p s s') : ∃ cs kinds, s.rest = rowText cs ++ s'.rest ∧
    s'.rest ≠ [] ∧ Spelled cs s'.rest ∧ ReadsRow cs kinds s'.rest s s' ∧ MayRead p (cs.map (·.word)) kinds := by
  induction hp generalizing s with
  | finish =>
    have hne := rest_ne_nil h
    obtain rfl := h.ahead
    exact ⟨[], [], rfl, hne, trivial, .nil rfl, trivial⟩
  | @both p q hp hq ih =>
    obtain ⟨middle, hmiddle, hdone⟩ := h.both
    obtain ⟨c, z, hs, hgap, hword⟩ := exists_word hp hmiddle
    obtain ⟨kind, hmay, hone⟩ := (one_of_word rules around hp hs hgap hword).2.2 middle hmiddle
    obtain ⟨cs, kinds, hmore, hne, hspelled, hrow, hmays⟩ := ih hdone
    obtain rfl : z = rowText cs ++ s'.rest := hone.rest.symm.trans hmore
    exact ⟨c :: cs, kind :: kinds, by rw [hs, rowText_cons, List.append_assoc], hne, ⟨hgap, hword, hspelled⟩,
      .cons hone hrow, hmay, hmays⟩
  | either hp hq ihp ihq =>
    rcases h.either with h | h
    · obtain ⟨cs, kinds, hs, hne, hspelled, hrow, hmays⟩ := ihp h
      exact ⟨cs, kinds, hs, hne, hspelled, hrow, .inl hmays⟩
    · obtain ⟨cs, kinds, hs, hne, hspelled, hrow, hmays⟩ := ihq h
      exact ⟨cs, kinds, hs, hne, hspelled, hrow, .inr hmays⟩

end

/-! ### Specifiers -/

/-- What a specifier says. -/
structure Specified where
  /-- The word that tells that only a type is meant, if it stands there. -/
  typeWord : Option Bytes
  name : Bytes
  /-- The other name that the specifier gives. -/
  other : Option Bytes
  deriving DecidableEq, Repr

namespace Specified

/-- The kind of the node of a name. -/
def nameKind (w : Bytes) : Kind := if isQuoted w then .string else .identifier

/-- The words that a specifier is written with. -/
def words (x : Specified) : List Bytes :=
  x.typeWord.toList ++ x.name :: (match x.other with
    | none => []
    | some w => [Bytes.ofString "as", w])

/-- The nodes of the words. -/
def kinds (x : Specified) : List (Kind × Option Role) :=
  (x.typeWord.toList.map fun _ => (Kind.symbol, none)) ++ (nameKind x.name, some .name) :: (match x.other with
    | none => []
    | some w => [(.symbol, none), (nameKind w, some .alias)])

/-- Whether a grammar lets a specifier say so, which reads a name by one pattern where it stands alone and by two
others where it is given another name. -/
structure Allowed (name outer inner : Phrase) (x : Specified) : Prop where
  typeWord : ∀ w, x.typeWord = some w → w = Bytes.ofString "type" ∨ w = Bytes.ofString "typeof"
  alone : x.other = none → ∃ kind, name.MayTake x.name kind
  both : ∀ w, x.other = some w → (∃ kind, outer.MayTake x.name kind) ∧ ∃ kind, inner.MayTake w kind

end Specified

/-- Patterns of names: those of values, and those of whatever is exported. -/
def IsNamePattern (p : Phrase) : Prop := p = identifier ∨ p = exportedName

theorem IsNamePattern.isOne {p : Phrase} (h : IsNamePattern p) : p.isOne = true := by
  rcases h with rfl | rfl <;> rfl

theorem IsNamePattern.mayTake_iff {p : Phrase} {w : Bytes} {kind : Kind × Option Role} (h : IsNamePattern p) :
    p.MayTake w kind ↔ p.onWord w = some kind := by
  rcases h with rfl | rfl
  · show (Lexeme.name Grammar.reservedWords).takes w = true ∧ kind = (.identifier, none) ↔
      (if (Lexeme.name Grammar.reservedWords).takes w then some (Kind.identifier, none) else none) = some kind
    cases (Lexeme.name Grammar.reservedWords).takes w <;> simp [@eq_comm _ kind]
  · show (Lexeme.name []).takes w = true ∧ kind = (.identifier, none) ∨
      Lexeme.quoted.takes w = true ∧ kind = (.string, none) ↔
      ((if (Lexeme.name []).takes w then some (Kind.identifier, none) else none).orElse fun _ =>
        if Lexeme.quoted.takes w then some (Kind.string, none) else none) = some kind
    cases hquoted : isQuoted w <;> simp [Lexeme.takes, hquoted, @eq_comm _ kind]

theorem IsNamePattern.kind_eq {p : Phrase} {w : Bytes} {kind : Kind × Option Role} (h : IsNamePattern p)
    (hkind : p.onWord w = some kind) : kind = (Specified.nameKind w, none) := by
  rcases h with rfl | rfl
  · cases hquoted : isQuoted w
    · simp [identifier, nameAs, onWord, Lexeme.takes, hquoted] at hkind
      simp [Specified.nameKind, hquoted, hkind]
    · simp [identifier, nameAs, onWord, Lexeme.takes, hquoted] at hkind
  · cases hquoted : isQuoted w
    · simp [exportedName, anyNameAs, string, Pattern.any, onWord, Lexeme.takes, hquoted] at hkind
      simp [Specified.nameKind, hquoted, hkind]
    · simp [exportedName, anyNameAs, string, Pattern.any, onWord, Lexeme.takes, hquoted] at hkind
      simp [Specified.nameKind, hquoted, hkind]

/-- Before a name the word for a type is a word of its own. -/
theorem typeWord_mayTake_iff {w : Bytes} {kind : Kind × Option Role} : typeWord.MayTake w kind ↔
    (w = Bytes.ofString "type" ∨ w = Bytes.ofString "typeof") ∧ kind = (.symbol, none) := by
  show ((w == Bytes.ofString "type") = true ∧ kind = (.symbol, none) ∨
    (w == Bytes.ofString "typeof") = true ∧ kind = (.symbol, none)) ↔ _
  simp [or_and_right]

theorem form_specifier {name outer inner : Phrase} (hname : IsNamePattern name) (houter : IsNamePattern outer)
    (hinner : IsNamePattern inner) : Form (specifier name outer inner) := by
  have hboth : Form (bothNames outer inner) :=
    .both houter.isOne (.both rfl (.both hinner.isOne .finish))
  have halone : Form (all [part .name name, specifierEnd]) := .both hname.isOne .finish
  exact .either (.both rfl hboth) (.either hboth (.either (.both rfl halone) halone))

section

variable {name outer inner : Phrase} {ws : List Bytes} {kinds : List (Kind × Option Role)}

theorem mayRead_both {p q : Phrase} (h : MayRead (.both p q) ws kinds) : ∃ w more kind kinds', ws = w :: more ∧
    kinds = kind :: kinds' ∧ p.MayTake w kind ∧ MayRead q more kinds' := by
  rcases ws with _ | ⟨w, more⟩
  · exact h.elim
  · rcases kinds with _ | ⟨kind, kinds⟩
    · exact h.elim
    · exact ⟨w, more, kind, kinds, rfl, rfl, h⟩

theorem mayRead_end (h : MayRead specifierEnd ws kinds) : ws = [] ∧ kinds = [] := by
  rcases ws with _ | ⟨w, ws⟩
  · rcases kinds with _ | ⟨kind, kinds⟩
    · exact ⟨rfl, rfl⟩
    · exact h.elim
  · exact h.elim

theorem IsNamePattern.part_eq {p : Phrase} {r : Role} {w : Bytes} {kind : Kind × Option Role} (hp : IsNamePattern p)
    (h : (Pattern.part r p).MayTake w kind) : (∃ k, p.MayTake w k) ∧ kind = (Specified.nameKind w, some r) := by
  obtain ⟨k, hk, rfl⟩ := h
  refine ⟨⟨k, hk⟩, ?_⟩
  rw [hp.kind_eq (hp.mayTake_iff.mp hk)]

theorem mayRead_bothNames (houter : IsNamePattern outer) (hinner : IsNamePattern inner)
    (h : MayRead (bothNames outer inner) ws kinds) :
    ∃ n a, (∃ k, outer.MayTake n k) ∧ (∃ k, inner.MayTake a k) ∧
      ws = [n, Bytes.ofString "as", a] ∧
      kinds = [(Specified.nameKind n, some .name), (.symbol, none), (Specified.nameKind a, some .alias)] := by
  obtain ⟨n, ws₁, kind₁, kinds₁, rfl, rfl, hn, h₁⟩ := mayRead_both h
  obtain ⟨w, ws₂, kind₂, kinds₂, rfl, rfl, ⟨has, rfl⟩, h₂⟩ := mayRead_both h₁
  obtain ⟨a, ws₃, kind₃, kinds₃, rfl, rfl, ha, h₃⟩ := mayRead_both h₂
  obtain ⟨rfl, rfl⟩ := mayRead_end h₃
  obtain ⟨hn', rfl⟩ := houter.part_eq hn
  obtain ⟨ha', rfl⟩ := hinner.part_eq ha
  obtain rfl : w = Bytes.ofString "as" := eq_of_beq has
  exact ⟨n, a, hn', ha', rfl, rfl⟩

theorem mayRead_alone (hname : IsNamePattern name) (h : MayRead (all [part .name name, specifierEnd]) ws kinds) :
    ∃ n, (∃ k, name.MayTake n k) ∧ ws = [n] ∧ kinds = [(Specified.nameKind n, some .name)] := by
  obtain ⟨n, ws₁, kind₁, kinds₁, rfl, rfl, hn, h₁⟩ := mayRead_both h
  obtain ⟨rfl, rfl⟩ := mayRead_end h₁
  obtain ⟨hn', rfl⟩ := hname.part_eq hn
  exact ⟨n, hn', rfl, rfl⟩

/-- A form that has read words has read a specifier. -/
theorem exists_specified (hname : IsNamePattern name) (houter : IsNamePattern outer)
    (hinner : IsNamePattern inner) (h : MayRead (specifier name outer inner) ws kinds) :
    ∃ x : Specified, x.Allowed name outer inner ∧ ws = x.words ∧ kinds = x.kinds := by
  rcases h with h | h | h | h
  · obtain ⟨t, ws₁, kind₁, kinds₁, rfl, rfl, ht, h₁⟩ := mayRead_both h
    obtain ⟨ht', rfl⟩ := typeWord_mayTake_iff.mp ht
    obtain ⟨n, a, hn, ha, rfl, rfl⟩ := mayRead_bothNames houter hinner h₁
    refine ⟨⟨some t, n, some a⟩, ⟨fun w hw => ?_, fun h => ?_, fun w hw => ?_⟩, rfl, rfl⟩
    · cases hw
      exact ht'
    · cases h
    · cases hw
      exact ⟨hn, ha⟩
  · obtain ⟨n, a, hn, ha, rfl, rfl⟩ := mayRead_bothNames houter hinner h
    refine ⟨⟨none, n, some a⟩, ⟨fun w hw => ?_, fun h => ?_, fun w hw => ?_⟩, rfl, rfl⟩
    · cases hw
    · cases h
    · cases hw
      exact ⟨hn, ha⟩
  · obtain ⟨t, ws₁, kind₁, kinds₁, rfl, rfl, ht, h₁⟩ := mayRead_both h
    obtain ⟨ht', rfl⟩ := typeWord_mayTake_iff.mp ht
    obtain ⟨n, hn, rfl, rfl⟩ := mayRead_alone hname h₁
    refine ⟨⟨some t, n, none⟩, ⟨fun w hw => ?_, fun _ => hn, fun w hw => ?_⟩, rfl, rfl⟩
    · cases hw
      exact ht'
    · cases hw
  · obtain ⟨n, hn, rfl, rfl⟩ := mayRead_alone hname h
    refine ⟨⟨none, n, none⟩, ⟨fun w hw => ?_, fun _ => hn, fun w hw => ?_⟩, rfl, rfl⟩
    · cases hw
    · cases hw

theorem IsNamePattern.onWord_part {p : Phrase} {r : Role} {w : Bytes} (hp : IsNamePattern p)
    (h : ∃ kind, p.MayTake w kind) : (Pattern.part r p).onWord w = some (Specified.nameKind w, some r) := by
  obtain ⟨kind, hkind⟩ := h
  have hword := hp.mayTake_iff.mp hkind
  have heq := hp.kind_eq hword
  simp [onWord, hword, heq]

theorem onWord_type {w : Bytes} (h : w = Bytes.ofString "type" ∨ w = Bytes.ofString "typeof") :
    typeWord.onWord w = some (.symbol, none) := by
  rcases h with rfl | rfl
  · decide +kernel
  · decide +kernel

theorem onWords_alone (hname : IsNamePattern name) {n : Bytes} (hn : ∃ kind, name.MayTake n kind) :
    onWords (all [part .name name, specifierEnd]) [n] = some [(Specified.nameKind n, some .name)] := by
  simp [all, onWords, specifierEnd, hname.onWord_part hn]

theorem onWords_bothNames (houter : IsNamePattern outer) (hinner : IsNamePattern inner) {n a : Bytes}
    (hn : ∃ kind, outer.MayTake n kind) (ha : ∃ kind, inner.MayTake a kind) :
    onWords (bothNames outer inner) [n, Bytes.ofString "as", a] =
      some [(Specified.nameKind n, some .name), (.symbol, none), (Specified.nameKind a, some .alias)] := by
  have has : (sign "as" : Phrase).onWord (Bytes.ofString "as") = some (.symbol, none) := by decide +kernel
  simp [bothNames, all, onWords, specifierEnd, houter.onWord_part hn, hinner.onWord_part ha, has]

theorem onWords_both_none {p q : Phrase} (h : onWords q ws.tail = none) : onWords (.both p q) ws = none := by
  cases ws with
  | nil => rfl
  | cons w more =>
    show (p.onWord w).bind (fun kind => (onWords q more).map (kind :: ·)) = none
    rw [show onWords q more = none from h]
    cases p.onWord w <;> rfl

theorem onWords_end_none (h : ws ≠ []) : onWords specifierEnd ws = none := by
  obtain ⟨w, more, rfl⟩ := List.exists_cons_of_ne_nil h
  rfl

/-- How many words there are decides which form reads them. -/
theorem onWords_alone_none (h : ws.length ≠ 1) : onWords (all [part .name name, specifierEnd]) ws = none := by
  rcases ws with _ | ⟨n, ws⟩
  · rfl
  · refine onWords_both_none (onWords_end_none ?_)
    rintro rfl
    exact h rfl

theorem onWords_bothNames_none (h : ws.length ≠ 3) : onWords (bothNames outer inner) ws = none := by
  rcases ws with _ | ⟨n, _ | ⟨w, _ | ⟨a, ws⟩⟩⟩
  · rfl
  · exact onWords_both_none rfl
  · exact onWords_both_none (onWords_both_none rfl)
  · refine onWords_both_none (onWords_both_none (onWords_both_none (onWords_end_none ?_)))
    rintro rfl
    exact h rfl

/-- A form reads the words of every specifier that the grammar allows. -/
theorem onWords_specifier {x : Specified} (hname : IsNamePattern name)
    (houter : IsNamePattern outer) (hinner : IsNamePattern inner) (hx : x.Allowed name outer inner) :
    onWords (specifier name outer inner) x.words = some x.kinds := by
  have hcases : onWords (specifier name outer inner) x.words =
      (onWords (.both typeWord (bothNames outer inner)) x.words).orElse fun _ =>
        (onWords (bothNames outer inner) x.words).orElse fun _ =>
          (onWords (.both typeWord (all [part .name name, specifierEnd])) x.words).orElse fun _ =>
            onWords (all [part .name name, specifierEnd]) x.words := rfl
  have htyped : ∀ {q : Phrase} {t : Bytes} {more : List Bytes} {kinds : List (Kind × Option Role)},
      t = Bytes.ofString "type" ∨ t = Bytes.ofString "typeof" → onWords q more = some kinds →
      onWords (.both typeWord q) (t :: more) = some ((.symbol, none) :: kinds) := by
    intro q t more kinds ht hq
    simp [onWords, onWord_type ht, hq]
  rw [hcases]
  obtain ⟨type?, n, other?⟩ := x
  obtain ⟨htype, halone, hboth⟩ := hx
  cases type? with
  | none =>
    cases other? with
    | none =>
      have hread := onWords_alone hname (halone rfl)
      rw [onWords_both_none (onWords_bothNames_none (by simp [Specified.words])),
        onWords_bothNames_none (by simp [Specified.words]), onWords_both_none (onWords_alone_none (by simp [Specified.words]))]
      exact hread
    | some a =>
      obtain ⟨hn, ha⟩ := hboth a rfl
      have hread := onWords_bothNames houter hinner hn ha
      rw [onWords_both_none (onWords_bothNames_none (by simp [Specified.words]))]
      exact congrArg (Option.orElse · _) hread
  | some t =>
    cases other? with
    | none =>
      have hread := htyped (htype t rfl) (onWords_alone hname (halone rfl))
      rw [onWords_both_none (onWords_bothNames_none (by simp [Specified.words])),
        onWords_bothNames_none (by simp [Specified.words])]
      exact congrArg (Option.orElse · _) hread
    | some a =>
      obtain ⟨hn, ha⟩ := hboth a rfl
      have hread := htyped (htype t rfl) (onWords_bothNames houter hinner hn ha)
      exact congrArg (Option.orElse · _) hread

end

/-! ### Nodes of specifiers -/

section

variable {source z : Bytes} {o : Nat} {c : Chunk} {cs : List Chunk} {kinds : List (Kind × Option Role)}

theorem text_leafAt {kind : Kind × Option Role} (h : Reached source o (c.text ++ z)) :
    (leafAt o c kind).text source = c.word := by
  rw [Chunk.text, List.append_assoc] at h
  have hword := h.append.slice
  unfold leafAt Tree.text Chunk.text
  rw [List.length_append, ← Nat.add_assoc]
  exact hword

/-- The word that a specifier begins with, if a name follows it. -/
def Tree.typeWord? (source : Bytes) (t : Tree) : Option Bytes :=
  match t.children.filter fun c => !c.is .comment with
  | first :: _ => if first.is .symbol then some (first.text source) else none
  | [] => none

/-- What a node of a specifier says. -/
def Tree.specified? (source : Bytes) (t : Tree) : Option Specified :=
  (t.child? .name).map fun n => ⟨t.typeWord? source, n.text source, (t.child? .alias).map (·.text source)⟩

/-- A comment is no part in a role. -/
theorem Tree.child?_eq {t : Tree} {parts : List Tree} (hparts : t.children.filter (fun c => !c.is .comment) = parts)
    (hplain : PlainComments t.children) (r : Role) :
    t.child? r = parts.find? fun c => c.role = some r := by
  unfold Tree.child?
  subst hparts
  generalize t.children = children at hplain ⊢
  induction children with
  | nil => rfl
  | cons c rest ih =>
    obtain ⟨hc, hrest⟩ := List.forall_mem_cons.mp hplain
    cases hcomment : c.is .comment with
    | false =>
      rw [List.filter_cons_of_pos (by simp [hcomment]), List.find?_cons, List.find?_cons, ih hrest]
    | true =>
      rw [List.filter_cons_of_neg (by simp [hcomment]), List.find?_cons_of_neg (by simp [(hc hcomment).1]), ih hrest]

theorem texts_leavesAt (hlength : kinds.length = cs.length) (h : Reached source o (rowText cs ++ z)) :
    (leavesAt o cs kinds).map (·.text source) = cs.map (·.word) := by
  induction cs generalizing o kinds with
  | nil => cases kinds <;> rfl
  | cons c cs ih =>
    rcases kinds with _ | ⟨kind, kinds⟩
    · cases hlength
    · rw [rowText_cons, List.append_assoc] at h
      rw [leavesAt, List.map_cons, List.map_cons, text_leafAt h, ih (Nat.succ.inj hlength) h.append]

theorem Specified.length_kinds (x : Specified) : x.kinds.length = x.words.length := by
  obtain ⟨_ | t, n, _ | a⟩ := x <;> rfl

theorem Specified.nameKind_ne (w : Bytes) : (Specified.nameKind w = .symbol) = False := by
  unfold Specified.nameKind
  split <;> simp

/-- The node of a row of words says what the words say. -/
theorem Tree.specified?_eq {t : Tree} {x : Specified} (hparts : t.children.filter (fun c => !c.is .comment) =
      leavesAt o cs x.kinds) (hplain : PlainComments t.children)
    (hwords : cs.map (·.word) = x.words) (hsource : Reached source o (rowText cs ++ z)) :
    t.specified? source = some x := by
  have htexts := texts_leavesAt (x.length_kinds.trans (by rw [← hwords, List.length_map])) hsource
  rw [hwords] at htexts
  unfold Tree.specified? Tree.typeWord?
  rw [Tree.child?_eq hparts hplain, Tree.child?_eq hparts hplain, hparts]
  obtain ⟨_ | w, n, _ | a⟩ := x
  · obtain ⟨c, _, rfl, -, hend⟩ := List.map_eq_cons_iff.mp hwords
    obtain rfl := List.map_eq_nil_iff.mp hend
    obtain ⟨hn, -⟩ := List.cons.inj htexts
    simp [Specified.kinds, leavesAt, leafAt, Tree.role, Tree.is, Tree.kind, Specified.nameKind_ne]
    exact hn
  · obtain ⟨c, _, rfl, -, hmore⟩ := List.map_eq_cons_iff.mp hwords
    obtain ⟨d, _, rfl, -, hmore⟩ := List.map_eq_cons_iff.mp hmore
    obtain ⟨e, _, rfl, -, hend⟩ := List.map_eq_cons_iff.mp hmore
    obtain rfl := List.map_eq_nil_iff.mp hend
    obtain ⟨hn, hmore⟩ := List.cons.inj htexts
    obtain ⟨-, hmore⟩ := List.cons.inj hmore
    obtain ⟨ha, -⟩ := List.cons.inj hmore
    simp [Specified.kinds, leavesAt, leafAt, Tree.role, Tree.is, Tree.kind, Specified.nameKind_ne]
    exact ⟨hn, ha⟩
  · obtain ⟨c, _, rfl, -, hmore⟩ := List.map_eq_cons_iff.mp hwords
    obtain ⟨d, _, rfl, -, hend⟩ := List.map_eq_cons_iff.mp hmore
    obtain rfl := List.map_eq_nil_iff.mp hend
    obtain ⟨hw, hmore⟩ := List.cons.inj htexts
    obtain ⟨hn, -⟩ := List.cons.inj hmore
    simp [Specified.kinds, leavesAt, leafAt, Tree.role, Tree.is, Tree.kind]
    exact ⟨hw, hn⟩
  · obtain ⟨c, _, rfl, -, hmore⟩ := List.map_eq_cons_iff.mp hwords
    obtain ⟨d, _, rfl, -, hmore⟩ := List.map_eq_cons_iff.mp hmore
    obtain ⟨e, _, rfl, -, hmore⟩ := List.map_eq_cons_iff.mp hmore
    obtain ⟨f, _, rfl, -, hend⟩ := List.map_eq_cons_iff.mp hmore
    obtain rfl := List.map_eq_nil_iff.mp hend
    obtain ⟨hw, hmore⟩ := List.cons.inj htexts
    obtain ⟨hn, hmore⟩ := List.cons.inj hmore
    obtain ⟨-, hmore⟩ := List.cons.inj hmore
    obtain ⟨ha, -⟩ := List.cons.inj hmore
    simp [Specified.kinds, leavesAt, leafAt, Tree.role, Tree.is, Tree.kind]
    exact ⟨hw, hn, ha⟩

end

end Codemod.Syntax
