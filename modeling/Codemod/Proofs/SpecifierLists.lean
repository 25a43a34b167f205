import Codemod.Proofs.Specifiers

/-!
# Lists of specifiers

A list of specifiers between braces may have gaps, commas without a specifier, and a gap before the closing brace.

Main statements:

* `reads_specifier` says that a specifier is read where it is written before a mark, and `specifier_of_ran` that
  what was read as one was written so;
* `reads_list` says that a list is read as the specifiers that its rows say, in order.
-/

namespace Codemod.Syntax

open Pattern Grammar

section

variable {cs : List Chunk} {z z' : Bytes}

/-- No name goes on with a gap, whatever follows the gap. -/
theorem gap_ends {a : UInt8} {g : Bytes} (hg : Gap (a :: g)) (y : Bytes) : nameLength false (a :: (g ++ y)) = 0 := by
  rcases hg.first y with rfl | hblank
  · exact nameLength_other (by decide) (by decide) (by decide) _
  · rw [List.cons_append] at hblank
    by_cases ha : a < 0x80
    · have hblank' : Bytes.isBlank a = true := by
        rw [blankLength_ascii ha] at hblank
        simpa using hblank
      refine nameLength_other ha (isNameByte_of_isBlank hblank') ?_ _
      rintro rfl
      cases hblank'
    · rw [nameLength_beyond ha, if_neg hblank]

/-- No name goes on with a row of words, whatever follows the row. -/
theorem row_ends (hcs : Spelled cs z) (hne : cs ≠ []) (h : nameLength false (rowText cs ++ z) = 0) (z' : Bytes) :
    nameLength false (rowText cs ++ z') = 0 := by
  obtain ⟨⟨g, w⟩, cs, rfl⟩ := List.exists_cons_of_ne_nil hne
  obtain ⟨hg, hw, -⟩ := hcs
  simp only [rowText_cons, Chunk.text, List.append_assoc] at h ⊢
  rcases g with _ | ⟨a, g⟩
  · -- a word that does not go on with a name is a text between quotes
    cases hw with
    | name _ hne hends =>
      rw [List.nil_append, hends] at h
      exact absurd (List.length_eq_zero_iff.mp h) hne
    | quoted hends =>
      have hquote := Word.isQuoted_of_quoted hends
      obtain ⟨b, w, rfl⟩ := List.exists_cons_of_ne_nil (Word.quoted hends).ne_nil
      exact nameLength_quote hquote _
  · exact gap_ends hg _

/-- A word before a row is a word before the row whatever follows that. -/
theorem Word.before_row {w : Bytes} (h : Word (rowText cs ++ z) w) (hcs : Spelled cs z) (hne : cs ≠ []) :
    Word (rowText cs ++ z') w := by
  have hends : nameLength false (rowText cs ++ z) = 0 → nameLength false (rowText cs ++ z') = 0 :=
    fun h => row_ends hcs hne h z'
  obtain ⟨⟨g, v⟩, more, rfl⟩ := List.exists_cons_of_ne_nil hne
  have hfirst : ∃ a rest, rowText (⟨g, v⟩ :: more) = a :: rest := by
    refine List.exists_cons_of_ne_nil fun hnil => hcs.2.1.ne_nil ?_
    simp only [rowText_cons, Chunk.text, List.append_eq_nil_iff] at hnil
    exact hnil.1.2
  obtain ⟨a, rest, heq⟩ := hfirst
  rw [heq] at hends h ⊢
  exact h.of_first hends

/-- A word before a gap is a word before the gap whatever follows that. -/
theorem Word.before_gap {a : UInt8} {g w y : Bytes} (h : Word (a :: (g ++ y)) w) (hg : Gap (a :: g)) (y' : Bytes) :
    Word (a :: (g ++ y')) w :=
  h.of_first fun _ => gap_ends hg y'

/-- A name of characters is a word before every gap. -/
theorem Bindable.before_gap {a : UInt8} {g n : Bytes} (h : Bindable n) (hends : Bytes.EndsCharacter n)
    (hg : Gap (a :: g)) (y : Bytes) : Word (a :: (g ++ y)) n := by
  refine h.before hends (gap_ends hg y) ?_
  rintro rfl
  rcases hg.first y with h | h
  · cases h
  · exact h rfl

/-- Whether two texts begin with the same mark, behind the same gap. -/
def SameMark (z z' : Bytes) : Prop :=
  ∃ g m y y', Gap g ∧ isMark m = true ∧ z = g ++ m :: y ∧ z' = g ++ m :: y'

theorem Word.same_mark {w : Bytes} (h : Word z w) (hz : SameMark z z') : Word z' w := by
  obtain ⟨g, m, y, y', hg, hm, rfl, rfl⟩ := hz
  cases g with
  | nil => exact h.of_first fun _ => nameLength_mark hm _
  | cons a g => exact h.before_gap hg _

/-- The last word of a row ends it. -/
theorem last_suffix {c : Chunk} (h : cs.getLast? = some c) : c.word <:+ rowText cs := by
  induction cs with
  | nil => cases h
  | cons d rest ih =>
    rw [rowText_cons]
    rcases List.eq_nil_or_concat rest with rfl | ⟨more, e, rfl⟩
    · obtain rfl : d = c := by simpa using h
      exact ⟨d.gap, by simp [Chunk.text]⟩
    · refine (ih ?_).trans (List.suffix_append _ _)
      rw [List.getLast?_cons] at h
      simpa using h

/-- A row is read as its words before another text if its last word is. -/
theorem Spelled.congr (h : Spelled cs z)
    (hlast : ∀ c, cs.getLast? = some c → Word z c.word → Word z' c.word) : Spelled cs z' := by
  induction cs with
  | nil => trivial
  | cons c cs ih =>
    obtain ⟨hg, hw, hcs⟩ := h
    by_cases hne : cs = []
    · subst hne
      exact ⟨hg, hlast c rfl hw, trivial⟩
    · have hcs' := ih hcs fun d hd => hlast d (by rw [List.getLast?_cons, hd]; rfl)
      exact ⟨hg, hw.before_row hcs hne, hcs'⟩

end

/-! ### Reading a specifier -/

/-- How names stand in the specifiers of a list. -/
structure Style where
  name : Phrase
  outer : Phrase
  inner : Phrase
  isName : IsNamePattern name
  isOuter : IsNamePattern outer
  isInner : IsNamePattern inner

namespace Style

/-- The specifiers of imports. -/
def imported : Style := ⟨identifier, exportedName, identifier, .inl rfl, .inr rfl, .inl rfl⟩

/-- The specifiers of exports. -/
def exported : Style := ⟨exportedName, exportedName, exportedName, .inr rfl, .inr rfl, .inr rfl⟩

/-- The forms of a specifier. -/
abbrev forms (y : Style) : Phrase := specifier y.name y.outer y.inner

/-- Whether a specifier can say so. -/
def Allows (y : Style) (x : Specified) : Prop := x.Allowed y.name y.outer y.inner

end Style

/-- Whether a row is written with the words of a specifier. -/
structure Writes (y : Style) (x : Specified) (cs : List Chunk) : Prop where
  allowed : y.Allows x
  words : cs.map (·.word) = x.words

section

variable {rules : Rule → Phrase} {around : Surroundings} {k : Kind} {y : Style} {x : Specified} {cs : List Chunk}
  {s s' done : Reading} {source z : Bytes}

/-- A specifier is read where it is written before a mark. -/
theorem reads_specifier (rules : Rule → Phrase) (around : Surroundings) (hx : Writes y x cs)
    (hcs : Spelled cs z) (hz : Closes z) (hk : k ≠ .comment) (hsource : Reached source s.offset s.rest)
    (hs : s.rest = rowText cs ++ z) :
    ∃ t s', Reads rules around (.node k y.forms) s s' ∧ s'.rest = z ∧
      s'.offset = s.offset + (rowText cs).length ∧ Reading.Adds [t] s s' ∧ t.kind = k ∧
      t.specified? source = some x := by
  obtain ⟨c, cs, rfl⟩ : ∃ c more, cs = c :: more := by
    refine List.exists_cons_of_ne_nil ?_
    rintro rfl
    obtain ⟨_ | w, n, _ | a⟩ := x <;> exact absurd hx.words (by simp [Specified.words])
  obtain ⟨hg, hw, hrest⟩ := hcs
  have hwhole : s.rest = c.gap ++ (c.word ++ (rowText cs ++ z)) := by
    rw [hs, rowText_cons, Chunk.text]
    simp
  have hspelled : Spelled (⟨[], c.word⟩ :: cs) z := ⟨Gap.nil, hw, hrest⟩
  obtain ⟨done, hdone, hrow⟩ := (form_of_words rules around
    (s := ⟨s.offset + c.gap.length, c.word ++ (rowText cs ++ z), []⟩)
    (form_specifier y.isName y.isOuter y.isInner) hz (by simp [Chunk.text]) hspelled).1 x.kinds
    (by
      rw [← onWords_specifier y.isName y.isOuter y.isInner hx.allowed, ← hx.words]
      rfl)
  obtain ⟨t, s', hreads, hnode⟩ := reads_node hk hg hw.visible hwhole hdone hrow.adds
  have hreached : Reached source (s.offset + c.gap.length) (rowText (⟨[], c.word⟩ :: cs) ++ z) := by
    rw [hwhole] at hsource
    simpa [Chunk.text] using hsource.append
  refine ⟨t, s', hreads, hnode.rest.trans hrow.rest, ?_, hnode.adds, hnode.kind,
    Tree.specified?_eq hnode.parts hnode.plain hx.words hreached⟩
  rw [hnode.offset, hrow.offset]
  simp [Chunk.text, Nat.add_assoc]

/-- What has been read as a specifier is a row of words that says so. -/
theorem specifier_of_ran (h : Ran rules around y.forms s done) (hfound : s.found = []) {t : Tree}
    (ht : t.children = done.found.reverse) (hsource : Reached source s.offset s.rest) :
    ∃ x cs, Writes y x cs ∧ s.rest = rowText cs ++ done.rest ∧ done.rest ≠ [] ∧ Spelled cs done.rest ∧
      done.offset = s.offset + (rowText cs).length ∧
      t.children.filter (fun c => !c.is .comment) = leavesAt s.offset cs x.kinds ∧
      t.specified? source = some x := by
  obtain ⟨cs, kinds, hs, hne, hspelled, ⟨-, hoffset, hadds⟩, hmay⟩ := exists_row (form_specifier y.isName y.isOuter y.isInner) h
  obtain ⟨x, hallowed, hwords, rfl⟩ := exists_specified y.isName y.isOuter y.isInner hmay
  obtain ⟨hparts, hplain⟩ := hadds.parts hfound ht
  exact ⟨x, cs, ⟨hallowed, hwords⟩, hs, hne, hspelled, hoffset, hparts,
    Tree.specified?_eq hparts hplain hwords (hs ▸ hsource)⟩

end

/-! ### Reading a list of specifiers -/

/-- The text of a list behind its first specifier, up to the closing brace: each comma with the gap before it and
the row behind it, which may be empty, and the gap before the brace. -/
def listTail : List (Bytes × List Chunk) → Bytes → Bytes
  | [], last => last ++ [code '\x7d']
  | (g, cs) :: more, last => g ++ code ',' :: (rowText cs ++ listTail more last)

/-- Whether a row stands for specifiers: for one, or for none where it is empty. -/
inductive Holds (y : Style) : List Chunk → List Specified → Prop
  | nothing : Holds y [] []
  | one {x : Specified} {cs : List Chunk} (h : Writes y x cs) : Holds y cs [x]

/-- Whether the rest of a list is read as specifiers where a text follows it. -/
inductive Listed (y : Style) (z : Bytes) : List (Bytes × List Chunk) → Bytes → List Specified → Prop
  | nil {last : Bytes} (hlast : Gap last) : Listed y z [] last []
  | cons {g last : Bytes} {cs : List Chunk} {more : List (Bytes × List Chunk)} {xs xs' : List Specified} (hg : Gap g)
      (hcs : Holds y cs xs) (hspelled : Spelled cs (listTail more last ++ z)) (hmore : Listed y z more last xs') :
      Listed y z ((g, cs) :: more) last (xs ++ xs')

section

variable {rules : Rule → Phrase} {around : Surroundings} {k : Kind} {y : Style} {xs : List Specified}
  {cs : List Chunk} {more : List (Bytes × List Chunk)} {last : Bytes} {s s' : Reading} {source z : Bytes}

/-- Whether nodes of a kind say this. -/
def Says (source : Bytes) (k : Kind) (ts : List Tree) (xs : List Specified) : Prop :=
  (ts.filter (·.is k)).map (·.specified? source) = xs.map some

theorem Says.append {ts us : List Tree} {xs' : List Specified} (h : Says source k ts xs) (h' : Says source k us xs') :
    Says source k (ts ++ us) (xs ++ xs') := by
  unfold Says at *
  rw [List.filter_append, List.map_append, List.map_append, h, h']

theorem says_symbol {t : Tree} (ht : t.kind = .symbol) (hk : k ≠ .symbol) : Says source k [t] [] := by
  have hno : t.is k = false := decide_eq_false (by rw [ht]; exact hk.symm)
  simp [Says, hno]

theorem Listed.closes (h : Listed y z more last xs) : Closes (listTail more last ++ z) := by
  cases h with
  | nil hlast => exact ⟨last, code '\x7d', z, by simp [listTail], hlast, .inr rfl⟩
  | cons hg _ _ _ => exact ⟨_, code ',', _, by rw [listTail, List.append_assoc, List.cons_append], hg, .inl rfl⟩

/-- A row is read as the specifiers that it stands for. -/
theorem reads_row (rules : Rule → Phrase) (around : Surroundings) (hcs : Holds y cs xs)
    (hspelled : Spelled cs z) (hz : Closes z) (hk : k ≠ .comment) (hsource : Reached source s.offset s.rest)
    (hs : s.rest = rowText cs ++ z) :
    ∃ s' ts, Reads rules around (opt (.node k y.forms)) s s' ∧ s'.rest = z ∧
      s'.offset = s.offset + (rowText cs).length ∧ Reading.Adds ts s s' ∧ Says source k ts xs := by
  cases hcs with
  | nothing =>
    -- no specifier begins with a mark
    have hnone : Refuses rules around (.node k y.forms) s := by
      obtain ⟨m, z', hskip, -, hm⟩ := hz.exists_skip hs
      have hrest : s.skip.inner.rest = rowText [] ++ m :: z' := hskip
      exact .node ((form_of_words rules around (form_specifier y.isName y.isOuter y.isInner)
        ⟨[], m, z', rfl, Gap.nil, hm⟩ hrest trivial).2 rfl)
    exact ⟨s, [], .right hnone (.nothing s), hs, rfl, .refl s, rfl⟩
  | one hx =>
    obtain ⟨t, s', hreads, hrest, hoffset, hadds, hkind, hmeant⟩ :=
      reads_specifier rules around hx hspelled hz hk hsource hs
    refine ⟨s', [t], .left hreads, hrest, hoffset, hadds, ?_⟩
    have hyes : t.is k = true := decide_eq_true hkind
    simp [Says, hyes, hmeant]

/-- A comma is read where it stands behind a gap. -/
theorem reads_sign (rules : Rule → Phrase) (around : Surroundings) (mark : String) {m : UInt8} {g : Bytes}
    (hsign : (sign mark : Phrase) = .token (.exactly [m]) .symbol)
    (hm : isMark m = true) (hg : Gap g) (hs : s.rest = g ++ m :: z) :
    ∃ s' t, Reads rules around (sign mark) s s' ∧ s'.rest = z ∧ s'.offset = s.offset + g.length + 1 ∧
      Reading.Adds [t] s s' ∧ t.kind = .symbol := by
  obtain ⟨hoffset, hrest⟩ := Reading.skip_gap hg (visible_mark hm z) hs
  have htake : s.skip.take (.exactly [m]) .symbol = some ⟨s.skip.offset + 1, z,
      Tree.leaf .symbol s.skip.offset (s.skip.offset + 1) :: s.skip.found⟩ := by
    unfold Reading.take
    rw [hrest]
    simp [Lexeme.length?]
  rw [hsign]
  refine ⟨_, _, .token htake, rfl, by rw [hoffset], (Reading.adds_skip s).push ?_ _ _, rfl⟩
  exact fun h => by cases h

/-- The rest of a list is read as its specifiers. -/
theorem reads_more (rules : Rule → Phrase) (around : Surroundings) (h : Listed y z more last xs)
    (hk : k ≠ .comment) (hk' : k ≠ .symbol) (hsource : Reached source s.offset s.rest)
    (hs : s.rest = listTail more last ++ z) :
    ∃ s' ts, Reads rules around (.many (.both (sign ",") (opt (.node k y.forms)))) s s' ∧
      s'.rest = last ++ code '\x7d' :: z ∧ s'.offset + last.length + 1 = s.offset + (listTail more last).length ∧
      Reading.Adds ts s s' ∧ Says source k ts xs := by
  induction h generalizing s with
  | @nil last hlast =>
    rw [listTail, List.append_assoc] at hs
    have hrest := (Reading.skip_gap hlast (visible_mark rfl z) hs).2
    have hcomma : s.skip.take (.exactly [code ',']) .symbol = none := by
      unfold Reading.take
      rw [hrest]
      rfl
    refine ⟨s, [], .finish (.first (.token hcomma)), hs, ?_, .refl s, rfl⟩
    rw [listTail, List.length_append, List.length_singleton, Nat.add_assoc]
  | @cons g last cs more xs xs' hg hcs hspelled hmore ih =>
    have hs' : s.rest = g ++ code ',' :: (rowText cs ++ (listTail more last ++ z)) := by
      rw [hs, listTail]
      simp
    obtain ⟨s₁, t, hcomma, hrest₁, hoffset₁, hadds₁, hkind⟩ :=
      reads_sign rules around "," rfl rfl hg hs'
    have hsource₁ : Reached source s₁.offset s₁.rest := by
      rw [hs', List.append_cons] at hsource
      rw [hoffset₁, hrest₁, Nat.add_assoc]
      simpa using hsource.append
    obtain ⟨s₂, ts₂, hrow, hrest₂, hoffset₂, hadds₂, hmeant₂⟩ :=
      reads_row rules around hcs hspelled hmore.closes hk hsource₁ hrest₁
    have hsource₂ : Reached source s₂.offset s₂.rest := by
      rw [hrest₁] at hsource₁
      rw [hoffset₂, hrest₂]
      exact hsource₁.append
    obtain ⟨s₃, ts₃, hmany, hrest₃, hoffset₃, hadds₃, hmeant₃⟩ := ih hsource₂ hrest₂
    refine ⟨s₃, _, .more (hcomma.both hrow) ?_ hmany, hrest₃, ?_, (hadds₁.trans hadds₂).trans hadds₃,
      ((says_symbol hkind hk').append hmeant₂).append hmeant₃⟩
    · omega
    · rw [hoffset₃, hoffset₂, hoffset₁, listTail]
      simp only [List.length_append, List.length_cons]
      omega

/-- A list of specifiers between braces. -/
abbrev Style.list (y : Style) (k : Kind) : Phrase := enclosed "\x7b" "\x7d" (sparse "," (.node k y.forms))

/-- A list is read as its specifiers. -/
theorem reads_list (rules : Rule → Phrase) (around : Surroundings) {xs' : List Specified} (hcs : Holds y cs xs)
    (hspelled : Spelled cs (listTail more last ++ z)) (h : Listed y z more last xs') (hlast : Gap last)
    (hk : k ≠ .comment) (hk' : k ≠ .symbol) (hsource : Reached source s.offset s.rest)
    (hs : s.rest = code '\x7b' :: (rowText cs ++ (listTail more last ++ z))) :
    ∃ s' ts, Reads rules around (y.list k) s s' ∧ s'.rest = z ∧
      s'.offset = s.offset + 1 + (rowText cs).length + (listTail more last).length ∧
      Reading.Adds ts s s' ∧ Says source k ts (xs ++ xs') := by
  obtain ⟨s₁, t₁, hopen, hrest₁, hoffset₁, hadds₁, hkind₁⟩ :=
    reads_sign rules around "\x7b" rfl rfl Gap.nil hs
  have hsource₁ : Reached source s₁.offset s₁.rest := by
    rw [hs] at hsource
    rw [hoffset₁, hrest₁]
    exact hsource.tail
  obtain ⟨s₂, ts₂, hrow, hrest₂, hoffset₂, hadds₂, hmeant₂⟩ :=
    reads_row rules .brackets hcs hspelled h.closes hk hsource₁ hrest₁
  have hsource₂ : Reached source s₂.offset s₂.rest := by
    rw [hrest₁] at hsource₁
    rw [hoffset₂, hrest₂]
    exact hsource₁.append
  obtain ⟨s₃, ts₃, hmany, hrest₃, hoffset₃, hadds₃, hmeant₃⟩ :=
    reads_more rules .brackets h hk hk' hsource₂ hrest₂
  obtain ⟨s₄, t₄, hclose, hrest₄, hoffset₄, hadds₄, hkind₄⟩ :=
    reads_sign rules .brackets "\x7d" rfl rfl hlast hrest₃
  have hreads : Reads rules around (y.list k) s s₄ := hopen.both (.inside ((hrow.both hmany).both hclose))
  refine ⟨s₄, _, hreads, hrest₄, by rw [List.length_nil] at hoffset₁; omega,
    ((hadds₁.trans hadds₂).trans hadds₃).trans hadds₄, ?_⟩
  have hopening : Says source k [t₁] [] := says_symbol hkind₁ hk'
  have hmeant := ((hopening.append hmeant₂).append hmeant₃).append (says_symbol hkind₄ hk')
  simpa using hmeant

end

end Codemod.Syntax
