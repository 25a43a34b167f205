import Codemod.Proofs.ImportClauses

/-!
# What import statements say

An import statement is words around a clause: `import`, perhaps a word that tells that only types are meant, and
behind the clause `from` and the specifier of the module. Attributes and a semicolon may follow; they are no part
of what is looked at here.

Main statements:

* `reads_opening` says that such words around a clause that begins with a mark are read as an import that binds
  what the clause binds;
* `exists_opening` says that an import that binds a default export was written so.
-/

namespace Codemod

namespace Syntax

open Pattern Grammar

/-- A word between quotes is one wherever it stands. -/
theorem Word.anywhere {w z z' : Bytes} (h : Word z w) (hw : isQuoted w = true) : Word z' w := by
  cases h with
  | name _ hne hends =>
    rw [Word.isQuoted_of_name hne hends] at hw
    cases hw
  | quoted hends => exact .quoted (quotedLength?_append hends)

/-! ### The text around a clause -/

/-- What an import statement is written with around its clause, up to the specifier of its module. -/
structure ImportText where
  first : Chunk
  typeWord : Option Chunk
  /-- What stands before the clause. -/
  gap : Bytes
  fromWord : Chunk
  module : Chunk
  deriving DecidableEq, Repr

namespace ImportText

/-- The words before the clause. -/
def heads (x : ImportText) : List Chunk := x.first :: x.typeWord.toList

/-- The words behind the clause. -/
def tails (x : ImportText) : List Chunk := [x.fromWord, x.module]

/-- The text with a clause. -/
def text (x : ImportText) (clause : Bytes) : Bytes :=
  rowText x.heads ++ (x.gap ++ (clause ++ rowText x.tails))

/-- The same with nothing before its first word. -/
def atOnce (x : ImportText) : ImportText := { x with first := ⟨[], x.first.word⟩ }

theorem text_atOnce (x : ImportText) (clause : Bytes) : x.text clause = x.first.gap ++ x.atOnce.text clause := by
  simp [text, atOnce, heads, tails, Chunk.text]

/-- Whether this is read as an import of a clause where a text follows it. -/
structure Written (clause z : Bytes) (x : ImportText) : Prop where
  first : x.first.word = Bytes.ofString "import"
  typeWord : ∀ c, x.typeWord = some c → c.word = Bytes.ofString "type" ∨ c.word = Bytes.ofString "typeof"
  heads : Spelled x.heads (x.gap ++ (clause ++ (rowText x.tails ++ z)))
  gap : Gap x.gap
  fromWord : x.fromWord.word = Bytes.ofString "from"
  module : isQuoted x.module.word = true
  tails : Spelled x.tails z

variable {x : ImportText} {clause clause' z z' : Bytes}

theorem Written.atOnce (h : x.Written clause z) : x.atOnce.Written clause z :=
  ⟨h.first, h.typeWord, ⟨Gap.nil, h.heads.2⟩, h.gap, h.fromWord, h.module, h.tails⟩

theorem Written.visible (h : x.Written clause z) : Visible (x.atOnce.text clause ++ z) := by
  have := h.heads.2.1.visible
  simpa [ImportText.text, ImportText.atOnce, ImportText.heads, ImportText.tails, Chunk.text] using this

theorem heads_unquoted (h : x.Written clause z) {c : Chunk} (hc : c ∈ x.heads) : isQuoted c.word = false := by
  rcases List.mem_cons.mp hc with rfl | hc
  · rw [h.first]
    decide +kernel
  · rcases h.typeWord c (by simpa using hc) with hword | hword
    all_goals
      rw [hword]
      decide +kernel

/-- Where a clause begins with a name, another one may stand in its place. -/
theorem Written.replace (h : x.Written clause z) (hname : nameLength false (clause ++ (rowText x.tails ++ z)) ≠ 0)
    (clause' z' : Bytes) : x.Written clause' z' := by
  refine ⟨h.first, h.typeWord, h.heads.congr fun c hc hword => ?_, h.gap, h.fromWord, h.module,
    h.tails.congr fun c hc hword => ?_⟩
  · have hquoted := heads_unquoted h (List.mem_of_getLast? hc)
    cases hgap : x.gap with
    | nil =>
      -- a name that follows a word at once belongs to it
      rw [hgap, List.nil_append] at hword
      cases hword with
      | name _ _ hends => exact absurd (nameLength_rest hends) hname
      | quoted hends =>
        rw [Word.isQuoted_of_quoted hends] at hquoted
        cases hquoted
    | cons a g =>
      rw [hgap, List.cons_append] at hword
      exact hword.before_gap (hgap ▸ h.gap) _
  · obtain rfl : x.module = c := by simpa [ImportText.tails] using hc
    exact hword.anywhere h.module

/-- The nodes of an import around its clause: those of the words before it from one offset on, and those of the
words behind it from another. -/
def parts (x : ImportText) (o : Nat) (clause : Tree) (o' : Nat) : List Tree :=
  leavesAt o x.heads (x.heads.map fun _ => (Kind.symbol, none)) ++
    clause :: leavesAt o' x.tails [(.symbol, none), (.string, some .source)]

end ImportText

namespace Tree

/-- Whether an import is one of types alone: a word stands between `import` and what is bound. -/
def importsTypes (t : Tree) : Bool :=
  (t.children.filter fun c => !c.is .comment)[1]?.any (·.is .symbol)

/-- What an import statement binds. -/
def importBindings (source : Bytes) (t : Tree) : List (Option Binding) :=
  match t.childOfKind? .importClause with
  | some clause => clause.bindings source
  | none => []

/-- The specifier of the module that a statement refers to, with its quotes. -/
def module? (source : Bytes) (t : Tree) : Option Bytes :=
  (t.child? .source).map (·.text source)

end Tree

section

variable {x : ImportText} {t clause : Tree} {o o' : Nat} {rest : List Tree}

/-- What the parts of an import say. -/
theorem ImportText.parts_eq (hparts : t.children.filter (fun c => !c.is .comment) = x.parts o clause o' ++ rest)
    (hplain : Tree.PlainComments t.children) (hkind : clause.kind = .importClause)
    (hrole : clause.role = none) :
    t.importsTypes = x.typeWord.isSome ∧ t.childOfKind? .importClause = some clause ∧
      t.child? .source = some (leafAt (o' + x.fromWord.text.length) x.module (.string, some .source)) := by
  rw [Tree.importsTypes, Tree.childOfKind?_parts hparts (by simp), Tree.child?_eq hparts hplain, hparts]
  obtain ⟨k, r, a, b, cs⟩ := clause
  obtain rfl : k = .importClause := hkind
  obtain rfl : r = none := hrole
  obtain ⟨first, _ | w, gap, fromWord, module⟩ := x
  · exact ⟨rfl, rfl, rfl⟩
  · exact ⟨rfl, rfl, rfl⟩

end

/-! ### Reading an import up to the specifier of its module -/

/-- What an import statement may name. -/
abbrev bindingPhrase : Phrase := any [all [importClause, fromModule], importRequire]

/-- What an import statement is read by up to the specifier of its module. -/
abbrev openingBody : Phrase :=
  all ["import", any [all [typeWord, bindingPhrase], bindingPhrase, part .source string]]

/-- What is read of an import statement up to the specifier of its module, as a node. -/
def importOpening : Phrase := .node .importStatement openingBody

section

variable {x : ImportText} {clause z source : Bytes} {s : Reading} {bs : List (Option Binding)}

theorem onWord_from : (sign "from" : Phrase).onWord (Bytes.ofString "from") = some (.symbol, none) := by
  decide +kernel

theorem onWord_import : (sign "import" : Phrase).onWord (Bytes.ofString "import") = some (.symbol, none) := by
  decide +kernel

theorem onWord_source {w : Bytes} (h : isQuoted w = true) :
    (part .source string : Phrase).onWord w = some (.string, some .source) := by
  simp [onWord, string, Lexeme.takes, h]

/-- A clause and a module are read as what an import names. -/
theorem reads_bindings (rules : Rule → Phrase) (around : Surroundings) (hx : x.Written clause z)
    (hclause : ReadsAsClause rules around source x.gap clause (rowText x.tails ++ z) bs)
    (hsource : Reached source s.offset s.rest) (hs : s.rest = x.gap ++ (clause ++ (rowText x.tails ++ z))) :
    ∃ t s', Reads rules around bindingPhrase s s' ∧ s'.rest = z ∧
      s'.offset = s.offset + x.gap.length + clause.length + (rowText x.tails).length ∧
      Reading.Adds (t :: leavesAt (s.offset + x.gap.length + clause.length) x.tails
        [(.symbol, none), (.string, some .source)]) s s' ∧
      t.kind = .importClause ∧ t.role = none ∧ t.bindings source = bs := by
  obtain ⟨t, s₁, hreads, hrest, hoffset, hadds, hkind, hrole, hbs⟩ := hclause s hsource hs
  obtain ⟨hgap, hword, hgap', hword', -⟩ := hx.tails
  have hrest : s₁.rest = x.fromWord.text ++ (x.module.text ++ z) := by
    rw [hrest, ImportText.tails]
    simp
  obtain ⟨s₂, hfrom, hone⟩ :=
    (one_of_word (p := sign "from") rules around rfl hrest hgap (by simpa using hword)).1 _
    (hx.fromWord ▸ onWord_from)
  obtain ⟨s₃, hmodule, hone'⟩ :=
    (one_of_word (p := part .source string) rules around rfl hone.rest hgap' hword').1 _
    (onWord_source hx.module)
  have hall := (hadds.trans hone.adds).trans hone'.adds
  rw [hone.offset, hoffset] at hall
  refine ⟨t, s₃, .left (hreads.both (hfrom.both hmodule)), hone'.rest, ?_, hall, hkind, hrole, hbs⟩
  rw [hone'.offset, hone.offset, hoffset, ImportText.tails]
  simp [Nat.add_assoc]

/-- Where a clause with its module is read again. -/
theorem reads_openingBody (rules : Rule → Phrase) (around : Surroundings) (hx : x.Written clause z)
    (hmark : ∃ m y, clause = m :: y ∧ isMark m = true)
    (hclause : ReadsAsClause rules around source x.gap clause (rowText x.tails ++ z) bs)
    (hsource : Reached source s.offset s.rest) (hs : s.rest = x.text clause ++ z) :
    ∃ t s', Reads rules around openingBody s s' ∧ s'.rest = z ∧
      s'.offset = s.offset + (x.text clause).length ∧
      Reading.Adds (x.parts s.offset t (s.offset + (rowText x.heads).length + x.gap.length + clause.length)) s s' ∧
      t.kind = .importClause ∧ t.role = none ∧ t.bindings source = bs := by
  obtain ⟨hgap, hword, htype⟩ := hx.heads
  have hs : s.rest = x.first.text ++
      (rowText x.typeWord.toList ++ (x.gap ++ (clause ++ (rowText x.tails ++ z)))) := by
    rw [hs, ImportText.text, ImportText.heads, rowText_cons]
    simp
  rw [hs] at hsource
  obtain ⟨s₁, himport, hone⟩ := (one_of_word (p := sign "import") rules around rfl hs hgap hword).1 _
    (hx.first ▸ onWord_import)
  have hsource₁ : Reached source s₁.offset s₁.rest := by
    rw [hone.offset, hone.rest]
    exact hsource.append
  cases htypeWord : x.typeWord with
  | none =>
    have hrest : s₁.rest = x.gap ++ (clause ++ (rowText x.tails ++ z)) := by
      rw [hone.rest, htypeWord]
      rfl
    obtain ⟨t, s₂, hreads, hrest₂, hoffset₂, hadds, hnode⟩ :=
      reads_bindings rules around hx hclause hsource₁ hrest
    have hrefuses : Refuses rules around typeWord s₁ := by
      obtain ⟨m, y, rfl, hm⟩ := hmark
      exact refuses_mark rfl hm (Reading.skip_gap hx.gap (visible_mark hm _) hrest).2
    have hall := hone.adds.trans hadds
    refine ⟨t, s₂, himport.both (.right (.first hrefuses) (.left hreads)), hrest₂, ?_, ?_, hnode⟩
    · rw [hoffset₂, hone.offset]
      simp [ImportText.text, ImportText.heads, htypeWord, Nat.add_assoc]
    · rw [hone.offset] at hall
      simpa [ImportText.parts, ImportText.heads, htypeWord, leavesAt] using hall
  | some c =>
    obtain ⟨hgap', hword', -⟩ : Spelled [c] _ := by simpa [htypeWord] using htype
    have hrest : s₁.rest = c.text ++ (x.gap ++ (clause ++ (rowText x.tails ++ z))) := by
      rw [hone.rest, htypeWord]
      simp
    obtain ⟨s₂, htype, hone'⟩ := (one_of_word (p := typeWord) rules around rfl hrest hgap' hword').1 _
      (onWord_type (hx.typeWord c htypeWord))
    have hsource₂ : Reached source s₂.offset s₂.rest := by
      rw [hrest] at hsource₁
      rw [hone'.offset, hone'.rest]
      exact hsource₁.append
    obtain ⟨t, s₃, hreads, hrest₃, hoffset₃, hadds, hnode⟩ :=
      reads_bindings rules around hx hclause hsource₂ hone'.rest
    have hall := (hone.adds.trans hone'.adds).trans hadds
    refine ⟨t, s₃, himport.both (.left (htype.both hreads)), hrest₃, ?_, ?_, hnode⟩
    · rw [hoffset₃, hone'.offset, hone.offset]
      simp [ImportText.text, ImportText.heads, htypeWord, Nat.add_assoc]
    · rw [hone'.offset, hone.offset] at hall
      simpa [ImportText.parts, ImportText.heads, htypeWord, leavesAt, Nat.add_assoc] using hall

/-- An import statement is read up to the specifier of its module where it is written. -/
theorem reads_opening (rules : Rule → Phrase) (around : Surroundings) (hx : x.Written clause z)
    (hmark : ∃ m y, clause = m :: y ∧ isMark m = true)
    (hclause : ReadsAsClause rules around source x.gap clause (rowText x.tails ++ z) bs)
    (hsource : Reached source s.offset s.rest) (hs : s.rest = x.text clause ++ z) :
    ∃ t s', Reads rules around importOpening s s' ∧ s'.rest = z ∧
      s'.offset = s.offset + (x.text clause).length ∧ Reading.Adds [t] s s' ∧
      t.importsTypes = x.typeWord.isSome ∧ t.importBindings source = bs ∧
      t.module? source = some x.module.word := by
  rw [x.text_atOnce, List.append_assoc] at hs
  rw [hs] at hsource
  obtain ⟨clauseNode, done, hreads, hrest, hoffset, hadds, hkind, hrole, hbs⟩ := reads_openingBody rules around
    (s := ⟨s.offset + x.first.gap.length, _, []⟩) hx.atOnce hmark hclause hsource.append rfl
  obtain ⟨t, s', hnode, hparts⟩ := reads_node (k := .importStatement) (by simp) hx.heads.1 hx.visible hs hreads hadds
  have hnodes : t.children.filter (fun c => !c.is .comment) = x.atOnce.parts _ clauseNode _ ++ [] :=
    hparts.parts.trans (List.append_nil _).symm
  obtain ⟨htypes, hclauseNode, hmodule⟩ := ImportText.parts_eq hnodes hparts.plain hkind hrole
  refine ⟨t, s', hnode, by rw [hparts.rest, hrest], ?_, hparts.adds, htypes, ?_, ?_⟩
  · rw [hparts.offset, hoffset, x.text_atOnce, List.length_append, Nat.add_assoc]
  · rw [Tree.importBindings, hclauseNode]
    exact hbs
  · have hreached := hsource.append
    have hsplit : x.atOnce.text clause ++ z = (rowText x.atOnce.heads ++ (x.gap ++ (clause ++ x.fromWord.text))) ++
        (x.module.text ++ z) := by
      simp [ImportText.text, ImportText.atOnce, ImportText.tails]
    rw [hsplit] at hreached
    rw [Tree.module?, hmodule, Option.map_some, text_leafAt (z := z)]
    · rfl
    · simpa [ImportText.atOnce, Nat.add_assoc] using hreached.append

end

/-! ### What an import statement was read from -/

/-- What an import statement is read by. -/
abbrev statementBody : Phrase :=
  all ["import", any [all [typeWord, bindingPhrase], bindingPhrase, part .source string],
    opt importAttribute, semicolon .declaration]

/-- Between two places that were reached stands what was read. -/
theorem Reached.between {source v w : Bytes} {o o' : Nat} (h : Reached source o v) (h' : Reached source o' w)
    (hle : o ≤ o') : ∃ y, v = y ++ w ∧ o' = o + y.length := by
  have hdrop : w = v.drop (o' - o) := by
    rw [h'.rest, h.rest, List.drop_drop, Nat.add_sub_cancel' hle]
  have hlength : (v.take (o' - o)).length = o' - o := by
    have := h'.bound
    rw [List.length_take, h.rest, List.length_drop]
    omega
  exact ⟨v.take (o' - o), by rw [hdrop, List.take_append_drop], by omega⟩

section

variable {rules : Rule → Phrase} {around : Surroundings} {p : Phrase} {s s' done : Reading} {source : Bytes}

theorem nameLength_of_name {reserved : List Bytes} {t : Bytes} {n : Nat}
    (h : (Lexeme.name reserved).length? t = some n) : nameLength false t ≠ 0 := by
  simp only [Lexeme.length?, Lexeme.nameLength?] at h
  split at h
  · cases h
  · split at h
    · cases h
    · obtain ⟨rfl, hpos⟩ := nonzero_eq_some h
      exact Nat.ne_of_gt hpos

/-- A reading ends behind where it began. -/
theorem Pattern.Ran.reached (hrules : ∀ r, (rules r).wellBuilt = true) (hp : p.wellBuilt = true)
    (h : Ran rules around p s s') (hs : Reached source s.offset s.rest) (hfound : s.found = []) :
    Reached source s'.offset s'.rest ∧ s.offset ≤ s'.offset := by
  obtain ⟨fuel, h⟩ := h
  have hsound : s.Sound source s.offset := by
    refine ⟨hs, ?_⟩
    rw [hfound]
    exact Tree.PlacedIn.nil (Nat.le_refl _)
  obtain ⟨hreached, hplaced⟩ := (run_sound hrules hp hsound h).1
  exact ⟨hreached, hplaced.le⟩

/-- What follows the specifier of a module binds nothing. -/
theorem ending_adds (h : Ran rules around (all [opt importAttribute, semicolon .declaration]) s s') :
    ∃ ts, Reading.Adds ts s s' ∧ ∀ t ∈ ts, t.kind ≠ .importClause := by
  obtain ⟨middle, hattribute, hsemicolon⟩ := h.both
  have hfirst : ∃ ts, Reading.Adds ts s middle ∧ ∀ t ∈ ts, t.kind ≠ .importClause := by
    rcases hattribute.either with h | h
    · obtain ⟨t, hadds, hkind, -⟩ := h.adds_node (by simp)
      exact ⟨[t], hadds, by simp [hkind]⟩
    · obtain rfl := h.nothing
      exact ⟨[], .refl _, by simp⟩
  have hsecond : ∃ ts, Reading.Adds ts middle s' ∧ ∀ t ∈ ts, t.kind ≠ .importClause := by
    rcases hsemicolon.either with h | h
    · obtain ⟨t, rfl⟩ := h.ending
      exact ⟨[], Reading.adds_after _ _, by simp⟩
    · obtain ⟨t, hadds, hkind⟩ := h.adds_token (by simp)
      exact ⟨[t], hadds, by simp [hkind]⟩
  obtain ⟨ts, hadds, hts⟩ := hfirst
  obtain ⟨us, hadds', hus⟩ := hsecond
  exact ⟨ts ++ us, hadds.trans hadds', List.forall_mem_append.mpr ⟨hts, hus⟩⟩

/-- What an import names was read as a clause and a module, or as the call of a module. -/
theorem exists_bindings (hrules : ∀ r, (rules r).wellBuilt = true) (h : Ran rules around bindingPhrase s s')
    (hsource : Reached source s.skip.offset s.skip.rest) :
    (∃ u, Reading.Adds [u] s s' ∧ u.kind = .importRequireClause) ∨
      ∃ clause done c d y, Ran rules around clauseBody s.skip.inner done ∧
        clause = .node .importClause none s.skip.offset done.offset done.found.reverse ∧
        s.skip.rest = y ++ (rowText [c, d] ++ s'.rest) ∧ done.offset = s.skip.offset + y.length ∧
        Spelled [c, d] s'.rest ∧ c.word = Bytes.ofString "from" ∧ isQuoted d.word = true ∧
        Reading.Adds (clause :: leavesAt done.offset [c, d] [(.symbol, none), (.string, some .source)]) s s' := by
  rcases h.either with h | h
  · obtain ⟨s₁, hclause, h⟩ := h.both
    obtain ⟨s₂, hfrom, hmodule⟩ := h.both
    obtain ⟨done, hbody, rfl⟩ := hclause.node
    obtain ⟨hreached, hle⟩ := hbody.reached hrules (by decide +kernel) hsource rfl
    obtain ⟨y, hy, hoffset⟩ := hsource.between hreached hle
    obtain ⟨c, z, hs₁, hgap, hword⟩ := exists_word (p := sign "from") rfl hfrom
    obtain ⟨kind, ⟨hc, rfl⟩, hone⟩ :=
      (one_of_word (p := sign "from") rules around rfl hs₁ hgap hword).2.2 s₂ hfrom
    obtain ⟨d, z', hs₂, hgap', hword'⟩ := exists_word (p := part .source string) rfl hmodule
    obtain ⟨kind, ⟨inner, ⟨hd, rfl⟩, rfl⟩, hone'⟩ :=
      (one_of_word (p := part .source string) rules around rfl hs₂ hgap' hword').2.2 s' hmodule
    obtain rfl : z' = s'.rest := hone'.rest.symm
    obtain rfl : z = d.text ++ s'.rest := hone.rest.symm.trans hs₂
    have hs₁ : done.rest = rowText [c, d] ++ s'.rest := by
      rw [show done.rest = _ from hs₁]
      simp
    have hall := ((Reading.adds_skip s).trans (Reading.adds_close (by simp) s.skip done)).trans
      (hone.adds.trans hone'.adds)
    rw [hone.offset] at hall
    refine .inr ⟨_, done, c, d, y, hbody, rfl, by rw [hy, hs₁], hoffset,
      ⟨hgap, by simpa using hword, hgap', hword', trivial⟩, eq_of_beq hc, hd, hall⟩
  · obtain ⟨u, hadds, hkind, -⟩ := h.adds_node (by simp)
    exact .inl ⟨u, hadds, hkind⟩

/-- How an import statement that binds a default export was written. -/
structure WrittenAs (source : Bytes) (s : Reading) (t clause : Tree) (x : ImportText) (old z : Bytes) : Prop where
  text : s.rest = x.text old ++ z
  written : x.Written old z
  isName : nameLength false (old ++ (rowText x.tails ++ z)) ≠ 0
  start : clause.start = s.offset + (rowText x.heads).length + x.gap.length
  stop : clause.stop = clause.start + old.length
  types : t.importsTypes = x.typeWord.isSome
  module : t.child? .source = some (leafAt (clause.stop + x.fromWord.text.length) x.module (.string, some .source))

variable {s₁ s₂ : Reading} {first : Chunk} {t clause : Tree} {rest : List Tree}

/-- Behind the words before it, what an import names was read. -/
theorem opening_of_heads (typeWord : Option Chunk) (hrules : ∀ r, (rules r).wellBuilt = true)
    (hfirst : first.word = Bytes.ofString "import")
    (htypeWord : ∀ c, typeWord = some c → c.word = Bytes.ofString "type" ∨ c.word = Bytes.ofString "typeof")
    (hheads : Spelled (first :: typeWord.toList) s₁.rest)
    (hs : s.rest = rowText (first :: typeWord.toList) ++ s₁.rest)
    (hoffset : s₁.offset = s.offset + (rowText (first :: typeWord.toList)).length)
    (hadds : Reading.Adds (leavesAt s.offset (first :: typeWord.toList)
      ((first :: typeWord.toList).map fun _ => (Kind.symbol, none))) s s₁)
    (h : Ran rules around bindingPhrase s₁ s₂) (hsource : Reached source s₁.offset s₁.rest)
    (hrest : Reading.Adds rest s₂ done) (hnone : ∀ t ∈ rest, t.kind ≠ .importClause) (hfound : s.found = [])
    (ht : t.children = done.found.reverse) (hclause : t.childOfKind? .importClause = some clause)
    (hdefault : (clause.childOfKind? .identifier).isSome = true) :
    ∃ x old z, WrittenAs source s t clause x old z := by
  have hparts : ∀ {ts}, Reading.Adds ts s₁ s₂ → t.children.filter (fun c => !c.is .comment) =
      leavesAt s.offset (first :: typeWord.toList) ((first :: typeWord.toList).map fun _ => (Kind.symbol, none)) ++
        ts ++ rest ∧ Tree.PlainComments t.children :=
    fun hts => ((hadds.trans hts).trans hrest).parts hfound ht
  have hleaves : ∀ {c : Tree}, c ∈ leavesAt s.offset (first :: typeWord.toList)
      ((first :: typeWord.toList).map fun _ => (Kind.symbol, none)) → c.kind = .symbol := by
    intro c hc
    cases typeWord <;> simp [leavesAt] at hc
    · rw [hc]
      rfl
    · rcases hc with rfl | rfl <;> rfl
  rcases exists_bindings hrules h (trivia_sound hsource).reached with ⟨u, hu, hkind⟩ |
    ⟨node, body, c, d, y, hbody, rfl, hskip, hstop, htails, hc, hd, hnode⟩
  · -- the call of a module binds no clause
    have hfind := hclause
    rw [Tree.childOfKind?_parts (hparts hu).1 (by simp)] at hfind
    have hmem := List.mem_of_find?_eq_some hfind
    have hkind' := (Tree.childOfKind?_eq_some hclause).2
    rw [Tree.is, decide_eq_true_eq] at hkind'
    rcases List.mem_append.mp hmem with hmem | hmem
    · rcases List.mem_append.mp hmem with hmem | hmem
      · rw [hleaves hmem] at hkind'
        cases hkind'
      · rw [List.mem_singleton.mp hmem, hkind] at hkind'
        cases hkind'
    · exact absurd hkind' (hnone _ hmem)
  · have hall := hparts hnode
    have hnodes : t.children.filter (fun c => !c.is .comment) = (ImportText.mk first typeWord [] c d).parts s.offset
        (.node .importClause none s₁.skip.offset body.offset body.found.reverse) body.offset ++ rest := by
      rw [hall.1]
      simp [ImportText.parts, ImportText.heads, ImportText.tails]
    obtain ⟨htypes, hchild, hmodule⟩ := ImportText.parts_eq hnodes hall.2 rfl rfl
    obtain rfl := Option.some.inj (hclause.symm.trans hchild)
    obtain ⟨bound, hbound⟩ := Option.isSome_iff_exists.mp hdefault
    obtain ⟨⟨n, hn⟩, -⟩ := clause_of_ran hbody rfl rfl hbound
    rw [show s₁.skip.inner.skip.rest = s₁.skip.rest from trivia_again _ s₁.offset s₁.rest] at hn
    have hname := nameLength_of_name hn
    have hvisible : Visible (trivia s₁.offset s₁.rest).rest := visible_of_name hname
    obtain ⟨g, hg, hsplit, hgap⟩ := exists_gap hvisible
    have hsplit : s₁.rest = g ++ (y ++ (rowText [c, d] ++ s₂.rest)) := hsplit.trans (congrArg (g ++ ·) hskip)
    have hgap : s₁.skip.offset = s₁.offset + g.length := hgap
    rw [hskip] at hname
    rw [hsplit] at hs hheads
    refine ⟨⟨first, typeWord, g, c, d⟩, y, s₂.rest, ?_, ⟨hfirst, htypeWord, hheads, hg, hc, hd, htails⟩, hname,
      ?_, hstop, htypes, ?_⟩
    · rw [hs, ImportText.text]
      simp [ImportText.heads, ImportText.tails]
    · show s₁.skip.offset = _
      rw [hgap, hoffset]
      rfl
    · exact hmodule

/-- An import statement that binds a default export was written as words around a clause that begins with a
name. -/
theorem exists_opening (hrules : ∀ r, (rules r).wellBuilt = true) (h : Ran rules around statementBody s done)
    (hfound : s.found = []) (hsource : Reached source s.offset s.rest) (ht : t.children = done.found.reverse)
    (hclause : t.childOfKind? .importClause = some clause)
    (hdefault : (clause.childOfKind? .identifier).isSome = true) :
    ∃ x old z, WrittenAs source s t clause x old z := by
  obtain ⟨s₁, himport, h⟩ := h.both
  obtain ⟨s₂, hany, hend⟩ := h.both
  obtain ⟨rest, hrest, hnone⟩ := ending_adds hend
  obtain ⟨first, z, hs, hgap, hword⟩ := exists_word (p := sign "import") rfl himport
  obtain ⟨kind, ⟨hfirst, rfl⟩, hone⟩ :=
    (one_of_word (p := sign "import") rules around rfl hs hgap hword).2.2 s₁ himport
  obtain rfl := hone.rest
  have hsource₁ : Reached source s₁.offset s₁.rest := by
    rw [hs] at hsource
    rw [hone.offset]
    exact hsource.append
  rcases hany.either with h | h
  · obtain ⟨s₁', htype, h⟩ := h.both
    obtain ⟨c, z, hs₁, hgap', hword'⟩ := exists_word (p := typeWord) rfl htype
    obtain ⟨kind, hmay, hone'⟩ := (one_of_word (p := typeWord) rules around rfl hs₁ hgap' hword').2.2 s₁' htype
    obtain ⟨hc, rfl⟩ := typeWord_mayTake_iff.mp hmay
    obtain rfl := hone'.rest
    have hadds := hone.adds.trans hone'.adds
    rw [hone.offset] at hadds
    refine opening_of_heads (some c) hrules (eq_of_beq hfirst) ?_ ?_ ?_ ?_ hadds h ?_ hrest hnone hfound
      ht hclause hdefault
    · rintro _ ⟨⟩
      exact hc
    · rw [hs₁] at hword
      exact ⟨hgap, by simpa using hword, hgap', hword', trivial⟩
    · rw [hs, hs₁]
      simp
    · rw [hone'.offset, hone.offset]
      simp [Nat.add_assoc]
    · rw [hs₁] at hsource₁
      rw [hone'.offset]
      exact hsource₁.append
  rcases h.either with h | h
  · refine opening_of_heads none hrules (eq_of_beq hfirst) ?_ ⟨hgap, by simpa using hword, trivial⟩ ?_ ?_
      hone.adds h hsource₁ hrest hnone hfound ht hclause hdefault
    · rintro _ ⟨⟩
    · rw [hs]
      simp
    · rw [hone.offset]
      simp
  · -- a module that is only named binds nothing
    obtain ⟨c, z, hs₁, hgap', hword'⟩ := exists_word (p := part .source string) rfl h
    obtain ⟨kind, ⟨inner, ⟨-, rfl⟩, rfl⟩, hone'⟩ :=
      (one_of_word (p := part .source string) rules around rfl hs₁ hgap' hword').2.2 s₂ h
    obtain ⟨hparts, -⟩ := ((hone.adds.trans hone'.adds).trans hrest).parts hfound ht
    rw [Tree.childOfKind?_parts hparts (by simp)] at hclause
    have hkind := List.find?_some (p := fun t : Tree => t.is .importClause) hclause
    rw [Tree.is, decide_eq_true_eq] at hkind
    rcases List.mem_append.mp (List.mem_of_find?_eq_some hclause) with hmem | hmem
    · rcases List.mem_append.mp hmem with hmem | hmem
      all_goals
        rw [List.mem_singleton.mp hmem] at hkind
        cases hkind
    · exact absurd hkind (hnone _ hmem)

end

end Syntax

end Codemod
