import Codemod.Proofs.ImportRepair
import Codemod.Proofs.NamespaceNames
import Codemod.Proofs.Origins

/-!
# What the clauses of imports bind

The clause of an import binds a default export, a whole module, and what specifiers say. A clause that names
specifiers, or a whole module, is read where it is written behind a gap.

Main statements:

* `clause_of_ran` says what can stand beside a default export in a clause;
* `reads_listing` says that a clause of rows between braces binds what the rows say;
* `reads_wholeClause` says that a clause for a whole module binds it.
-/

namespace Codemod

namespace Syntax

open Pattern Grammar

/-! ### What a clause binds -/

/-- What an import binds. -/
inductive Binding
  /-- The default export, under a name. -/
  | default (name : Bytes)
  /-- All that the module gives away, under a name. -/
  | whole (name : Bytes)
  /-- What a specifier says. -/
  | named (x : Specified)
  deriving DecidableEq, Repr

namespace Tree

/-- What a part of a clause binds. -/
def partBindings (source : Bytes) (t : Tree) : List (Option Binding) :=
  match t.kind with
  | .identifier => [some (.default (t.text source))]
  | .namespaceImport => [(t.wholeName? source).map .whole]
  | .namedImports => (t.children.filter (·.is .importSpecifier)).map fun c => (c.specified? source).map .named
  | _ => []

/-- What a clause binds, in order. -/
def bindings (source : Bytes) (clause : Tree) : List (Option Binding) :=
  clause.children.flatMap (·.partBindings source)

variable {source : Bytes} {t : Tree} {parts : List Tree} {k : Kind}

/-- Comments bind nothing. -/
theorem bindings_eq (hparts : t.children.filter (fun c => !c.is .comment) = parts) :
    t.bindings source = parts.flatMap (·.partBindings source) := by
  subst hparts
  unfold bindings
  induction t.children with
  | nil => rfl
  | cons c rest ih =>
    cases hcomment : c.is .comment with
    | false => rw [List.filter_cons_of_pos (by simp [hcomment]), List.flatMap_cons, List.flatMap_cons, ih]
    | true =>
      have hnone : c.partBindings source = [] := by
        unfold partBindings
        rw [show c.kind = .comment from of_decide_eq_true hcomment]
      rw [List.filter_cons_of_neg (by simp [hcomment]), List.flatMap_cons, hnone, List.nil_append, ih]

theorem childOfKind?_parts (hparts : t.children.filter (fun c => !c.is .comment) = parts) (hk : k ≠ .comment) :
    t.childOfKind? k = parts.find? (·.is k) := by
  subst hparts
  unfold childOfKind?
  induction t.children with
  | nil => rfl
  | cons c rest ih =>
    cases hcomment : c.is .comment with
    | false => rw [List.filter_cons_of_pos (by simp [hcomment]), List.find?_cons, List.find?_cons, ih]
    | true =>
      have hno : c.is k = false := by
        rw [Tree.is, of_decide_eq_true hcomment]
        simpa using hk.symm
      rw [List.filter_cons_of_neg (by simp [hcomment]), List.find?_cons, hno, ih]

end Tree

section

variable {rules : Rule → Phrase} {around : Surroundings} {l : Lexeme} {k : Kind} {p : Phrase} {s s' done : Reading}

theorem Pattern.Ran.adds_token (h : Ran rules around (.token l k) s s') (hk : k ≠ .comment) :
    ∃ t, Reading.Adds [t] s s' ∧ t.kind = k := by
  have htake := h.token
  unfold Reading.take at htake
  split at htake
  · cases htake
  · cases htake
    refine ⟨_, (Reading.adds_skip s).push ?_ _ _, rfl⟩
    exact hk

theorem Pattern.Ran.adds_node (h : Ran rules around (.node k p) s s') (hk : k ≠ .comment) :
    ∃ t, Reading.Adds [t] s s' ∧ t.kind = k ∧ t.stop = s'.offset := by
  obtain ⟨done, -, rfl⟩ := h.node
  exact ⟨_, (Reading.adds_skip s).trans (Reading.adds_close hk _ _), rfl, rfl⟩

/-- What a clause is read by. -/
abbrev clauseBody : Phrase :=
  any [namespaceImport, namedImports, all [identifier, opts [",", any [namespaceImport, namedImports]]]]

/-- What stands behind the name of a default import up to the end of the clause: nothing, or a comma and one more
part. -/
inductive Beside (stop : Nat) : List Tree → Prop
  | nothing : Beside stop []
  | one {comma part : Tree} (hcomma : comma.kind = .symbol)
      (hpart : part.kind = .namespaceImport ∨ part.kind = .namedImports) (hstop : part.stop = stop) :
      Beside stop [comma, part]

/-- A clause that binds a default export begins with its name, which at most one other part follows. -/
theorem clause_of_ran (h : Ran rules around clauseBody s done) (hfound : s.found = []) {t bound : Tree}
    (ht : t.children = done.found.reverse) (hbound : t.childOfKind? .identifier = some bound) :
    (∃ n, (Lexeme.name Grammar.reservedWords).length? s.skip.rest = some n) ∧
      ∃ rest, t.children.filter (fun c => !c.is .comment) = bound :: rest ∧ Beside done.offset rest := by
  have hparts : ∀ {ts}, Reading.Adds ts s done → t.children.filter (fun c => !c.is .comment) = ts :=
    fun hadds => (hadds.parts hfound ht).1
  have hfind : ∀ {ts}, Reading.Adds ts s done → ts.find? (·.is .identifier) = some bound := fun hadds => by
    rw [← hbound, Tree.childOfKind?_parts (hparts hadds) (by simp)]
  have hsingle : ∀ {k p}, Ran rules around (.node k p) s done → k ≠ .comment → k ≠ .identifier → False := by
    intro k p hran hk hk'
    obtain ⟨u, hadds, hkind, -⟩ := hran.adds_node hk
    simpa [Tree.is, hkind, hk'] using hfind hadds
  rcases h.either with hran | h
  · exact (hsingle hran (by simp) (by simp)).elim
  rcases h.either with hran | h
  · exact (hsingle hran (by simp) (by simp)).elim
  obtain ⟨middle, hid, h⟩ := h.both
  have hname : ∃ n, (Lexeme.name Grammar.reservedWords).length? s.skip.rest = some n := by
    have htake := hid.token
    unfold Reading.take at htake
    split at htake
    · cases htake
    · exact ⟨_, ‹_›⟩
  refine ⟨hname, ?_⟩
  obtain ⟨u, hadds, hkind⟩ := hid.adds_token (by simp)
  have hyes : u.is .identifier = true := decide_eq_true hkind
  rcases h.either with h | h
  · obtain ⟨middle', hcomma, h⟩ := h.both
    obtain ⟨comma, hadds', hcomma⟩ := hcomma.adds_token (by simp)
    have hlast : ∃ part, Reading.Adds [part] middle' done ∧
        (part.kind = .namespaceImport ∨ part.kind = .namedImports) ∧ part.stop = done.offset := by
      rcases h.either with h | h
      · obtain ⟨part, hadds, hpart, hstop⟩ := h.adds_node (by simp)
        exact ⟨part, hadds, .inl hpart, hstop⟩
      · obtain ⟨part, hadds, hpart, hstop⟩ := h.adds_node (by simp)
        exact ⟨part, hadds, .inr hpart, hstop⟩
    obtain ⟨part, hadds'', hpart, hstop⟩ := hlast
    have hall := (hadds.trans hadds').trans hadds''
    obtain rfl : u = bound := by simpa [hyes] using hfind hall
    exact ⟨_, hparts hall, .one hcomma hpart hstop⟩
  · obtain rfl := h.nothing
    obtain rfl : u = bound := by simpa [hyes] using hfind hadds
    exact ⟨_, hparts hadds, .nothing⟩

end

/-! ### A clause of named imports -/

/-- A row behind one more space. -/
def spaced : List Chunk → List Chunk
  | [] => []
  | c :: cs => ⟨code ' ' :: c.gap, c.word⟩ :: cs

section

variable {y : Style} {x : Specified} {cs : List Chunk} {z : Bytes}

theorem Writes.ne_nil (h : Writes y x cs) : cs ≠ [] := by
  rintro rfl
  obtain ⟨_ | w, n, _ | a⟩ := x <;> exact absurd h.words (by simp [Specified.words])

theorem rowText_spaced (h : cs ≠ []) : rowText (spaced cs) = code ' ' :: rowText cs := by
  obtain ⟨c, cs, rfl⟩ := List.exists_cons_of_ne_nil h
  rfl

theorem Spelled.spaced (h : Spelled cs z) : Spelled (spaced cs) z := by
  cases cs with
  | nil => trivial
  | cons c cs => exact ⟨h.1.space, h.2⟩

theorem Writes.spaced (h : Writes y x cs) : Writes y x (spaced cs) := by
  obtain ⟨c, cs, rfl⟩ := List.exists_cons_of_ne_nil h.ne_nil
  exact ⟨h.allowed, h.words⟩

end

/-- What a specifier says, with the row of words that it is written with. -/
structure Row where
  meant : Specified
  words : List Chunk
  deriving DecidableEq, Repr

/-- The text of a row. -/
def Row.text (r : Row) : Bytes := rowText r.words

/-- Whether a row is read as an imported specifier before a comma as before a space. -/
structure Row.Imports (r : Row) : Prop where
  writes : Writes .imported r.meant r.words
  settled : ∀ c y, c = code ',' ∨ c = code ' ' → Spelled r.words (c :: y)

/-- The clause of named imports that lists texts. -/
def listing (texts : List Bytes) : Bytes :=
  Bytes.ofString "\x7b " ++ (Bytes.ofString ", ").intercalate texts ++ Bytes.ofString " \x7d"

section

variable {r : Row} {rs : List Row} {z : Bytes}

/-- The rows behind the first one, each behind a comma and a space. -/
def laterRows (rs : List Row) : List (Bytes × List Chunk) :=
  rs.map fun r => ([], spaced r.words)

theorem listing_eq (h : ∀ q ∈ r :: rs, q.Imports) : listing ((r :: rs).map Row.text) =
    code '\x7b' :: (rowText (spaced r.words) ++ listTail (laterRows rs) [code ' ']) := by
  have hmore : (Bytes.ofString ", ").intercalate ((r :: rs).map Row.text) ++ Bytes.ofString " \x7d" =
      rowText r.words ++ listTail (laterRows rs) [code ' '] := by
    induction rs generalizing r with
    | nil =>
      rw [List.map_singleton, List.intercalate_singleton]
      rfl
    | cons q rs ih =>
      have hq := (h q (by simp)).writes.ne_nil
      rw [List.map_cons, List.map_cons, List.intercalate_cons_cons, List.append_assoc, List.append_assoc,
        ← List.map_cons, ih fun p hp => h p (List.mem_cons_of_mem _ hp)]
      show _ = _ ++ ([] ++ code ',' :: (rowText (spaced q.words) ++ listTail (laterRows rs) [code ' ']))
      rw [rowText_spaced hq]
      rfl
  rw [listing, List.append_assoc, hmore, rowText_spaced (h r (by simp)).writes.ne_nil]
  rfl

/-- Behind a row of a list stands a comma or a space. -/
theorem listTail_laterRows (rs : List Row) (z : Bytes) : ∃ c y,
    listTail (laterRows rs) [code ' '] ++ z = c :: y ∧ (c = code ',' ∨ c = code ' ') := by
  cases rs with
  | nil => exact ⟨_, _, rfl, .inr rfl⟩
  | cons q rs => exact ⟨_, _, rfl, .inl rfl⟩

theorem Row.Imports.spelled (h : r.Imports) (rs : List Row) (z : Bytes) :
    Spelled (Syntax.spaced r.words) (listTail (laterRows rs) [code ' '] ++ z) := by
  obtain ⟨c, y, heq, hc⟩ := listTail_laterRows rs z
  rw [heq]
  exact (h.settled c y hc).spaced

theorem listed_laterRows (h : ∀ q ∈ rs, q.Imports) (z : Bytes) :
    Listed .imported z (laterRows rs) [code ' '] (rs.map Row.meant) := by
  induction rs with
  | nil => exact .nil Gap.nil.space
  | cons q rs ih =>
    obtain ⟨hq, hrs⟩ := List.forall_mem_cons.mp h
    exact .cons Gap.nil (.one hq.writes.spaced) (hq.spelled rs z) (ih hrs)

end

section

variable {rules : Rule → Phrase} {around : Surroundings} {source z : Bytes} {s s' done : Reading}

/-- A mark is not read where another one stands. -/
theorem refuses_sign (mark : String) {m m' : UInt8} {g : Bytes}
    (hsign : (sign mark : Phrase) = .token (.exactly [m]) .symbol) (hm : isMark m' = true) (hg : Gap g) (hne : m ≠ m')
    (hs : s.rest = g ++ m' :: z) : Refuses rules around (sign mark) s := by
  rw [hsign]
  refine .token ?_
  unfold Reading.take
  rw [(Reading.skip_gap hg (visible_mark hm z) hs).2]
  simp [Lexeme.length?, hne]

/-- A list of specifiers binds what they say. -/
theorem Pattern.ReadsNode.bindings_of_says {ts : List Tree} {t : Tree} {xs : List Specified}
    (h : ReadsNode .namedImports ts done t s s') (hmeant : Says source .importSpecifier ts xs) :
    t.partBindings source = xs.map fun x => some (.named x) := by
  have hfilter : t.children.filter (·.is .importSpecifier) = ts.filter (·.is .importSpecifier) := by
    rw [← h.parts, List.filter_filter]
    refine List.filter_congr fun c _ => ?_
    cases hspecifier : c.is .importSpecifier with
    | false => rfl
    | true =>
      rw [Tree.is, of_decide_eq_true hspecifier]
      rfl
  unfold Tree.partBindings
  rw [h.kind]
  show (t.children.filter (·.is .importSpecifier)).map ((fun x => x.map Binding.named) ∘ Tree.specified? source) = _
  rw [hfilter, ← List.map_map, hmeant, List.map_map]
  rfl

end

/-- Whether a text, behind a gap and before another text, is read as a clause that binds this. -/
def ReadsAsClause (rules : Rule → Phrase) (around : Surroundings) (source g clause z : Bytes)
    (bs : List (Option Binding)) : Prop :=
  ∀ s : Reading, Reached source s.offset s.rest → s.rest = g ++ (clause ++ z) →
    ∃ t s', Reads rules around importClause s s' ∧ s'.rest = z ∧
      s'.offset = s.offset + g.length + clause.length ∧ Reading.Adds [t] s s' ∧
      t.kind = .importClause ∧ t.role = none ∧ t.bindings source = bs

section

variable {rs : List Row} {g z source : Bytes}

/-- A listing of rows is read as a clause of named imports. -/
theorem reads_listing (rules : Rule → Phrase) (around : Surroundings) (hrows : ∀ q ∈ rs, q.Imports)
    (hne : rs ≠ []) (hg : Gap g) : ReadsAsClause rules around source g (listing (rs.map Row.text)) z
      (rs.map fun q => some (.named q.meant)) := by
  intro s hsource hs
  obtain ⟨r, rs, rfl⟩ := List.exists_cons_of_ne_nil hne
  obtain ⟨hr, hrs⟩ := List.forall_mem_cons.mp hrows
  rw [listing_eq hrows] at hs ⊢
  rw [hs] at hsource
  have hmark := visible_mark (m := code '\x7b') rfl
    (rowText (spaced r.words) ++ (listTail (laterRows rs) [code ' '] ++ z))
  have hreached := hsource.append
  simp only [List.cons_append, List.append_assoc] at hs hreached
  obtain ⟨done, ts, hlist, hrest, hoffset, hadds, hmeant⟩ := reads_list rules around
    (s := ⟨s.offset + g.length, _, []⟩) (k := .importSpecifier) (.one hr.writes.spaced)
    (hr.spelled rs z) (listed_laterRows hrs z) Gap.nil.space (by simp) (by simp) hreached rfl
  obtain ⟨named, s₁, hnamed, hnode⟩ := reads_node (k := .namedImports)
    (s := ⟨s.offset + g.length, _, []⟩) (by simp) Gap.nil hmark rfl hlist hadds
  have hrefuses : Refuses rules around namespaceImport ⟨s.offset + g.length,
      code '\x7b' :: (rowText (spaced r.words) ++ (listTail (laterRows rs) [code ' '] ++ z)), []⟩ := by
    obtain ⟨-, hskip⟩ := Reading.skip_gap (s := ⟨s.offset + g.length, _, []⟩) Gap.nil hmark rfl
    exact .node (.first (refuses_sign "*" rfl rfl Gap.nil (by decide) hskip))
  obtain ⟨t, s', hreads, hclause⟩ := reads_node (p := clauseBody) (k := .importClause) (by simp) hg hmark hs
    (.right hrefuses (.left hnamed)) hnode.adds
  refine ⟨t, s', hreads, ?_, ?_, hclause.adds, hclause.kind, hclause.role, ?_⟩
  · rw [hclause.rest, hnode.rest, hrest]
  · rw [hclause.offset, hnode.offset, hoffset]
    simp only [List.length_cons, List.length_append]
    omega
  · rw [Tree.bindings_eq hclause.parts, List.flatMap_singleton, hnode.bindings_of_says hmeant]
    simp

end

section

variable {x : Whole} {g z source : Bytes}

/-- A name for a whole module is read as a clause. -/
theorem reads_wholeClause (rules : Rule → Phrase) (around : Surroundings) (hx : x.Written identifier z)
    (hgap : x.gap = []) (hg : Gap g) :
    ReadsAsClause rules around source g x.text z [some (.whole x.last.word)] := by
  intro s hsource hs
  have hvisible : Visible (x.text ++ z) := by
    rw [Whole.text, Whole.lead, hgap]
    exact visible_mark rfl _
  rw [hs] at hsource
  obtain ⟨whole, done, hwhole, hrest, hoffset, hadds, hkind, hname⟩ := reads_whole rules around
    (k := .namespaceImport) (s := ⟨s.offset + g.length, x.text ++ z, []⟩) (.inl rfl) (by simp) hx hsource.append rfl
  obtain ⟨t, s', hreads, hclause⟩ := reads_node (p := clauseBody) (k := .importClause) (by simp) hg hvisible hs
    (.left hwhole) hadds
  refine ⟨t, s', hreads, by rw [hclause.rest, hrest], by rw [hclause.offset, hoffset], hclause.adds, hclause.kind,
    hclause.role, ?_⟩
  rw [Tree.bindings_eq hclause.parts, List.flatMap_singleton]
  unfold Tree.partBindings
  rw [hkind, hname]
  rfl

end

end Syntax

end Codemod
