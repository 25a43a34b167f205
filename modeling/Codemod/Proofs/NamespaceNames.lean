import Codemod.Proofs.SpecifierLists

/-!
# Names for whole modules

A star with a name behind it stands for all that a module gives away, in an import as in a re-export. Its text
is the star and a row of two words. What has been read so is taken apart into them, and wherever they stand
again before a text that leaves the last of them a word, they are read as the same name.

Main statements:

* `whole_of_ran` says what a name for a whole module was read from;
* `reads_whole` says that it is read again from such a text.
-/

namespace Codemod.Syntax

open Pattern Grammar

variable {rules : Rule → Phrase} {around : Surroundings} {p : Phrase} {k : Kind} {s s' done : Reading}
  {source g z : Bytes} {m : UInt8} {c d : Chunk} {t : Tree}

/-- Where a mark has been read, it stood behind a gap. -/
theorem exists_sign (mark : String) (hsign : (sign mark : Phrase) = .token (.exactly [m]) .symbol)
    (hm : isMark m = true) (h : Ran rules around (sign mark) s s') :
    ∃ g, s.rest = g ++ m :: s'.rest ∧ Gap g ∧ s'.offset = s.offset + g.length + 1 ∧
      Reading.Adds [leafAt s.offset ⟨g, [m]⟩ (.symbol, none)] s s' := by
  rw [hsign] at h
  have htake := h.token
  unfold Reading.take at htake
  split at htake
  · cases htake
  · rename_i n hn
    obtain ⟨⟨y, hy⟩, rfl⟩ := Lexeme.length?_exactly.mp hn
    have hrest : (trivia s.offset s.rest).rest = m :: y := hy.symm
    obtain ⟨g, hg, hsplit, hoffset⟩ := exists_gap (hrest ▸ visible_mark hm y)
    rw [hrest] at hsplit
    have hskip : s.skip.offset = s.offset + g.length := hoffset
    cases htake
    refine ⟨g, ?_, hg, ?_, ?_⟩
    · show s.rest = g ++ m :: (List.drop 1 s.skip.rest)
      rw [hsplit, ← hy]
      rfl
    · show s.skip.offset + 1 = _
      rw [hskip]
    · have hleaf : leafAt s.offset ⟨g, [m]⟩ (.symbol, none) = Tree.leaf .symbol s.skip.offset (s.skip.offset + 1) := by
        rw [hskip]
        simp [leafAt, Tree.leaf, Chunk.text, Nat.add_assoc]
      rw [hleaf]
      exact (Reading.adds_skip s).push (fun h => by cases h) _ _

/-- A name for all that a module gives away. -/
abbrev wholly (p : Phrase) : Phrase := all ["*", "as", p]

/-- What such a name is written with: the gap before the star, and two words with the gaps before them. -/
structure Whole where
  gap : Bytes
  middle : Chunk
  last : Chunk
  deriving DecidableEq, Repr

namespace Whole

/-- What stands before the name. -/
def lead (x : Whole) : Bytes := x.gap ++ code '*' :: x.middle.text

/-- The whole text. -/
def text (x : Whole) : Bytes := x.lead ++ x.last.text

/-- The node of the name. -/
def leafAfter (x : Whole) (offset : Nat) : Tree :=
  leafAt (offset + x.lead.length) x.last (Specified.nameKind x.last.word, none)

/-- The nodes that are made of it. -/
def leaves (x : Whole) (offset : Nat) : List Tree :=
  [leafAt offset ⟨x.gap, [code '*']⟩ (.symbol, none), leafAt (offset + x.gap.length + 1) x.middle (.symbol, none),
    x.leafAfter offset]

end Whole

/-- Whether this is read as a name for a whole module where a text follows it. -/
structure Whole.Written (p : Phrase) (z : Bytes) (x : Whole) : Prop where
  gap : Gap x.gap
  spelled : Spelled [x.middle, x.last] z
  middle : x.middle.word = Bytes.ofString "as"
  isName : ∃ kind, p.MayTake x.last.word kind

/-- Where a name for a whole module has been read. -/
structure ReadsWhole (x : Whole) (z : Bytes) (s s' : Reading) : Prop where
  rest : s'.rest = z
  offset : s'.offset = s.offset + x.text.length
  adds : ∃ ts, Reading.Adds (ts ++ [x.leafAfter s.offset]) s s'

/-- The name that a node gives to a whole module. -/
def Tree.wholeName? (source : Bytes) (t : Tree) : Option Bytes :=
  (t.children.filter fun c => !c.is .comment).getLast?.map (·.text source)

variable {x : Whole}

theorem ReadsWhole.of_parts {s₁ s₂ : Reading} {kind : Kind × Option Role}
    (hoffset : s₁.offset = s.offset + x.gap.length + 1) (hadds : Reading.Adds [t] s s₁)
    (hmiddle : ReadsOne x.middle kind (x.last.text ++ z) s₁ s₂)
    (hlast : ReadsOne x.last (Specified.nameKind x.last.word, none) z s₂ done) : ReadsWhole x z s done := by
  have hlead : s₂.offset = s.offset + x.lead.length := by
    rw [hmiddle.offset, hoffset, Whole.lead]
    simp only [List.length_append, List.length_cons]
    omega
  refine ⟨hlast.rest, ?_, _, hlead ▸ (hadds.trans hmiddle.adds).trans hlast.adds⟩
  rw [hlast.offset, hlead, Whole.text, List.length_append, Nat.add_assoc]

/-- A star and two words are read as a name for a whole module. -/
theorem reads_wholly (rules : Rule → Phrase) (around : Surroundings) (hp : IsNamePattern p) (hx : x.Written p z)
    (hs : s.rest = x.text ++ z) : ∃ s', Reads rules around (wholly p) s s' ∧ ReadsWhole x z s s' := by
  obtain ⟨hg, ⟨hgap, hword, hgap', hword', -⟩, hc, kind, hkind⟩ := hx
  have hs : s.rest = x.gap ++ code '*' :: (x.middle.text ++ (x.last.text ++ z)) := by
    rw [hs, Whole.text, Whole.lead]
    simp
  obtain ⟨s₁, t, hstar, hrest₁, hoffset₁, hadds₁, -⟩ := reads_sign rules around "*" rfl rfl hg hs
  have has : (sign "as" : Phrase).onWord x.middle.word = some (.symbol, none) := by
    rw [hc]
    decide +kernel
  obtain ⟨s₂, hreads₂, hone₂⟩ := (one_of_word rules around rfl hrest₁ hgap (by simpa using hword)).1 _ has
  have hname := hp.mayTake_iff.mp hkind
  rw [hp.kind_eq hname] at hname
  obtain ⟨s₃, hreads₃, hone₃⟩ := (one_of_word rules around hp.isOne hone₂.rest hgap' hword').1 _ hname
  exact ⟨s₃, hstar.both (hreads₂.both hreads₃), .of_parts hoffset₁ hadds₁ hone₂ hone₃⟩

/-- What has been read as a name for a whole module is a star and two words. -/
theorem exists_wholly (hp : IsNamePattern p) (h : Ran rules around (wholly p) s done) :
    ∃ x : Whole, x.Written p done.rest ∧ s.rest = x.text ++ done.rest ∧ ReadsWhole x done.rest s done ∧
      Reading.Adds (x.leaves s.offset) s done := by
  obtain ⟨s₁, hstar, h⟩ := h.both
  obtain ⟨s₂, hsecond, hthird⟩ := h.both
  obtain ⟨g, hs, hg, hoffset₁, hadds₁⟩ := exists_sign (m := code '*') "*" rfl rfl hstar
  obtain ⟨c, z, hs₁, hgap, hword⟩ := exists_word rfl hsecond
  obtain ⟨kind, ⟨has, rfl⟩, hone⟩ := (one_of_word rules around rfl hs₁ hgap hword).2.2 s₂ hsecond
  obtain ⟨d, z', hs₂, hgap', hword'⟩ := exists_word hp.isOne hthird
  obtain ⟨kind, hmay, hone'⟩ := (one_of_word rules around hp.isOne hs₂ hgap' hword').2.2 done hthird
  obtain rfl := hp.kind_eq (hp.mayTake_iff.mp hmay)
  obtain rfl : z' = done.rest := hone'.rest.symm
  obtain rfl : z = d.text ++ done.rest := hone.rest.symm.trans hs₂
  refine ⟨⟨g, c, d⟩, ⟨hg, ⟨hgap, by simpa using hword, hgap', hword', trivial⟩, eq_of_beq has, _, hmay⟩, ?_,
    .of_parts hoffset₁ hadds₁ hone hone', ?_⟩
  · rw [hs, hs₁, Whole.text, Whole.lead]
    simp
  · have hlead : s₂.offset = s.offset + (g ++ code '*' :: c.text).length := by
      rw [hone.offset, hoffset₁]
      simp only [List.length_append, List.length_cons]
      omega
    have hall := (hadds₁.trans hone.adds).trans hone'.adds
    rw [hoffset₁, hlead] at hall
    exact hall

/-- The last part of a node that gives a name to a whole module is that name. -/
theorem wholeName?_eq (ts : List Tree) {o : Nat}
    (hparts : t.children.filter (fun c => !c.is .comment) = ts ++ [x.leafAfter o])
    (hsource : Reached source o (x.text ++ z)) : t.wholeName? source = some x.last.word := by
  unfold Tree.wholeName?
  rw [Whole.text, List.append_assoc] at hsource
  rw [hparts, List.getLast?_concat, Option.map_some, Whole.leafAfter, text_leafAt hsource.append]

/-- A node that gives a name to a whole module was read from a star and two words. -/
theorem whole_of_ran (hp : IsNamePattern p) (h : Ran rules around (wholly p) s done) (hfound : s.found = [])
    (ht : t.children = done.found.reverse) (hsource : Reached source s.offset s.rest) :
    ∃ x : Whole, x.Written p done.rest ∧ s.rest = x.text ++ done.rest ∧
      done.offset = s.offset + x.text.length ∧ t.wholeName? source = some x.last.word ∧
      t.children.filter (fun c => !c.is .comment) = x.leaves s.offset ∧ Tree.PlainComments t.children := by
  obtain ⟨x, hx, hs, ⟨-, hoffset, -⟩, hadds⟩ := exists_wholly hp h
  obtain ⟨hparts, hplain⟩ := hadds.parts hfound ht
  exact ⟨x, hx, hs, hoffset, wholeName?_eq (x.leaves s.offset).dropLast hparts (hs ▸ hsource), hparts, hplain⟩

/-- A name for a whole module is read where it is written. -/
theorem reads_whole (rules : Rule → Phrase) (around : Surroundings) (hp : IsNamePattern p) (hk : k ≠ .comment)
    (hx : x.Written p z) (hsource : Reached source s.offset s.rest) (hs : s.rest = x.text ++ z) :
    ∃ t s', Reads rules around (.node k (wholly p)) s s' ∧ s'.rest = z ∧
      s'.offset = s.offset + x.text.length ∧ Reading.Adds [t] s s' ∧ t.kind = k ∧
      t.wholeName? source = some x.last.word := by
  obtain ⟨hg, hspelled, hmiddle, hname⟩ := hx
  have hs : s.rest = x.gap ++ ((Whole.mk [] x.middle x.last).text ++ z) := by
    rw [hs, Whole.text, Whole.lead, Whole.text, Whole.lead]
    simp
  obtain ⟨done, hdone, hrest, hoffset, ts, hadds⟩ := reads_wholly rules around (x := ⟨[], x.middle, x.last⟩)
    (s := ⟨s.offset + x.gap.length, _, []⟩) hp ⟨Gap.nil, hspelled, hmiddle, hname⟩ rfl
  obtain ⟨t, s', hreads, hnode⟩ := reads_node hk hg (visible_mark rfl _) hs hdone hadds
  refine ⟨t, s', hreads, hnode.rest.trans hrest, ?_, hnode.adds, hnode.kind,
    wholeName?_eq (x := ⟨[], x.middle, x.last⟩) _ hnode.parts (z := z) ?_⟩
  · rw [hnode.offset, hoffset]
    simp only [Whole.text, Whole.lead, List.length_append, List.length_cons, List.length_nil]
    omega
  · rw [hs] at hsource
    exact hsource.append

end Codemod.Syntax
