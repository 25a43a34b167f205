import Codemod.Proofs.Beginnings
import Codemod.Proofs.VisibleEnds

/-!
# A source as a series of statements

The first line of a source can tell how it is run. Apart from that line a source is read statement by statement as
long as one can be read. What stands next depends only on the text behind the blanks and comments that come first,
except that the first line is looked for at the very beginning.

Main statements:

* `Grammar.readNext_adds` says what is built where something is read;
* `Grammar.readProgram_series` says that a source is read as a series of statements;
* `Grammar.Series.unique` says that there is only one such series from each place on;
* `Grammar.Series.again` says that the same text is read as the same statements in another source;
* `Grammar.Series.follow` says that statements which keep their places in another source are read first there.
-/

namespace Codemod.Syntax

open Pattern

theorem Reading.AddsNode.unique {s s' : Reading} {t t' : Tree} (h : s.AddsNode t s') (h' : s.AddsNode t' s') :
    t = t' :=
  (List.cons.inj (h.found.symm.trans h'.found)).1

namespace Grammar

variable {d : Dialect} {p : Phrase} {s s' s'' u last : Reading} {t : Tree} {ts ts' : List Tree} {source : Bytes}

/-! ### What is read next -/

/-- Reads by a pattern, with the steps that are allowed for what is left of the source. -/
def readBy (d : Dialect) (p : Phrase) (s : Reading) : Option Reading :=
  run (rules d) (stepsPerByte * (s.rest.length + 1)) .statement p s

/-- Reads what stands next in a source: a statement or, at the beginning, the line that tells how it is run. -/
def readNext (d : Dialect) (s : Reading) : Option Reading :=
  (if s.offset = 0 then readBy d hashBang s else none).orElse fun _ => readBy d (call .statement) s

/-- More steps than are taken before the first byte of a statement is read. -/
def margin : Nat := 100

theorem statement_depth_le : (call .statement).depth rank ≤ margin := by
  decide +kernel

theorem hashBang_depth_le : hashBang.depth rank ≤ margin := by
  decide +kernel

/-- It makes no difference how many steps are allowed beyond those that are needed. -/
theorem run_eq_readBy {fuel : Nat} (hp : p.depth rank ≤ margin) (h : stepsPerByte * s.rest.length + margin ≤ fuel) :
    run (rules d) fuel .statement p s = readBy d p s := by
  have hallowed : stepsPerByte * s.rest.length + margin ≤ stepsPerByte * (s.rest.length + 1) := by
    rw [Nat.mul_succ]
    exact Nat.add_le_add_left (by decide) _
  have henough : stepsPerByte * s.rest.length + p.depth rank ≤ stepsPerByte * s.rest.length + margin :=
    Nat.add_le_add_left hp _
  unfold readBy
  rw [run_eq_of_enough (rules_consume d) (rules_depth_le d) henough h,
    run_eq_of_enough (rules_consume d) (rules_depth_le d) henough hallowed]

theorem readNext_eq_some (h : readNext d s = some s') : (s.offset = 0 ∧ readBy d hashBang s = some s') ∨
    (s.offset ≠ 0 ∨ readBy d hashBang s = none) ∧ readBy d (call .statement) s = some s' := by
  unfold readNext at h
  by_cases hstart : s.offset = 0
  · rw [if_pos hstart] at h
    cases hline : readBy d hashBang s with
    | none => rw [hline] at h; exact .inr ⟨.inr rfl, h⟩
    | some done => rw [hline] at h; exact .inl ⟨hstart, h⟩
  · rw [if_neg hstart] at h
    exact .inr ⟨.inl hstart, h⟩

/-- Where no first line is read, a statement is. -/
theorem readNext_eq (h : s.offset ≠ 0 ∨ readBy d hashBang s = none) :
    readNext d s = readBy d (call .statement) s := by
  unfold readNext
  by_cases hstart : s.offset = 0
  · rw [if_pos hstart, h.resolve_left (not_not_intro hstart)]
    rfl
  · rw [if_neg hstart]
    rfl

/-- Whether a node is a statement or the line that tells how the source is run. -/
def isNextKind (k : Kind) : Bool :=
  isStatementKind k || k == .hashBangLine

/-- What is read next is one node behind the comments before it. -/
theorem readNext_adds (h : readNext d s = some s') : ∃ t, s.AddsNode t s' ∧ isNextKind t.kind = true := by
  rcases readNext_eq_some h with ⟨-, h⟩ | ⟨-, h⟩
  · obtain ⟨t, hadds, hk⟩ := hashBang_adds h
    exact ⟨t, hadds, by rw [hk]; rfl⟩
  · obtain ⟨t, hadds, hk⟩ := statement_adds h
    exact ⟨t, hadds, by unfold isNextKind; rw [hk]; rfl⟩

theorem readNext_kind (h : readNext d s = some s') (hadds : s.AddsNode t s') : isNextKind t.kind = true := by
  obtain ⟨t', hadds', hk⟩ := readNext_adds h
  rwa [hadds.unique hadds']

theorem readNext_onward (h : readNext d s = some s') : s.Onward s' := by
  rcases readNext_eq_some h with ⟨-, h⟩ | ⟨-, h⟩ <;> exact run_onward h

/-- It is not empty. -/
theorem offset_lt_of_readNext (h : readNext d s = some s') : s.offset < s'.offset := by
  obtain ⟨t, hadds, -⟩ := readNext_adds h
  have hlt := hadds.start_lt
  have htotal := (Reading.onward_skip s).total
  have hle := (Reading.onward_skip s).length_le
  rw [hadds.start_eq, hadds.stop_eq] at hlt
  omega

theorem rest_lt_of_readNext (h : readNext d s = some s') : s'.rest.length < s.rest.length := by
  have htotal := (readNext_onward h).total
  have hlt := offset_lt_of_readNext h
  omega

theorem skip_rest_ne_nil (h : readNext d s = some s') : s.skip.rest ≠ [] := by
  obtain ⟨t, hadds, -⟩ := readNext_adds h
  have hlt := hadds.start_lt
  rw [hadds.start_eq, hadds.stop_eq] at hlt
  have hskip := (Reading.onward_skip s).total
  have htotal := (readNext_onward h).total
  refine List.ne_nil_of_length_pos ?_
  omega

theorem readNext_ends (hs : Reached source s.offset s.rest) (h : readNext d s = some s') :
    s'.rest = [] ∨ source.LineVisible s'.offset := by
  obtain ⟨t, hadds, -⟩ := readNext_adds h
  rcases readNext_eq_some h with ⟨-, h⟩ | ⟨-, h⟩
  · exact lineVisible_of_run hashBang_leaves hs h hadds
  · exact lineVisible_of_run rfl hs h hadds

/-! ### One after another -/

/-- From one place to another so many statements are read, one after the other. -/
inductive Series (d : Dialect) : Reading → List Tree → Reading → Prop
  | nil (s : Reading) : Series d s [] s
  | cons {s s' s'' : Reading} {t : Tree} {ts : List Tree} (h : readNext d s = some s') (hadds : s.AddsNode t s')
      (hrest : Series d s' ts s'') : Series d s (t :: ts) s''

namespace Series

theorem onward (h : Series d s ts s'') : s.Onward s'' := by
  induction h with
  | nil s => exact .refl s
  | cons h _ _ ih => exact (readNext_onward h).trans ih

theorem append_iff : Series d s (ts ++ ts') s'' ↔ ∃ s', Series d s ts s' ∧ Series d s' ts' s'' := by
  constructor
  · intro h
    induction ts generalizing s with
    | nil => exact ⟨s, .nil s, h⟩
    | cons t ts ih =>
      cases h with
      | cons h hadds hrest =>
        obtain ⟨s', hts, hts'⟩ := ih hrest
        exact ⟨s', .cons h hadds hts, hts'⟩
  · rintro ⟨s', hts, hts'⟩
    induction hts with
    | nil s => exact hts'
    | cons h hadds _ ih => exact .cons h hadds (ih hts')

/-- Behind a statement only the end of the text and a line that is not blank are left, and the statement was built
last. -/
theorem ends (h : Series d s ts s'') (hs : Reached source s.offset s.rest) : ts = [] ∧ s'' = s ∨
    0 < s''.offset ∧ (s''.rest = [] ∨ source.LineVisible s''.offset) ∧
      ∃ t more, s''.found = t :: more ∧ t.is .comment = false := by
  induction h with
  | nil s => exact .inl ⟨rfl, rfl⟩
  | cons h hadds _ ih =>
    rcases ih ((readNext_onward h).reached hs) with ⟨-, rfl⟩ | hends
    · have hpos := offset_lt_of_readNext h
      exact .inr ⟨by omega, readNext_ends hs h, _, _, hadds.found, hadds.no_comment⟩
    · exact .inr hends

/-- From each place on there is only one series that goes on until nothing can be read. -/
theorem unique (h : Series d s ts s'') (hstop : readNext d s'' = none) (h' : Series d s ts' last)
    (hstop' : readNext d last = none) : ts = ts' ∧ s'' = last := by
  induction h generalizing ts' with
  | nil s =>
    cases h' with
    | nil => exact ⟨rfl, rfl⟩
    | cons h => rw [hstop] at h; cases h
  | cons h hadds _ ih =>
    cases h' with
    | nil => rw [hstop'] at h; cases h
    | cons h' hadds' hrest' =>
      obtain rfl := Option.some.inj (h.symm.trans h')
      obtain ⟨rfl, rfl⟩ := ih hstop hrest'
      obtain rfl := hadds.unique hadds'
      exact ⟨rfl, rfl⟩

/-- As many statements in a row are the same ones. -/
theorem eq_of_length (h : Series d s ts s'') (h' : Series d s ts' last) (hlength : ts.length = ts'.length) :
    ts = ts' ∧ s'' = last := by
  induction h generalizing ts' with
  | nil s =>
    obtain rfl := List.length_eq_zero_iff.mp hlength.symm
    cases h'
    exact ⟨rfl, rfl⟩
  | cons h hadds _ ih =>
    cases h' with
    | nil => cases hlength
    | cons h' hadds' hrest' =>
      obtain rfl := Option.some.inj (h.symm.trans h')
      obtain ⟨rfl, rfl⟩ := ih hrest' (Nat.succ.inj hlength)
      obtain rfl := hadds.unique hadds'
      exact ⟨rfl, rfl⟩

theorem isNextKind_of_mem (h : Series d s ts s'') (ht : t ∈ ts) : isNextKind t.kind = true := by
  induction h with
  | nil s => cases ht
  | cons h hadds _ ih =>
    rcases List.mem_cons.mp ht with rfl | ht
    · exact readNext_kind h hadds
    · exact ih ht

theorem found_suffix (h : Series d s ts s'') : s.found <:+ s''.found := by
  induction h with
  | nil s => exact List.suffix_rfl
  | cons _ hadds _ ih =>
    rw [hadds.found] at ih
    exact (List.suffix_append _ _).trans ((List.suffix_cons _ _).trans ih)

end Series

theorem exists_series (d : Dialect) (s : Reading) : ∃ ts s'', Series d s ts s'' ∧ readNext d s'' = none := by
  induction hn : s.rest.length using Nat.strongRecOn generalizing s with
  | ind n ih =>
    cases hnext : readNext d s with
    | none => exact ⟨[], s, .nil s, hnext⟩
    | some s' =>
      obtain ⟨t, hadds, -⟩ := readNext_adds hnext
      obtain ⟨ts, s'', hrest, hstop⟩ := ih _ (hn ▸ rest_lt_of_readNext hnext) s' rfl
      exact ⟨t :: ts, s'', .cons hnext hadds hrest, hstop⟩

/-- A series of statements is read by a repetition. -/
theorem Series.run_many {fuel : Nat} (h : Series d s ts s'') (hstop : readNext d s'' = none)
    (hs : s.offset ≠ 0 ∨ readBy d hashBang s = none) (hfuel : stepsPerByte * s.rest.length + margin < fuel) :
    run (rules d) fuel .statement (.many (call .statement)) s = some s'' := by
  induction h generalizing fuel with
  | nil s =>
    obtain ⟨fuel, rfl⟩ := Nat.exists_eq_add_one_of_ne_zero (Nat.ne_of_gt (Nat.zero_lt_of_lt hfuel))
    rw [Pattern.run_many, run_eq_readBy statement_depth_le (by omega), ← readNext_eq hs, hstop]
  | @cons s s' s'' t ts h hadds _ ih =>
    obtain ⟨fuel, rfl⟩ := Nat.exists_eq_add_one_of_ne_zero (Nat.ne_of_gt (Nat.zero_lt_of_lt hfuel))
    have hlt := offset_lt_of_readNext h
    have hshorter := rest_lt_of_readNext h
    -- A statement takes a byte, and so leaves more steps to spare than it takes.
    have hmore : stepsPerByte * s'.rest.length + stepsPerByte ≤ stepsPerByte * s.rest.length := by
      rw [← Nat.mul_succ]
      exact Nat.mul_le_mul_left _ hshorter
    have hone : 1 ≤ stepsPerByte := by decide
    rw [Pattern.run_many, run_eq_readBy statement_depth_le (by omega), ← readNext_eq hs, h]
    dsimp only
    rw [if_neg (by omega)]
    exact ih hstop (.inl (by omega)) (by omega)

/-- What is left behind the first line and the statements can always be passed over. -/
theorem run_program {fuel : Nat} (hline : run (rules d) (fuel + 2) .statement (opt hashBang) s = some s')
    (hmany : run (rules d) (fuel + 1) .statement (.many (call .statement)) s' = some s'') :
    run (rules d) (fuel + 3) .statement program s = some s''.skip := by
  have hparts : program = .both (opt hashBang) (.both (.many (call .statement)) .blanks) := rfl
  rw [hparts, run_both, hline, Option.bind_some, run_both, hmany]
  rfl

/-- A source is read as a series of statements, and the blanks and comments behind them. -/
theorem readProgram_series (d : Dialect) (source : Bytes) : ∃ ts s'',
    Series d ⟨0, source, []⟩ ts s'' ∧ readNext d s'' = none ∧ readProgram d source = s''.skip := by
  let start : Reading := ⟨0, source, []⟩
  obtain ⟨fuel, hfuel, henough⟩ : ∃ fuel, stepsPerByte * (source.length + 1) = fuel + 3 ∧
      stepsPerByte * source.length + margin < fuel := by
    have hspare : margin + 3 < stepsPerByte := by decide
    refine ⟨stepsPerByte * (source.length + 1) - 3, ?_, ?_⟩ <;> rw [Nat.mul_succ] <;> omega
  have hopt : run (rules d) (fuel + 2) .statement (opt hashBang) start =
      (readBy d hashBang start).orElse fun _ => some start := by
    unfold opt
    rw [run_either, run_eq_readBy hashBang_depth_le (Nat.le_of_lt (Nat.lt_succ_of_lt henough)), run_nothing]
  have hread : ∀ {s''}, run (rules d) (fuel + 3) .statement program start = some s'' →
      readProgram d source = s'' := by
    intro s'' h
    change (run (rules d) (stepsPerByte * (source.length + 1)) .statement program start).getD start = s''
    rw [hfuel, h]
    rfl
  cases hline : readBy d hashBang start with
  | none =>
    rw [hline] at hopt
    obtain ⟨ts, s'', hseries, hstop⟩ := exists_series d start
    have hmany := hseries.run_many hstop (.inr hline) (Nat.lt_succ_of_lt henough)
    exact ⟨ts, s'', hseries, hstop, hread (run_program hopt hmany)⟩
  | some s =>
    rw [hline] at hopt
    obtain ⟨t, hadds, -⟩ := hashBang_adds hline
    have hnext : readNext d start = some s := by
      unfold readNext
      rw [if_pos rfl, hline]
      rfl
    obtain ⟨ts, s'', hseries, hstop⟩ := exists_series d s
    have hlt := offset_lt_of_readNext hnext
    have hle : stepsPerByte * s.rest.length ≤ stepsPerByte * source.length :=
      Nat.mul_le_mul_left _ (Nat.le_of_lt (rest_lt_of_readNext hnext))
    have hmany : run (rules d) (fuel + 1) .statement _ s = some s'' :=
      hseries.run_many hstop (.inl (by omega)) (by omega)
    exact ⟨t :: ts, s'', .cons hnext hadds hseries, hstop, hread (run_program hopt hmany)⟩

/-! ### The same text in another source -/

theorem hashBang_begins (h : readBy d hashBang s = some s') : ∃ rest, s.skip.rest = hashBangMark ++ rest := by
  have hran : Ran (rules d) .statement hashBang s s' := ⟨_, h⟩
  obtain ⟨_, hahead, -⟩ := hran.both
  obtain ⟨done, hmark⟩ := hahead.exists_ahead
  have htake : s.skip.take (.exactly hashBangMark) .symbol = some done := hmark.token
  unfold Reading.take at htake
  split at htake
  · cases htake
  · rename_i n hn
    obtain ⟨⟨rest, hrest⟩, -⟩ := Lexeme.length?_exactly.mp hn
    exact ⟨rest, hrest.symm⟩

/-- Which statement is read next depends only on the text behind the blanks and comments. -/
theorem readBy_statement (d : Dialect) (s : Reading) : readBy d (call .statement) s =
    (readBy d (call .statement) ⟨0, s.skip.rest, []⟩).map (Reading.onto s.skip.offset s.skip.found) := by
  have hle : stepsPerByte * s.skip.rest.length ≤ stepsPerByte * s.rest.length :=
    Nat.mul_le_mul_left _ (Reading.onward_skip s).length_le
  have henough : stepsPerByte * s.skip.rest.length + margin ≤ stepsPerByte * (s.rest.length + 1) := by
    have hspare : margin ≤ stepsPerByte := by decide
    rw [Nat.mul_succ]
    omega
  calc readBy d (call .statement) s
      = run (rules d) (stepsPerByte * (s.rest.length + 1)) .statement (call .statement) s.skip := statement_skip.symm
    _ = readBy d (call .statement) s.skip := run_eq_readBy statement_depth_le henough
    _ = _ := run_eq_map ..

/-- What a node at the top level is, and its text. -/
def content (source : Bytes) (t : Tree) : Kind × Bytes :=
  (t.kind, t.text source)

/-- What was read where the blanks and comments end is decided by the text there. -/
theorem content_eq {t₀ : Tree} {before : List Tree} {text : Bytes} {done : Reading}
    (hadds : Reading.AddsNode ⟨0, text, before⟩ t₀ done)
    (hs : Reached source s.skip.offset text) (hadds' : s.AddsNode t (done.onto s.skip.offset s.skip.found)) :
    content source t = (t₀.kind, text.take done.offset) := by
  have hfound := hadds'.found
  rw [Reading.onto_found, hadds.found, List.map_cons, List.cons_append] at hfound
  obtain ⟨rfl, -⟩ := List.cons.inj hfound
  have hstop : (t₀.moved s.skip.offset).stop = s.skip.offset + done.offset := hadds'.stop_eq
  unfold content Tree.text Bytes.slice
  rw [hadds'.start_eq, hstop, List.drop_take, Nat.add_sub_cancel_left, ← hs.rest, Tree.moved_kind]

/-- The text behind a place at which a source was read as a series of statements is read as the same statements in
another source, whatever blanks and comments come first there. -/
theorem Series.again {source' : Bytes} (h : Series d s ts s'') (hs : Reached source s.offset s.rest)
    (hstart : s.offset ≠ 0) (hstop : readNext d s'' = none) (hall : s''.skip.rest = [])
    (hu : Reached source' u.offset u.rest) (hsame : u.skip.rest = s.skip.rest) :
    ∃ us u'', Series d u us u'' ∧ readNext d u'' = none ∧ u''.skip.rest = [] ∧
      us.map (content source') = ts.map (content source) := by
  induction h generalizing u with
  | nil s =>
    -- Nothing is left, neither for a statement nor for the first line.
    have hnone : readBy d (call .statement) u = none := by
      rw [readNext_eq (.inl hstart), readBy_statement, Option.map_eq_none_iff] at hstop
      rw [readBy_statement, hsame, hstop, Option.map_none]
    refine ⟨[], u, .nil u, ?_, hsame.trans hall, rfl⟩
    cases hnext : readNext d u with
    | none => rfl
    | some u' =>
      rcases readNext_eq_some hnext with ⟨-, hline⟩ | ⟨-, hread⟩
      · obtain ⟨rest, hrest⟩ := hashBang_begins hline
        rw [hsame, hall] at hrest
        cases hrest
      · rw [hnone] at hread
        cases hread
  | @cons s s' s'' t ts h hadds _ ih =>
    have hread := h
    rw [readNext_eq (.inl hstart), readBy_statement] at hread
    obtain ⟨done, hdone, rfl⟩ := Option.map_eq_some_iff.mp hread
    have hreadu : readBy d (call .statement) u = some (done.onto u.skip.offset u.skip.found) := by
      rw [readBy_statement, hsame, hdone, Option.map_some]
    -- A statement stands there, and so no first line does.
    have hnext : readNext d u = some (done.onto u.skip.offset u.skip.found) := by
      rw [readNext_eq, hreadu]
      refine .inr ?_
      cases hline : readBy d hashBang u with
      | none => rfl
      | some u' =>
        obtain ⟨rest, hrest⟩ := hashBang_begins hline
        rw [readBy, statement_refuses hrest] at hreadu
        cases hreadu
    obtain ⟨t₀, hadds₀, -⟩ := statement_adds hdone
    obtain ⟨t', hadds', -⟩ := readNext_adds hnext
    have hpos := offset_lt_of_readNext h
    have hrest : (done.onto u.skip.offset u.skip.found).skip.rest = (done.onto s.skip.offset s.skip.found).skip.rest :=
      Reading.skip_rest_congr rfl
    obtain ⟨us, u'', hseries, hstop', hall', hcontents⟩ := ih ((readNext_onward h).reached hs) (by omega) hstop hall
      ((readNext_onward hnext).reached hu) hrest
    refine ⟨t' :: us, u'', .cons hnext hadds' hseries, hstop', hall', ?_⟩
    have hskip := (Reading.onward_skip s).reached hs
    have hskip' := (Reading.onward_skip u).reached hu
    rw [hsame] at hskip'
    rw [List.map_cons, List.map_cons, hcontents, content_eq hadds₀ hskip hadds, content_eq hadds₀ hskip' hadds']

/-! ### The same beginning of another source -/

/-- What a node at the top level is, and where it stands. -/
def standing (t : Tree) : Kind × Nat × Nat :=
  (t.kind, t.start, t.stop)

theorem Series.start_le (h : Series d s ts s'') (ht : t ∈ ts) : s.offset ≤ t.start := by
  induction h with
  | nil s => cases ht
  | cons h hadds _ ih =>
    rcases List.mem_cons.mp ht with rfl | ht
    · rw [hadds.start_eq]
      exact (Reading.onward_skip _).offset_le
    · exact Nat.le_of_lt (Nat.lt_of_lt_of_le (offset_lt_of_readNext h) (ih ht))

/-- Where two sources agree up to the end of blanks and comments in one, these are passed over in both. -/
theorem skip_offset_le (hs : Reached source s.offset s.rest) (hu : Reached source' u.offset u.rest)
    (hoffset : u.offset = s.offset) (hrest : s.skip.rest ≠ [])
    (hsame : source'.take s.skip.offset = source.take s.skip.offset) : s.skip.offset ≤ u.skip.offset := by
  have hpassed : ∃ x, Passed x ∧ s.rest = x ++ s.skip.rest := exists_passed hrest
  obtain ⟨x, hx, hsplit⟩ := hpassed
  have htotal := (Reading.onward_skip s).total
  rw [hsplit, List.length_append] at htotal
  have hend : s.skip.offset = s.offset + x.length := by omega
  obtain ⟨z, hz⟩ : x <+: u.rest := by
    have hbegins : s.rest.take x.length = x := by rw [hsplit, List.take_left]
    rw [List.prefix_iff_eq_take, hu.rest, hoffset, List.take_drop, ← hend, hsame, hend, ← List.take_drop, ← hs.rest,
      hbegins]
  have hskip : u.skip.rest = (trivia 0 z).rest := by
    change (trivia u.offset u.rest).rest = _
    rw [← hz, hx.rest]
  have hle : (trivia 0 z).rest.length ≤ z.length := (Reading.onward_skip ⟨0, z, []⟩).length_le
  have htotal' := (Reading.onward_skip u).total
  rw [hskip, ← hz, List.length_append] at htotal'
  omega

/-- Statements that have kept their places in another source are the first that are read there. -/
theorem Series.follow {us : List Tree} (h : Series d s ts s'') (hs : Reached source s.offset s.rest)
    (hus : Series d u us last) (hu : Reached source' u.offset u.rest) (hoffset : u.offset = s.offset)
    (hsame : source'.take s''.offset = source.take s''.offset) (hkept : ts.map standing ⊆ us.map standing) :
    ∃ us₁ us₂ u'', us = us₁ ++ us₂ ∧ Series d u us₁ u'' ∧ Series d u'' us₂ last ∧ u''.offset = s''.offset ∧
      us₁.map (content source') = ts.map (content source) := by
  induction h generalizing u us with
  | nil s => exact ⟨[], us, u, rfl, .nil u, hus, hoffset, rfl⟩
  | @cons s s' s'' t ts h hadds hrest ih =>
    obtain ⟨hfirst, hmore⟩ := List.cons_subset.mp hkept
    obtain ⟨y, hy, hstanding⟩ := List.mem_map.mp hfirst
    obtain ⟨hkind, hplace⟩ := Prod.mk.inj hstanding
    obtain ⟨hstart, hstop⟩ := Prod.mk.inj hplace
    cases hus with
    | nil => cases hy
    | @cons _ u' _ t' us h' hadds' hrest' =>
      have hend := hrest.onward.offset_le
      have hlt := hadds.start_lt
      have hlt' := hadds'.start_lt
      have hreads := hadds.stop_eq
      have hreads' := hadds'.stop_eq
      have hagree : ∀ {k}, k ≤ s''.offset → source'.take k = source.take k := fun {k} hk => by
        rw [← Nat.min_eq_left hk, ← List.take_take, hsame, List.take_take]
      have hfrom : t.start ≤ t'.start := by
        have hle : s.skip.offset ≤ s''.offset := by
          rw [← hadds.start_eq]
          omega
        rw [hadds.start_eq, hadds'.start_eq]
        exact skip_offset_le hs hu hoffset (skip_rest_ne_nil h) (hagree hle)
      -- A later statement would stand behind the end of the first one.
      obtain rfl : y = t' := (List.mem_cons.mp hy).resolve_right fun hlater => by
        have := hrest'.start_le hlater
        omega
      have hkept' : ts.map standing ⊆ us.map standing := fun p hp => by
        refine (List.mem_cons.mp (hmore hp)).resolve_left ?_
        rintro rfl
        obtain ⟨x, hx, hsits⟩ := List.mem_map.mp hp
        have hxstart := (Prod.mk.inj (Prod.mk.inj hsits).2).1
        have := hrest.start_le hx
        omega
      obtain ⟨us₁, us₂, u'', rfl, hus₁, hus₂, hoffset', hcontents⟩ := ih ((readNext_onward h).reached hs) hrest'
        ((readNext_onward h').reached hu) (by omega) hsame hkept'
      have hcontent : content source' y = content source t := by
        unfold content Tree.text Bytes.slice
        rw [hkind, hstart, hstop, hagree (by omega)]
      exact ⟨y :: us₁, us₂, u'', rfl, .cons h' hadds' hus₁, hus₂, hoffset',
        by rw [List.map_cons, List.map_cons, hcontents, hcontent]⟩

end Grammar
end Codemod.Syntax
