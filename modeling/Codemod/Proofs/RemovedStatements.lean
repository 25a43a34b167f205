import Codemod.Proofs.SettledReadings
import Codemod.Proofs.SmallestChanges

/-!
# Files without one of their statements

A statement is removed with the comments that lead it and with the lines that are left blank. What stands between the
statements before and behind it is then still a run of blanks and comments, so that the statements behind it are read
as before. Whether the statement before it still ends where it did is another question: a statement that is not
closed by a semicolon goes on where the text behind it can go on with it, and nothing is put in the place of what
stood between them. The text before the removed part answers it where it tells what the statements in it are, and only
where the last of them could go on at the end of that text the first lexemes behind it are asked.

Main statements:

* `SourceFile.statements_of_series` says that the statements of a file are those that its text is read as;
* `SourceFile.Stands.exists_gap_before` says what stands before the removed part;
* `SourceFile.Stands.exists_edited` says what the text is without it;
* `SourceFile.Stands.subset_of_settles` says when the statements before are read as they were;
* `SourceFile.Stands.others_of_kept` says that those behind are read as they were if those before keep their places;
* `SourceFile.remaining_statements_read` says when just the other statements are left.
-/

namespace Codemod

open Syntax Syntax.Tree Syntax.Grammar

/-! ### The statements of a file -/

namespace Syntax.Grammar

variable {d : Dialect} {s s' : Reading} {ts : List Tree}

/-- Whether a node at the top level counts as a statement. -/
def countsAsStatement (t : Tree) : Bool :=
  t.kind.isNamed && !t.is .comment

theorem countsAsStatement_next {t : Tree} (h : isNextKind t.kind = true) : countsAsStatement t = true := by
  unfold countsAsStatement Tree.is
  generalize t.kind = k at h ⊢
  cases k <;> first | rfl | cases h

/-- Only comments are found between statements, and they do not count. -/
theorem filter_skip (s : Reading) :
    s.skip.found.reverse.filter countsAsStatement = s.found.reverse.filter countsAsStatement := by
  obtain ⟨spans, hspans⟩ := s.skip_found_comments
  have hcomments : (spans.map Reading.commentLeaf).reverse.filter countsAsStatement = [] := by
    refine List.filter_eq_nil_iff.mpr fun t ht => ?_
    obtain ⟨span, -, rfl⟩ := List.mem_map.mp (List.mem_reverse.mp ht)
    simp [countsAsStatement, Reading.commentLeaf, Tree.is, leaf, Tree.kind]
  rw [hspans, List.reverse_append, List.filter_append, hcomments, List.append_nil]

/-- A series adds its statements. -/
theorem Series.counted (h : Series d s ts s') :
    s'.found.reverse.filter countsAsStatement = s.found.reverse.filter countsAsStatement ++ ts := by
  induction h with
  | nil s => rw [List.append_nil]
  | cons h hadds _ ih =>
    have hcounts := countsAsStatement_next (readNext_kind h hadds)
    rw [ih, hadds.found, List.reverse_cons, List.filter_append, filter_skip, List.filter_cons_of_pos hcounts,
      List.filter_nil, List.append_assoc, List.singleton_append]

end Syntax.Grammar

namespace SourceFile

variable {f : SourceFile} {t : Tree} {ts before behind : List Tree} {s s' : Reading}

theorem statements_eq_filter (f : SourceFile) : f.statements = f.tree.children.filter countsAsStatement := by
  unfold statements named
  rw [List.filter_filter]
  refine List.filter_congr fun t _ => ?_
  exact Bool.and_comm ..

/-- Whether all of a file can be read. -/
def Readable (f : SourceFile) : Prop :=
  ∀ t ∈ f.tree.children, t.is .unread = false

instance (f : SourceFile) : Decidable f.Readable :=
  inferInstanceAs (Decidable (∀ t ∈ f.tree.children, t.is .unread = false))

/-- What is left of a source behind its statements is a node of its own. -/
theorem children_of_series (h : Series f.dialect ⟨0, f.text, []⟩ ts s) (hstop : readNext f.dialect s = none) :
    f.tree.children = s.skip.found.reverse ++
      if s.skip.rest.isEmpty then [] else [leaf .unread s.skip.offset f.text.length] := by
  obtain ⟨ts', s', h', hstop', hread⟩ := readProgram_series f.dialect f.text
  obtain ⟨-, rfl⟩ := h.unique hstop h' hstop'
  rw [← hread]
  rfl

/-- The statements of a file that can be read are those that its text is read as. -/
theorem statements_of_series (h : Series f.dialect ⟨0, f.text, []⟩ ts s) (hstop : readNext f.dialect s = none)
    (hall : s.skip.rest = []) : f.tree.children = s.skip.found.reverse ∧ f.statements = ts := by
  have hchildren := children_of_series h hstop
  rw [hall, List.isEmpty_nil, if_pos rfl, List.append_nil] at hchildren
  refine ⟨hchildren, ?_⟩
  rw [statements_eq_filter, hchildren, filter_skip, h.counted]
  rfl

theorem readable_of_series (h : Series f.dialect ⟨0, f.text, []⟩ ts s) (hstop : readNext f.dialect s = none)
    (hall : s.skip.rest = []) : f.Readable := by
  intro t ht
  cases hunread : t.is .unread with
  | false => rfl
  | true =>
    have hkind : t.kind = .unread := beq_iff_eq.mp hunread
    have hmem : t ∈ f.statements := by
      rw [statements_eq_filter]
      refine List.mem_filter.mpr ⟨ht, ?_⟩
      unfold countsAsStatement Tree.is
      rw [hkind]
      rfl
    rw [(statements_of_series h hstop hall).2] at hmem
    have hnext := h.isNextKind_of_mem hmem
    rw [hkind] at hnext
    cases hnext

/-- What stands at the top level of a file and was read as something is one of the series. -/
theorem mem_of_mem_statements (h : Series f.dialect ⟨0, f.text, []⟩ ts s) (hstop : readNext f.dialect s = none)
    (ht : t ∈ f.statements) (hnext : isNextKind t.kind = true) : t ∈ ts := by
  rw [statements_eq_filter, children_of_series h hstop, List.filter_append, filter_skip, h.counted] at ht
  rcases List.mem_append.mp ht with ht | ht
  · exact ht
  · have hunread := List.mem_of_mem_filter ht
    split at hunread
    · cases hunread
    · obtain rfl := List.mem_singleton.mp hunread
      cases hnext

theorem reached_start (text : Bytes) : Reached text 0 text :=
  ⟨rfl, Nat.zero_le _⟩

theorem exists_series (hread : f.Readable) : ∃ s, Series f.dialect ⟨0, f.text, []⟩ f.statements s ∧
    readNext f.dialect s = none ∧ s.skip.rest = [] ∧ f.tree.children = s.skip.found.reverse := by
  obtain ⟨ts, s, h, hstop⟩ := Grammar.exists_series f.dialect ⟨0, f.text, []⟩
  have hchildren := children_of_series h hstop
  have hall : s.skip.rest = [] := by
    refine Decidable.byContradiction fun hne => ?_
    rw [if_neg (by simpa using hne)] at hchildren
    have hunread := hread (leaf .unread s.skip.offset f.text.length) (hchildren ▸ by simp)
    cases hunread
  obtain ⟨hfound, rfl⟩ := statements_of_series h hstop hall
  exact ⟨s, h, hstop, hall, hfound⟩

/-! ### What stands before a statement -/

theorem takeWhile_append_of_head {α : Type} {p : α → Bool} {l l' : List α} (hl : ∀ a ∈ l, p a = true)
    (hl' : ∀ a more, l' = a :: more → p a = false) : (l ++ l').takeWhile p = l := by
  rw [List.takeWhile_append_of_pos hl]
  cases l' with
  | nil => rw [List.takeWhile_nil, List.append_nil]
  | cons a more => rw [List.takeWhile_cons_of_neg (by rw [hl' a more rfl]; exact Bool.false_ne_true), List.append_nil]

/-- What is taken before an offset begins where a line does. -/
theorem endsLine_widenBack {text : Bytes} {start : Nat} (h : start ≤ text.length) :
    widenBack text start = start ∨ EndsLine (text.take (widenBack text start)) := by
  obtain ⟨rest, hrest, hhead⟩ := Bytes.exists_takeWhile_append (· != Bytes.newline) (text.take start).reverse
  unfold widenBack
  dsimp only
  split
  case isFalse => exact .inl rfl
  case isTrue =>
    generalize (text.take start).reverse.takeWhile (· != Bytes.newline) = line at hrest ⊢
    have htake : text.take start = rest.reverse ++ line.reverse := by
      rw [← List.reverse_append, ← hrest, List.reverse_reverse]
    have hlength := congrArg List.length htake
    rw [List.length_take, List.length_append, List.length_reverse, List.length_reverse] at hlength
    have hbefore : text.take (start - line.length) = rest.reverse := by
      have hshorter : text.take (start - line.length) = (text.take start).take (start - line.length) := by
        rw [List.take_take, Nat.min_eq_left (Nat.sub_le ..)]
      rw [hshorter, htake]
      exact List.take_left' (by rw [List.length_reverse]; omega)
    refine .inr fun b hb => ?_
    rw [hbefore, List.getLast?_reverse] at hb
    simpa using hhead b hb

/-- A statement of a file, with the places from which and up to which it was read. -/
structure Stands (f : SourceFile) (before : List Tree) (t : Tree) (behind : List Tree) (m m' s : Reading) : Prop where
  before : Series f.dialect ⟨0, f.text, []⟩ before m
  next : readNext f.dialect m = some m'
  adds : m.AddsNode t m'
  behind : Series f.dialect m' behind s
  stop : readNext f.dialect s = none
  all : s.skip.rest = []
  children : f.tree.children = s.skip.found.reverse

theorem exists_stands (hread : f.Readable) (h : f.statements = before ++ t :: behind) :
    ∃ m m' s, f.Stands before t behind m m' s := by
  obtain ⟨s, hseries, hstop, hall, hchildren⟩ := exists_series hread
  rw [h] at hseries
  obtain ⟨m, hbefore, hrest⟩ := Series.append_iff.mp hseries
  cases hrest with
  | cons hnext hadds hbehind => exact ⟨m, _, s, hbefore, hnext, hadds, hbehind, hstop, hall, hchildren⟩

namespace Stands

variable {m m' : Reading}

theorem reached (h : f.Stands before t behind m m' s) : Reached f.text m.offset m.rest :=
  h.before.onward.reached (reached_start f.text)

theorem nodesBefore_eq (h : f.Stands before t behind m m' s) : f.nodesBefore t = m.skip.found := by
  obtain ⟨w, hw⟩ := h.behind.found_suffix
  obtain ⟨spans, hspans⟩ := s.skip_found_comments
  rw [h.adds.found] at hw
  have hchildren : f.tree.children =
      m.skip.found.reverse ++ t :: (spans.map Reading.commentLeaf ++ w).reverse := by
    rw [h.children, hspans, ← hw]
    simp
  rw [SourceFile.nodesBefore_eq hchildren, List.reverse_reverse]

/-- The comments before a statement are those that are passed over before it. -/
theorem takeWhile_nodesBefore (h : f.Stands before t behind m m' s) :
    (f.nodesBefore t).takeWhile (·.is .comment) = (trivia m.offset m.rest).comments.map Reading.commentLeaf := by
  rw [h.nodesBefore_eq]
  refine takeWhile_append_of_head (fun c hc => ?_) fun a more hfound => ?_
  · obtain ⟨span, -, rfl⟩ := List.mem_map.mp hc
    rfl
  · rcases h.before.ends (reached_start f.text) with ⟨-, rfl⟩ | ⟨-, -, p, rest, hp, hcomment⟩
    · cases hfound
    · rw [hp] at hfound
      obtain ⟨rfl, -⟩ := List.cons.inj hfound
      exact hcomment

/-- Before the comments that lead a statement stand only blanks and comments. -/
theorem exists_passed_opening (h : f.Stands before t behind m m' s) :
    ∃ x z, Passed x ∧ m.rest = x ++ z ∧ f.opening t = m.offset + x.length := by
  unfold opening
  split
  case h_1 =>
    obtain ⟨x, hx, hrest⟩ := exists_passed (skip_rest_ne_nil h.next)
    refine ⟨x, _, hx, hrest, ?_⟩
    have htotal := (Reading.onward_skip m).total
    have hlength := congrArg List.length hrest
    rw [List.length_append] at hlength
    rw [h.adds.start_eq]
    change m.skip.offset + (trivia m.offset m.rest).rest.length = _ at htotal
    omega
  case h_2 c more hleads =>
    have hc := mem_leadingComments (hleads ▸ List.mem_cons_self ..)
    rw [h.takeWhile_nodesBefore] at hc
    obtain ⟨span, hspan, rfl⟩ := List.mem_map.mp hc
    exact exists_passed_before_comment hspan

theorem opening_le (h : f.Stands before t behind m m' s) : m.offset ≤ f.opening t ∧ f.opening t ≤ f.text.length := by
  obtain ⟨x, z, -, hrest, hopening⟩ := h.exists_passed_opening
  have hlength := congrArg List.length h.reached.rest
  have hbound := h.reached.bound
  rw [hrest, List.length_append, List.length_drop] at hlength
  omega

/-- What is removed lies behind the statement before. -/
theorem offset_le_start (h : f.Stands before t behind m m' s) : m.offset ≤ (f.removeStatement t).start := by
  rw [(f.removeStatement_place t).1]
  rcases h.before.ends (reached_start f.text) with ⟨-, rfl⟩ | ⟨-, hrest | hline, -⟩
  · exact Nat.zero_le _
  · have hnil : m.skip.rest = [] := List.suffix_nil.mp (hrest ▸ (Reading.onward_skip m).rest)
    exact absurd hnil (skip_rest_ne_nil h.next)
  · exact le_widenBack_of_lineVisible hline h.opening_le.1 h.opening_le.2

/-- What stands between the statement before and the removed part are blanks and comments. -/
theorem exists_gap_before (h : f.Stands before t behind m m' s) :
    ∃ x z, Passed x ∧ m.rest = x ++ z ∧ (f.removeStatement t).start = m.offset + x.length := by
  obtain ⟨y, z, hy, hrest, hopening⟩ := h.exists_passed_opening
  have hle := h.offset_le_start
  have hback := widenBack_le f.text (f.opening t)
  have hblank := blankLine_widenBack h.opening_le.2
  have hline := endsLine_widenBack h.opening_le.2
  rw [(f.removeStatement_place t).1] at hle ⊢
  generalize widenBack f.text (f.opening t) = start at *
  obtain ⟨x, w, rfl, hx⟩ : ∃ x w, y = x ++ w ∧ start = m.offset + x.length := by
    refine ⟨y.take (start - m.offset), y.drop (start - m.offset), (List.take_append_drop ..).symm, ?_⟩
    rw [List.length_take]
    omega
  subst hx
  rw [List.append_assoc] at hrest
  refine ⟨x, w ++ z, ?_, hrest, rfl⟩
  have hreached := h.reached
  rw [hrest] at hreached
  have hw := hreached.append.slice
  rw [List.length_append, ← Nat.add_assoc] at hopening
  rw [hopening, hw] at hblank
  rcases hline with hsame | hline
  · -- Nothing but the statement and its comments is removed.
    have hnil : w = [] := List.length_eq_zero_iff.mp (by omega)
    rwa [hnil, List.append_nil] at hy
  · refine hy.before_blanks (List.all_eq_true.mpr fun b hb => (hblank b hb).1) ?_
    rw [List.take_add, ← hreached.rest, List.take_left] at hline
    exact hline.behind

/-- What is removed behind a statement are blanks. -/
theorem exists_blanks_behind (h : f.Stands before t behind m m' s) :
    ∃ v z, v.all Bytes.isBlank = true ∧ m'.rest = v ++ z ∧ (f.removeStatement t).stop = m'.offset + v.length := by
  have hreached := (readNext_onward h.next).reached h.reached
  have hlength := widenOn_le_of_visible (Bytes.visibleAt_length f.text) hreached.bound
  obtain ⟨line, hline, htaken⟩ := blankToNext_widenOn hreached.bound
  have hle := le_widenOn hreached.bound
  have hstop : (f.removeStatement t).stop = widenOn f.text m'.offset := by
    rw [(f.removeStatement_place t).2, h.adds.stop_eq]
  refine ⟨f.text.slice m'.offset (widenOn f.text m'.offset), f.text.drop (widenOn f.text m'.offset), ?_, ?_, ?_⟩
  · have hblank : line.all Bytes.isBlank = true := List.all_eq_true.mpr fun b hb => (hline b hb).1
    rcases htaken with htaken | htaken
    · rw [htaken, hblank]
    · rw [htaken, List.all_append, hblank]
      rfl
  · rw [hreached.rest, Patch.slice_append_drop hle]
  · rw [hstop, Bytes.length_slice hlength]
    omega

end Stands

/-! ### The statements before -/

theorem splice_removeStatement (f : SourceFile) (t : Tree) : (f.removeStatement t).splice f.text =
    f.text.take (f.removeStatement t).start ++ f.text.drop (f.removeStatement t).stop := by
  have hempty : Bytes.ofString (f.removeStatement t).text = [] := rfl
  unfold Edit.splice Edit.replace
  rw [hempty, List.append_nil]

/-- Whether the text before the range of an edit tells what the first `n` statements are, whether it is followed by the
range or by what stands behind that. Of these two only the first lexemes are looked at, and only where a statement could
go on at the end of the text before. -/
def Settles (f : SourceFile) (e : Edit) (n : Nat) : Prop :=
  (settledSeries f.dialect [f.text.drop e.start, f.text.drop e.stop] (stepsPerByte * (f.text.length + 1)) n
    ⟨0, f.text.take e.start, []⟩).isSome = true

instance (f : SourceFile) (e : Edit) (n : Nat) : Decidable (f.Settles e n) :=
  inferInstanceAs (Decidable (_ = true))

theorem subset_statements_of_series (h : Series f.dialect ⟨0, f.text, []⟩ ts s) (hstop : readNext f.dialect s = none) :
    ts ⊆ f.statements := by
  intro t ht
  rw [statements_eq_filter, children_of_series h hstop, List.filter_append, filter_skip, h.counted]
  exact List.mem_append_left _ (List.mem_append_right _ ht)

/-- Statements that are settled by the text before a removed one are read without that one, too. -/
theorem Stands.subset_of_settles {g : SourceFile} {m m' : Reading} (h : f.Stands before t behind m m' s)
    (ht : t ∈ f.tree.children) (hsettles : f.Settles (f.removeStatement t) before.length)
    (hdialect : g.dialect = f.dialect) (htext : g.text = (f.removeStatement t).splice f.text) :
    before ⊆ g.statements := by
  rw [splice_removeStatement] at htext
  have hremoved := removed_removeStatement ht
  have hopening := (f.opening_bounds t).1
  have hplaced := (f.nodes_placed.bounds ht).2.1.start_le
  unfold Settles at hsettles
  generalize f.removeStatement t = e at hsettles htext hremoved
  obtain ⟨u, hu⟩ := Option.isSome_iff_exists.mp hsettles
  have hread : ∀ z ∈ [f.text.drop e.start, f.text.drop e.stop], ∃ ts, ts.length = before.length ∧
      Series f.dialect ⟨0, f.text.take e.start ++ z, []⟩ ts (u.followedBy z) := by
    intro z hz
    refine series_of_settledSeries hz ?_ hu
    have hlength : (f.text.take e.start ++ z).length ≤ f.text.length := by
      have hstart := hremoved.start_le
      have hstop := hremoved.le_stop
      have hbound := hremoved.stop_le
      rcases List.mem_pair.mp hz with rfl | rfl
      all_goals
        rw [List.length_append, List.length_take, List.length_drop]
        omega
    have hspare : margin < stepsPerByte := by decide
    have hless := Nat.mul_le_mul_left stepsPerByte hlength
    show stepsPerByte * (f.text.take e.start ++ z).length + margin < stepsPerByte * (f.text.length + 1)
    rw [Nat.mul_succ]
    omega
  -- In the file itself these are the statements before,
  obtain ⟨ts, hlength, hseries⟩ := hread (f.text.drop e.start) (by simp)
  rw [List.take_append_drop] at hseries
  obtain ⟨rfl, -⟩ := hseries.eq_of_length h.before hlength
  -- and the same ones without what is removed.
  obtain ⟨us, -, hothers⟩ := hread (f.text.drop e.stop) (by simp)
  obtain rfl : ts = us := List.append_cancel_left (hseries.counted.symm.trans hothers.counted)
  rw [← htext, ← hdialect] at hothers
  obtain ⟨more, last, hmore, hstop⟩ := Grammar.exists_series g.dialect (u.followedBy (f.text.drop e.stop))
  intro b hb
  exact subset_statements_of_series (Series.append_iff.mpr ⟨_, hothers, hmore⟩) hstop (List.mem_append_left more hb)

/-! ### The other statements -/

/-- A statement can always be removed. Between the text up to the end of the statement before and the text that
follows, blanks and comments are left. -/
theorem Stands.exists_edited {m m' : Reading} (h : f.Stands before t behind m m' s) :
    ∃ g x v z, f.edited [f.removeStatement t] = .ok g ∧ g.dialect = f.dialect ∧
      g.text = (f.removeStatement t).splice f.text ∧ Passed x ∧ v.all Bytes.isBlank = true ∧
      g.text = f.text.take m.offset ++ (x ++ z) ∧ m'.rest = v ++ z := by
  obtain ⟨x, y, hx, hrest, hstart⟩ := h.exists_gap_before
  obtain ⟨v, z, hv, hrest', hstop⟩ := h.exists_blanks_behind
  have hreached := h.reached
  have hreached' := (readNext_onward h.next).reached hreached
  rw [hrest] at hreached
  rw [hrest'] at hreached'
  have hbound := hreached'.append.bound
  have htext : (f.removeStatement t).splice f.text = f.text.take m.offset ++ (x ++ z) := by
    rw [splice_removeStatement, hstart, hstop, ← hreached'.append.rest, List.take_add, ← hreached.rest,
      List.take_left, List.append_assoc]
  have hedited : f.edited [f.removeStatement t] =
      .ok { f with text := (f.removeStatement t).splice f.text, dirty := true } := by
    unfold edited
    rw [if_neg (by simp), Edit.applyAll_singleton, if_neg (by omega)]
  exact ⟨_, x, v, z, hedited, rfl, rfl, hx, hv, htext, hrest'⟩

/-- If the statements before a removed one keep their places, all others are read as before. -/
theorem Stands.others_of_kept {g : SourceFile} {m m' : Reading} {x v z : Bytes}
    (h : f.Stands before t behind m m' s) (hdialect : g.dialect = f.dialect) (hx : Passed x)
    (hv : v.all Bytes.isBlank = true) (htext : g.text = f.text.take m.offset ++ (x ++ z)) (hrest' : m'.rest = v ++ z)
    (hkept : before.map standing ⊆ g.statements.map standing) :
    g.Readable ∧ g.statements.map (content g.text) = (before ++ behind).map (content f.text) := by
  obtain ⟨us, last, hus, hstop⟩ := Grammar.exists_series g.dialect ⟨0, g.text, []⟩
  have hlength : (f.text.take m.offset).length = m.offset := List.length_take_of_le h.reached.bound
  -- The statements before are read first,
  have hsame : g.text.take m.offset = f.text.take m.offset := by
    rw [htext, List.take_left' hlength]
  have hkept' : before.map standing ⊆ us.map standing := by
    intro p hp
    obtain ⟨y, hy, rfl⟩ := List.mem_map.mp (hkept hp)
    obtain ⟨b, hb, hkind⟩ := List.mem_map.mp hp
    have hnext := h.before.isNextKind_of_mem hb
    rw [(Prod.mk.inj hkind).1] at hnext
    exact List.mem_map_of_mem (mem_of_mem_statements hus hstop hy hnext)
  rw [hdialect] at hus hstop
  obtain ⟨us₁, us₂, u, rfl, hbefore, hmore, hoffset, hcontents⟩ := h.before.follow (reached_start f.text) hus
    (reached_start g.text) rfl hsame hkept'
  -- and those behind are read where they end.
  have hu : Reached g.text u.offset u.rest := hbefore.onward.reached (reached_start g.text)
  have hskip : u.skip.rest = m'.skip.rest := by
    have hrest : u.rest = x ++ z := by
      rw [hu.rest, hoffset, htext, List.drop_left' hlength]
    change (trivia u.offset u.rest).rest = (trivia m'.offset m'.rest).rest
    rw [hrest, hrest', hx.rest _ 0, (Passed.of_blanks hv).rest _ 0]
  have hm' : Reached f.text m'.offset m'.rest := (readNext_onward h.next).reached h.reached
  have hpos : m'.offset ≠ 0 := Nat.ne_of_gt (Nat.zero_lt_of_lt (offset_lt_of_readNext h.next))
  obtain ⟨vs, last', hbehind, hstop', hall, hcontents'⟩ := h.behind.again hm' hpos h.stop h.all hu hskip
  obtain ⟨rfl, rfl⟩ := hmore.unique hstop hbehind hstop'
  rw [← hdialect] at hus hstop
  refine ⟨readable_of_series hus hstop hall, ?_⟩
  rw [(statements_of_series hus hstop hall).2, List.map_append, List.map_append, hcontents, hcontents']

/-- A file without one of its statements has just the others, if the text before tells what the statements before are,
or if these keep their places for another reason. Nothing is put in the place of the statement, so one before it that no
semicolon closes may go on with what follows now. -/
theorem remaining_statements_read (f : SourceFile) (before : List Tree) (t : Tree) (behind : List Tree)
    (hread : f.Readable) (hstatements : f.statements = before ++ t :: behind) :
    ∃ g, f.edited [f.removeStatement t] = .ok g ∧
      (f.Settles (f.removeStatement t) before.length ∨ before.map standing ⊆ g.statements.map standing →
        g.Readable ∧ g.statements.map (content g.text) = (before ++ behind).map (content f.text)) := by
  obtain ⟨m, m', s, h⟩ := exists_stands hread hstatements
  obtain ⟨g, x, v, z, hg, hdialect, hsplice, hx, hv, htext, hrest'⟩ := h.exists_edited
  have ht : t ∈ f.tree.children := f.statements_sublist.mem (by simp [hstatements])
  refine ⟨g, hg, fun hkept => h.others_of_kept hdialect hx hv htext hrest' ?_⟩
  rcases hkept with hsettles | hkept
  · exact List.map_subset standing (h.subset_of_settles ht hsettles hdialect hsplice)
  · exact hkept

/-- A module with hardly a semicolon: its statements are closed by strings, braces and line ends. -/
def looseModule : SourceFile :=
  ⟨.ofString "/p/a.ts", .typescript, Bytes.ofString
    "import a from './a'\nclass B \x7b x = a \x7d\nlet c = a // kept\n\n// about d\nlet d = c\nlet e = 1;\n", false⟩

/-- Without the fourth one the others are left. -/
theorem looseModule_fourth_removed : ∃ a b c d e g, looseModule.statements = [a, b, c, d, e] ∧
    looseModule.edited [looseModule.removeStatement d] = .ok g ∧ g.Readable ∧
      g.statements.map (content g.text) = [a, b, c, e].map (content looseModule.text) := by
  have hread : looseModule.Readable := by decide +kernel
  have hlength : looseModule.statements.length = 5 := by decide +kernel
  have hsettles : ∀ d ∈ looseModule.statements[3]?, looseModule.Settles (looseModule.removeStatement d) 3 := by
    decide +kernel
  obtain ⟨a, b, c, d, e, hstatements⟩ : ∃ a b c d e, looseModule.statements = [a, b, c, d, e] := by
    generalize looseModule.statements = l at hlength
    match l, hlength with
    | [a, b, c, d, e], _ => exact ⟨a, b, c, d, e, rfl⟩
  rw [hstatements] at hsettles
  obtain ⟨g, hg, hremaining⟩ := remaining_statements_read looseModule [a, b, c] d [e] hread hstatements
  exact ⟨a, b, c, d, e, g, hstatements, hg, hremaining (.inl (hsettles d rfl))⟩

/-- A module whose first statement is not closed. -/
def openModule : SourceFile :=
  ⟨.ofString "/p/a.ts", .typescript, Bytes.ofString "a = b\nif (x) \x7b\x7d\n(c)\n", false⟩

/-- Without the second statement the first one goes on with the third. -/
theorem first_statement_goes_on : ∃ a b c g, openModule.Readable ∧ openModule.statements = [a, b, c] ∧
    openModule.edited [openModule.removeStatement b] = .ok g ∧ g.text = Bytes.ofString "a = b\n(c)\n" ∧ g.Readable ∧
      g.statements.length = 1 ∧ g.statements.map (content g.text) ≠ [a, c].map (content openModule.text) := by
  have hread : openModule.Readable := by decide +kernel
  have hlength : openModule.statements.length = 3 := by decide +kernel
  have hmade : ∀ b ∈ openModule.statements[1]?,
      ∃ g ∈ (openModule.edited [openModule.removeStatement b]).toOption,
        g.text = Bytes.ofString "a = b\n(c)\n" ∧ g.Readable ∧ g.statements.length = 1 := by decide +kernel
  obtain ⟨a, b, c, hstatements⟩ := List.length_eq_three.mp hlength
  rw [hstatements] at hmade
  obtain ⟨g, hg, htext, hread', hone⟩ := hmade b rfl
  refine ⟨a, b, c, g, hread, hstatements, ?_, htext, hread', hone, fun hsame => ?_⟩
  · cases hedited : openModule.edited [openModule.removeStatement b] with
    | error x => rw [hedited] at hg; cases hg
    | ok g' => rw [hedited] at hg; rw [Option.some.inj hg]
  · have hlengths := congrArg List.length hsame
    rw [List.length_map, hone] at hlengths
    cases hlengths

end SourceFile
end Codemod
