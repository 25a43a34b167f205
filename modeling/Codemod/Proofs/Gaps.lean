import Codemod.Proofs.TreeSpans
import Mathlib.Tactic.SplitIfs

/-!
# Gaps between lexemes

Before every lexeme a reading passes over blanks and comments. What it has passed over it passes over again,
whatever lexeme stands behind it then: a gap. This needs an argument, since the state of the reader of blanks may
depend on what follows (a slash may open a comment, a byte may be the first of a blank of three): `Alike` relates
the states of two readings of the same gap before different texts, and `triviaFrom_before` carries it through.

Main statements:

* `exists_gap` says that what is passed over before a lexeme is a gap;
* `Gap.space` says that a gap stays one behind a space, and `Gap.first` what a gap begins with;
* `trivia_again` says that nothing is left to pass over behind a gap.
-/

namespace Codemod.Syntax

variable {a : UInt8} {g v t y z : Bytes} {m m' : TriviaState} {before : Trivia}
  {found found' : List (Nat × Nat)} {offset offset' k n : Nat}

/-- Whether a lexeme can begin here: with no blank, and with no mark that opens a comment. -/
def Visible (t : Bytes) : Prop := ∃ a rest, t = a :: rest ∧ blankLength t = 0 ∧ a ≠ code '/'

/-- Whether a text is passed over as blanks and comments before every lexeme. -/
def Gap (g : Bytes) : Prop := ∀ offset y, Visible y →
  (trivia offset (g ++ y)).offset = offset + g.length ∧ (trivia offset (g ++ y)).rest = y

/-! ### What a blank is decided by -/

theorem blankLength_ascii (ha : a < 0x80) (t : Bytes) :
    blankLength (a :: t) = if Bytes.isBlank a then 1 else 0 := by
  unfold blankLength
  dsimp only
  rw [if_pos ha]

theorem blankLength_two {b : UInt8} (ha : ¬ a < 0x80) (hc : a = 0xC2) (t : Bytes) :
    blankLength (a :: b :: t) = if b == 0xA0 then 2 else 0 := by
  subst hc
  rfl

/-- Beyond ASCII a blank has two bytes or three. -/
theorem blankLength_three (ha : ¬ a < 0x80) (hc : a ≠ 0xC2) (t : Bytes) :
    blankLength (a :: t) = 0 ∨ blankLength (a :: t) = 3 ∧ 2 ≤ t.length := by
  rcases t with _ | ⟨b, _ | ⟨c, t⟩⟩
  · simp [blankLength, ha]
  · simp [blankLength, ha, hc]
  · simp only [blankLength, if_neg ha, beq_iff_eq, if_neg hc]
    split_ifs <;> simp

/-- A blank is decided by its own bytes. -/
theorem blankLength_append (h : blankLength (v ++ z) = k + 1) (hk : k < v.length) :
    blankLength (v ++ y) = k + 1 := by
  rcases v with _ | ⟨a, v⟩
  · cases hk
  by_cases ha : a < 0x80
  · rw [List.cons_append, blankLength_ascii ha] at h ⊢
    exact h
  by_cases hc : a = 0xC2
  · rcases v with _ | ⟨b, v⟩
    · rcases z with _ | ⟨b, z⟩
      · simp [blankLength, ha] at h
      · rw [List.cons_append, List.nil_append, blankLength_two ha hc] at h
        simp only [List.length_cons, List.length_nil] at hk
        split at h <;> omega
    · rw [List.cons_append, List.cons_append, blankLength_two ha hc] at h ⊢
      exact h
  · rw [List.cons_append] at h
    rcases blankLength_three ha hc (v ++ z) with h0 | ⟨h3, -⟩
    · omega
    · -- all three bytes stand in `v`
      rcases v with _ | ⟨b, _ | ⟨c, v⟩⟩
      · simp only [List.length_cons, List.length_nil] at hk
        omega
      · simp only [List.length_cons, List.length_nil] at hk
        omega
      · exact h

theorem startsWithLineEnd_eq_true (h : startsWithLineEnd (a :: t) = true) :
    a = code '\n' ∨ a = code '\r' ∨
      a = 0xE2 ∧ ∃ c rest, t = 0x80 :: c :: rest ∧ (c = 0xA8 ∨ c = 0xA9) := by
  rcases t with _ | ⟨b, _ | ⟨c, t⟩⟩
  · simp only [startsWithLineEnd, Bool.or_eq_true, beq_iff_eq] at h
    exact h.imp_right .inl
  · simp only [startsWithLineEnd, Bool.or_eq_true, beq_iff_eq] at h
    exact h.imp_right .inl
  · simp only [startsWithLineEnd, Bool.or_eq_true, Bool.and_eq_true, beq_iff_eq] at h
    rcases h with (h | h) | ⟨⟨rfl, rfl⟩, h⟩
    · exact .inl h
    · exact .inr (.inl h)
    · exact .inr (.inr ⟨rfl, c, t, rfl, h⟩)

theorem startsWithLineEnd_of_first (h : a = code '\n' ∨ a = code '\r') (t : Bytes) :
    startsWithLineEnd (a :: t) = true := by
  rcases t with _ | ⟨b, _ | ⟨c, t⟩⟩ <;> rcases h with rfl | rfl <;> rfl

/-- A line end is a blank. -/
theorem blankLength_of_lineEnd (h : startsWithLineEnd t = true) : blankLength t ≠ 0 := by
  rcases t with _ | ⟨a, t⟩
  · cases h
  · rcases startsWithLineEnd_eq_true h with rfl | rfl | ⟨rfl, c, rest, rfl, rfl | rfl⟩
    all_goals exact Nat.succ_ne_zero _

/-- A line end is decided by its own bytes. -/
theorem startsWithLineEnd_append (h : startsWithLineEnd (v ++ z) = true)
    (hk : blankLength (v ++ z) ≤ v.length) : startsWithLineEnd (v ++ y) = true := by
  have hpos := Nat.pos_of_ne_zero (blankLength_of_lineEnd h)
  rcases v with _ | ⟨a, v⟩
  · exact absurd hpos (Nat.not_lt.mpr hk)
  · rcases startsWithLineEnd_eq_true h with ha | ha | ⟨rfl, c, rest, hv, hc⟩
    · exact startsWithLineEnd_of_first (.inl ha) _
    · exact startsWithLineEnd_of_first (.inr ha) _
    · have hthree : blankLength (0xE2 :: v ++ z) = 3 := by
        rw [List.cons_append, show v ++ z = _ from hv]
        rcases hc with rfl | rfl <;> rfl
      rw [hthree] at hk
      rcases v with _ | ⟨b, _ | ⟨d, v⟩⟩
      · simp at hk
      · simp at hk
      · exact h

/-! ### Passing over the same text before another lexeme -/

namespace TriviaState

/-- Two states that differ only in what follows the comment that is being read. -/
inductive Alike : TriviaState → TriviaState → Prop
  | outside (k : Nat) : Alike (.outside k) (.outside k)
  | opening (b b' : Trivia) : Alike (.opening b) (.opening b')
  | line (b b' : Trivia) : Alike (.line b) (.line b')
  | block (b b' : Trivia) (starred : Bool) : Alike (.block b starred) (.block b' starred)

/-- Whether a state that gives a comment up does not go back to a text of `n` bytes. -/
def Avoids (n : Nat) : TriviaState → Prop
  | .outside _ => True
  | .opening b | .line b | .block b _ => b.rest.length ≠ n

end TriviaState

open TriviaState

/-- What is passed over is not taken back, unless a comment is given up. -/
theorem triviaFrom_length_ne (hm : m.Avoids n) (ht : t.length < n) :
    (triviaFrom blankLength m found offset t).rest.length ≠ n := by
  induction t generalizing m found offset with
  | nil =>
    have hn : ([] : Bytes).length ≠ n := Nat.ne_of_lt ht
    cases m with
    | outside k => cases k <;> exact hn
    | opening b => exact hm
    | line b => exact hn
    | block b starred => exact hm
  | cons a rest ih =>
    have hn : (a :: rest).length ≠ n := Nat.ne_of_lt ht
    have hrest : rest.length < n := Nat.lt_of_succ_lt ht
    have houtside : ∀ k, (TriviaState.outside k).Avoids n := fun _ => trivial
    cases m with
    | outside k =>
      cases k with
      | succ k => exact ih (houtside k) hrest
      | zero =>
        unfold triviaFrom
        split
        · exact ih (houtside _) hrest
        · split
          · exact ih (m := .opening ⟨found, offset, a :: rest⟩) hn hrest
          · exact hn
    | opening b =>
      unfold triviaFrom
      split
      · exact ih (m := .line b) hm hrest
      · split
        · exact ih (m := .block b false) hm hrest
        · exact hm
    | line b =>
      unfold triviaFrom
      split
      · split
        · exact ih (houtside _) hrest
        · exact hn
      · exact ih (m := .line b) hm hrest
    | block b starred =>
      unfold triviaFrom
      split
      · exact ih (houtside _) hrest
      · exact ih (m := .block b _) hm hrest

/-- Where a lexeme begins, no state but that outside of comments and blanks stops. -/
theorem triviaFrom_visible_ne (hz : Visible z) (hm : m.Avoids z.length) (hne : m ≠ .outside 0) :
    (triviaFrom blankLength m found offset z).rest ≠ z := by
  obtain ⟨a, rest, rfl, hblank, -⟩ := hz
  have hshort : rest.length < (a :: rest).length := Nat.lt_succ_self _
  have key : ∀ {m : TriviaState} {found : List (Nat × Nat)} {offset : Nat}, m.Avoids (a :: rest).length →
      (triviaFrom blankLength m found offset rest).rest ≠ a :: rest :=
    fun hm h => triviaFrom_length_ne hm hshort (congrArg List.length h)
  cases m with
  | outside k =>
    cases k with
    | zero => exact absurd rfl hne
    | succ k => exact key (m := .outside k) trivial
  | opening b =>
    unfold triviaFrom
    split
    · exact key (m := .line b) hm
    · split
      · exact key (m := .block b false) hm
      · exact fun h => hm (congrArg List.length h)
  | line b =>
    have hline : startsWithLineEnd (a :: rest) = false :=
      Bool.eq_false_iff.mpr fun h => blankLength_of_lineEnd h hblank
    unfold triviaFrom
    rw [if_neg (by rw [hline]; exact Bool.false_ne_true)]
    exact key (m := .line b) hm
  | block b starred =>
    unfold triviaFrom
    split
    · exact key (m := .outside 0) trivial
    · exact key (m := .block b _) hm

/-- A blank that has been begun ends before the next lexeme. -/
theorem pending_le (hz : Visible z)
    (h : (triviaFrom blankLength (.outside k) found offset (g ++ z)).rest = z) : k ≤ g.length := by
  induction g generalizing k offset with
  | nil =>
    cases k with
    | zero => exact Nat.le_refl 0
    | succ k => exact absurd h (triviaFrom_visible_ne hz trivial (by simp))
  | cons a g ih =>
    cases k with
    | zero => exact Nat.zero_le _
    | succ k => exact Nat.succ_le_succ (ih h)

/-- What is passed over before one lexeme is passed over before every other. -/
theorem triviaFrom_before (hz : Visible z) (hy : Visible y) (hm : m.Avoids z.length)
    (halike : Alike m m') (h : (triviaFrom blankLength m found offset (g ++ z)).rest = z) :
    (triviaFrom blankLength m' found' offset' (g ++ y)).offset = offset' + g.length ∧
      (triviaFrom blankLength m' found' offset' (g ++ y)).rest = y := by
  induction g generalizing m m' found found' offset offset' with
  | nil =>
    by_cases hne : m = .outside 0
    · subst hne
      cases halike
      obtain ⟨a, rest, rfl, hblank, hslash⟩ := hy
      simp [triviaFrom, hblank, hslash]
    · exact absurd h (triviaFrom_visible_ne hz hm hne)
  | cons a g ih =>
    have hlong : (a :: (g ++ z)).length ≠ z.length := by
      simp only [List.length_cons, List.length_append]
      omega
    have hmep : ∀ {m m' : TriviaState} {found found' : List (Nat × Nat)}, m.Avoids z.length →
        Alike m m' → (triviaFrom blankLength m found (offset + 1) (g ++ z)).rest = z →
        (triviaFrom blankLength m' found' (offset' + 1) (g ++ y)).offset = offset' + (a :: g).length ∧
          (triviaFrom blankLength m' found' (offset' + 1) (g ++ y)).rest = y := by
      intro m m' found found' hm halike h
      have hnext : (triviaFrom blankLength m' found' (offset' + 1) (g ++ y)).offset = offset' + 1 + g.length ∧
          (triviaFrom blankLength m' found' (offset' + 1) (g ++ y)).rest = y := ih hm halike h
      rw [List.length_cons]
      exact ⟨by omega, hnext.2⟩
    -- a blank at the beginning lies within what is passed over
    have hblank : ∀ {k : Nat} {found : List (Nat × Nat)}, blankLength (a :: g ++ z) = k + 1 →
        (triviaFrom blankLength (.outside k) found (offset + 1) (g ++ z)).rest = z →
        blankLength (a :: g ++ y) = k + 1 :=
      fun hk h => blankLength_append hk (Nat.lt_succ_of_le (pending_le hz h))
    rw [List.cons_append] at h ⊢
    cases halike with
    | outside k =>
      cases k with
      | succ k => exact hmep (m := .outside k) trivial (.outside k) h
      | zero =>
        unfold triviaFrom at h ⊢
        split at h
        case h_1 k hk =>
          rw [← List.cons_append, hblank hk h]
          exact hmep (m := .outside k) trivial (.outside k) h
        case h_2 hk =>
          split at h
          case isTrue hslash =>
            have hslash' : blankLength (a :: (g ++ y)) = 0 := by
              rw [beq_iff_eq.mp hslash]
              rfl
            rw [hslash']
            dsimp only
            rw [if_pos hslash]
            exact hmep (m := .opening ⟨found, offset, a :: (g ++ z)⟩) hlong (.opening _ _) h
          case isFalse => exact absurd (congrArg List.length h) hlong
    | opening b b' =>
      unfold triviaFrom at h ⊢
      split at h
      case isTrue ha =>
        rw [if_pos ha]
        exact hmep (m := .line b) hm (.line b b') h
      case isFalse ha =>
        rw [if_neg ha]
        split at h
        case isTrue ha' =>
          rw [if_pos ha']
          exact hmep (m := .block b false) hm (.block b b' false) h
        case isFalse => exact absurd (congrArg List.length h) hm
    | line b b' =>
      unfold triviaFrom at h ⊢
      split at h
      case isTrue hline =>
        split at h
        case h_1 k hk =>
          have hle := pending_le hz h
          have hline' : startsWithLineEnd (a :: g ++ y) = true :=
            startsWithLineEnd_append hline (by rw [List.cons_append, hk]; exact Nat.succ_le_succ hle)
          rw [← List.cons_append, if_pos hline', hblank hk h]
          exact hmep (m := .outside k) trivial (.outside k) h
        case h_2 hk => exact absurd hk (blankLength_of_lineEnd hline)
      case isFalse hline =>
        have hline' : ¬ startsWithLineEnd (a :: (g ++ y)) = true := by
          intro hline'
          rcases startsWithLineEnd_eq_true hline' with ha | ha | ⟨rfl, c, rest, hrest, hc⟩
          · exact hline (startsWithLineEnd_of_first (.inl ha) _)
          · exact hline (startsWithLineEnd_of_first (.inr ha) _)
          · -- the line end would begin within what is passed over and end behind it
            rcases g with _ | ⟨b, _ | ⟨d, g⟩⟩
            · exact triviaFrom_visible_ne hz hm (by simp) h
            · obtain rfl : b = 0x80 := (List.cons.inj hrest).1
              have hnone : ¬ startsWithLineEnd (0x80 :: z) = true := by
                intro hz'
                rcases startsWithLineEnd_eq_true hz' with h | h | ⟨h, -⟩ <;> cases h
              rw [List.cons_append, List.nil_append, triviaFrom, if_neg hnone] at h
              exact triviaFrom_visible_ne hz hm (by simp) h
            · rw [List.cons_append, List.cons_append] at hrest hline
              obtain ⟨rfl, hmore⟩ := List.cons.inj hrest
              obtain ⟨rfl, -⟩ := List.cons.inj hmore
              refine hline ?_
              rcases hc with rfl | rfl <;> rfl
        rw [if_neg hline']
        exact hmep (m := .line b) hm (.line b b') h
    | block b b' starred =>
      unfold triviaFrom at h ⊢
      split at h
      case isTrue ha =>
        rw [if_pos ha]
        exact hmep (m := .outside 0) trivial (.outside 0) h
      case isFalse ha =>
        rw [if_neg ha]
        exact hmep (m := .block b (a == code '*')) hm (.block b b' _) h

/-- What is passed over before a lexeme is a gap. -/
theorem exists_gap (h : Visible (trivia offset t).rest) :
    ∃ g, Gap g ∧ t = g ++ (trivia offset t).rest ∧ (trivia offset t).offset = offset + g.length := by
  have hreached : Reached (List.replicate offset 0 ++ t) offset t := ⟨by simp, by simp⟩
  obtain ⟨hrest, hcomments⟩ := trivia_sound hreached
  obtain ⟨k, hk⟩ := Nat.exists_eq_add_of_le hcomments.1.le
  have hbound := hrest.bound
  have hdrop := hrest.rest
  rw [hk, ← List.drop_drop, ← hreached.rest] at hdrop
  rw [hk, List.length_append, List.length_replicate] at hbound
  have hsplit : t = t.take k ++ (trivia offset t).rest := by
    rw [hdrop, List.take_append_drop]
  refine ⟨t.take k, fun offset' y hy => ?_, hsplit, ?_⟩
  · have hsame : (triviaFrom blankLength (.outside 0) [] offset (t.take k ++ (trivia offset t).rest)).rest =
        (trivia offset t).rest := by
      rw [← hsplit]
      rfl
    exact triviaFrom_before (m := .outside 0) h hy trivial (.outside 0) hsame
  · rw [hk, List.length_take, Nat.min_eq_left (by omega)]

theorem Gap.nil : Gap [] := by
  rintro offset _ ⟨a, rest, rfl, hblank, hslash⟩
  rw [List.nil_append, trivia_of_visible hblank hslash]
  exact ⟨rfl, rfl⟩

/-- A space before a gap belongs to it. -/
theorem Gap.space (h : Gap g) : Gap (code ' ' :: g) := by
  intro offset y hy
  have hmep : trivia offset (code ' ' :: g ++ y) = trivia (offset + 1) (g ++ y) := rfl
  rw [hmep, List.length_cons]
  have := h (offset + 1) y hy
  exact ⟨by omega, this.2⟩

/-- A gap that is not empty begins with a blank or a comment, whatever follows it. -/
theorem Gap.first (h : Gap (a :: g)) (y : Bytes) :
    a = code '/' ∨ blankLength (a :: g ++ y) ≠ 0 := by
  by_cases hslash : a = code '/'
  · exact .inl hslash
  -- a comma stands for any lexeme
  have hcomma : Visible [code ','] := ⟨code ',', [], rfl, rfl, by decide⟩
  have hrest := (h 0 _ hcomma).2
  have hlong : (a :: (g ++ [code ','])).length ≠ [code ','].length := by simp
  rw [trivia, List.cons_append, triviaFrom] at hrest
  split at hrest
  case h_1 k hk =>
    have hle := pending_le hcomma hrest
    rw [blankLength_append hk (Nat.lt_succ_of_le hle)]
    exact .inr (Nat.succ_ne_zero k)
  case h_2 =>
    rw [if_neg (by simpa using hslash)] at hrest
    exact absurd (congrArg List.length hrest) hlong

/-! ### Passing over what was passed over -/

namespace TriviaState

/-- Whether the state is that in which the comment that is being read would be read again. -/
def Retraces (t : Bytes) : TriviaState → Prop
  | .outside _ => True
  | .opening b => ∀ o, ∃ found o' b', b'.rest = b.rest ∧
      trivia o b.rest = triviaFrom blankLength (.opening b') found o' t
  | .line b => ∀ o, ∃ found o' b', b'.rest = b.rest ∧
      trivia o b.rest = triviaFrom blankLength (.line b') found o' t
  | .block b starred => ∀ o, ∃ found o' b', b'.rest = b.rest ∧
      trivia o b.rest = triviaFrom blankLength (.block b' starred) found o' t

end TriviaState

/-- Where the passing over stops, it stops at once when it begins there. -/
theorem triviaFrom_again (hm : m.Retraces t) (o : Nat) :
    (trivia o (triviaFrom blankLength m found offset t).rest).rest =
      (triviaFrom blankLength m found offset t).rest := by
  have hgiven : ∀ {b b' : Trivia}, b'.rest = b.rest → trivia o b.rest = b' →
      (trivia o b.rest).rest = b.rest := fun h h' => by rw [h', h]
  induction t generalizing m found offset with
  | nil =>
    cases m with
    | outside k => cases k <;> rfl
    | opening b =>
      obtain ⟨f, o', b', hb', hsame⟩ := hm o
      exact hgiven hb' hsame
    | line b => rfl
    | block b starred =>
      obtain ⟨f, o', b', hb', hsame⟩ := hm o
      exact hgiven hb' hsame
  | cons a rest ih =>
    have houtside : ∀ k, (TriviaState.outside k).Retraces rest := fun _ => trivial
    cases m with
    | outside k =>
      cases k with
      | succ k => exact ih (houtside k)
      | zero =>
        unfold triviaFrom
        split
        · exact ih (houtside _)
        · rename_i hblank
          split
          · rename_i hslash
            refine ih (m := .opening ⟨found, offset, a :: rest⟩) fun o' =>
              ⟨[], o' + 1, ⟨[], o', a :: rest⟩, rfl, ?_⟩
            show triviaFrom blankLength (.outside 0) [] o' (a :: rest) = _
            rw [triviaFrom, hblank]
            dsimp only
            rw [if_pos hslash]
          · rename_i hslash
            rw [trivia_of_visible hblank (by simpa using hslash)]
    | opening b =>
      unfold triviaFrom
      split
      · rename_i ha
        refine ih (m := .line b) fun o' => ?_
        obtain ⟨f, o'', b', hb', hsame⟩ := hm o'
        rw [triviaFrom, if_pos ha] at hsame
        exact ⟨f, o'' + 1, b', hb', hsame⟩
      · rename_i ha
        split
        · rename_i ha'
          refine ih (m := .block b false) fun o' => ?_
          obtain ⟨f, o'', b', hb', hsame⟩ := hm o'
          rw [triviaFrom, if_neg ha, if_pos ha'] at hsame
          exact ⟨f, o'' + 1, b', hb', hsame⟩
        · rename_i ha'
          obtain ⟨f, o'', b', hb', hsame⟩ := hm o
          rw [triviaFrom, if_neg ha, if_neg ha'] at hsame
          exact hgiven hb' hsame
    | line b =>
      unfold triviaFrom
      split
      · rename_i hline
        split
        · exact ih (houtside _)
        · rename_i hblank
          exact absurd hblank (blankLength_of_lineEnd hline)
      · rename_i hline
        refine ih (m := .line b) fun o' => ?_
        obtain ⟨f, o'', b', hb', hsame⟩ := hm o'
        rw [triviaFrom, if_neg hline] at hsame
        exact ⟨f, o'' + 1, b', hb', hsame⟩
    | block b starred =>
      unfold triviaFrom
      split
      · exact ih (houtside 0)
      · rename_i ha
        refine ih (m := .block b _) fun o' => ?_
        obtain ⟨f, o'', b', hb', hsame⟩ := hm o'
        rw [triviaFrom, if_neg ha] at hsame
        exact ⟨f, o'' + 1, b', hb', hsame⟩

theorem trivia_again (o offset : Nat) (t : Bytes) :
    (trivia o (trivia offset t).rest).rest = (trivia offset t).rest :=
  triviaFrom_again (m := .outside 0) trivial o

end Codemod.Syntax
