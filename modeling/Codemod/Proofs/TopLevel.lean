import Codemod.Proofs.EnoughSteps
import Codemod.Proofs.ImportPlaces
import Codemod.Proofs.Readings

/-!
# The nodes at the top level

A source is read statement by statement. Every statement is one node, which begins at its first lexeme and is
not empty; between two of them stand only comments.

Main statements:

* `Grammar.statement_adds` says what is built where a statement is read;
* `parse_filled` says that no node at the top level is empty;
* `SourceFile.nodesBefore_eq` says which nodes stand before one.
-/

namespace Codemod

open Syntax

namespace Syntax

open Syntax.Tree

variable {s s' : Reading} {k : Kind} {offset : Nat} {t : Bytes}

/-! ### Comments -/

namespace TriviaState

/-- Whether a state that an offset has been read in keeps no empty comment in mind. -/
def Begun (offset : Nat) : TriviaState → Prop
  | .outside _ => True
  | .opening before | .line before | .block before _ =>
    before.offset < offset ∧ ∀ c ∈ before.comments, c.1 < c.2

end TriviaState

/-- No comment is empty. -/
theorem triviaFrom_comments {m : TriviaState} {found : List (Nat × Nat)} (hm : m.Begun offset)
    (hfound : ∀ c ∈ found, c.1 < c.2) :
    ∀ c ∈ (triviaFrom blankLength m found offset t).comments, c.1 < c.2 := by
  have hclosed : ∀ {before : Trivia} {stop : Nat}, before.offset < stop →
      (∀ c ∈ before.comments, c.1 < c.2) → ∀ c ∈ before.comment stop, c.1 < c.2 :=
    fun hlt hcomments => List.forall_mem_cons.mpr ⟨hlt, hcomments⟩
  induction t generalizing m found offset with
  | nil =>
    cases m with
    | outside k => cases k <;> exact hfound
    | opening before => exact hm.2
    | line before => exact hclosed hm.1 hm.2
    | block before starred => exact hm.2
  | cons a rest ih =>
    have houtside : ∀ k, (TriviaState.outside k).Begun (offset + 1) := fun _ => trivial
    cases m with
    | outside k =>
      cases k with
      | succ k => exact ih (houtside k) hfound
      | zero =>
        unfold triviaFrom
        split
        · exact ih (houtside _) hfound
        · split
          · exact ih (m := .opening ⟨found, offset, a :: rest⟩) ⟨Nat.lt_succ_self _, hfound⟩ hfound
          · exact hfound
    | opening before =>
      have hon : before.offset < offset + 1 := Nat.lt_succ_of_lt hm.1
      unfold triviaFrom
      split
      · exact ih (m := .line before) ⟨hon, hm.2⟩ hfound
      · split
        · exact ih (m := .block before false) ⟨hon, hm.2⟩ hfound
        · exact hm.2
    | line before =>
      have hon : before.offset < offset + 1 := Nat.lt_succ_of_lt hm.1
      unfold triviaFrom
      split
      · split
        · exact ih (houtside _) (hclosed hm.1 hm.2)
        · exact hclosed hm.1 hm.2
      · exact ih (m := .line before) ⟨hon, hm.2⟩ hfound
    | block before starred =>
      have hon : before.offset < offset + 1 := Nat.lt_succ_of_lt hm.1
      unfold triviaFrom
      split
      · exact ih (houtside 0) (hclosed hon hm.2)
      · exact ih (m := .block before _) ⟨hon, hm.2⟩ hfound

namespace Reading

variable {source : Bytes}

/-- Whether no node that was built is empty, and no comment ends on a blank line. -/
def Filled (source : Bytes) (s : Reading) : Prop :=
  ∀ t ∈ s.found, t.start < t.stop ∧ (t.is .comment = true → source.LineVisible t.stop)

theorem Filled.skip (h : s.Filled source) (hs : Reached source s.offset s.rest) : s.skip.Filled source := by
  intro t ht
  rcases List.mem_append.mp ht with ht | ht
  · obtain ⟨span, hspan, rfl⟩ := List.mem_map.mp ht
    exact ⟨triviaFrom_comments (m := .outside 0) trivial (fun _ h => absurd h List.not_mem_nil) span hspan,
      fun _ => (trivia_sound hs).comments.2 span hspan⟩
  · exact h t ht

/-- Whether a reading has added one node and the comments before it. -/
structure AddsNode (s : Reading) (t : Tree) (s' : Reading) : Prop where
  found : s'.found = t :: s.skip.found
  no_comment : t.is .comment = false
  start_eq : t.start = s.skip.offset
  stop_eq : t.stop = s'.offset
  start_lt : t.start < t.stop

theorem AddsNode.filled {u : Tree} (h : s.AddsNode u s') (hs : s.Filled source)
    (hreached : Reached source s.offset s.rest) : s'.Filled source := by
  unfold Filled
  rw [h.found]
  refine List.forall_mem_cons.mpr ⟨⟨h.start_lt, fun hcomment => ?_⟩, hs.skip hreached⟩
  rw [h.no_comment] at hcomment
  cases hcomment

end Reading

/-! ### Statements -/

namespace Pattern

variable {ρ : Type} {rules : ρ → Pattern ρ} {fuel : Nat} {around : Surroundings} {p : Pattern ρ}

/-- Whether a pattern builds one node of the right kind that is not empty, if those of some rules do. -/
def isSingle (ok : Kind → Bool) (known : ρ → Bool) : Pattern ρ → Bool
  | token l k => l.isFilled && ok k
  | both p q => p.looksAhead && q.readsLine ok
  | either p q => p.isSingle ok known && q.isSingle ok known
  | node k p => p.consumes && ok k
  | rule r => known r
  | _ => false

/-- A lexeme that is not empty is one node. -/
theorem addsNode_take {l : Lexeme} (hk : k ≠ .comment) (h : s.skip.take l k = some s')
    (hlt : s'.rest.length < s.skip.rest.length) : ∃ t, s.AddsNode t s' ∧ t.kind = k := by
  have htotal := (Reading.onward_take h).1.total
  unfold Reading.take at h
  split at h
  · cases h
  · rename_i n hn
    cases h
    refine ⟨_, ⟨rfl, decide_eq_false hk, rfl, rfl, ?_⟩, rfl⟩
    change s.skip.offset < s.skip.offset + n
    dsimp only at htotal hlt
    omega

theorem run_single {ok : Kind → Bool} {known : ρ → Bool} (hrules : ∀ r, (rules r).consumes = true)
    (hok : ok .comment = false) (hknown : ∀ r, known r = true → (rules r).isSingle ok known = true)
    (hp : p.isSingle ok known = true) (h : run rules fuel around p s = some s') :
    ∃ t, s.AddsNode t s' ∧ ok t.kind = true := by
  have hne : ∀ {k}, ok k = true → k ≠ .comment := by
    rintro k hk rfl
    rw [hok] at hk
    cases hk
  induction fuel generalizing p with
  | zero => cases h
  | succ fuel ih =>
    cases p with
    | token l k =>
      obtain ⟨hl, hk⟩ := Bool.and_eq_true_iff.mp hp
      obtain ⟨t, hadds, rfl⟩ := addsNode_take (hne hk) h ((Reading.onward_take h).2 hl)
      exact ⟨t, hadds, hk⟩
    | both p q =>
      obtain ⟨hp, hq⟩ := Bool.and_eq_true_iff.mp hp
      rw [run_both] at h
      obtain ⟨middle, hrun, hrun'⟩ := Option.bind_eq_some_iff.mp h
      obtain ⟨k, hk, htake, hlt⟩ := exists_line hp hq hrun hrun'
      obtain ⟨t, hadds, rfl⟩ := addsNode_take (hne hk) htake hlt
      exact ⟨t, hadds, hk⟩
    | either p q =>
      obtain ⟨hp, hq⟩ := Bool.and_eq_true_iff.mp hp
      rw [run_either] at h
      cases hrun : run rules fuel around p s with
      | none => rw [hrun] at h; exact ih hq h
      | some done => rw [hrun] at h; cases h; exact ih hp hrun
    | node k p =>
      obtain ⟨hp, hk⟩ := Bool.and_eq_true_iff.mp hp
      obtain ⟨done, hdone, rfl⟩ := Option.map_eq_some_iff.mp h
      refine ⟨_, ⟨rfl, decide_eq_false (hne hk), rfl, rfl, ?_⟩, hk⟩
      have hlt := run_consumes hrules hp hdone
      have htotal := (run_onward hdone).total
      change s.skip.offset < done.offset
      simp only [Reading.inner] at hlt htotal
      omega
    | rule r => exact ih (hknown r hp) h
    | _ => cases hp

end Pattern

namespace Grammar

/-- Whether a rule builds one node for each statement that it reads. -/
def isStatementRule (r : Rule) : Bool :=
  r = .statement || r = .declaration || r = .block

/-- Whether a statement can be of a kind. -/
def isStatementKind (k : Kind) : Bool :=
  k.isNamed && k != .comment && k != .hashBangLine && k != .unread

theorem rules_single (d : Dialect) (r : Rule) (h : isStatementRule r = true) :
    (rules d r).isSingle isStatementKind isStatementRule = true := by
  cases d <;> cases r <;> first | cases h; done | decide +kernel

/-- Where a statement is read, one node is built for it, behind the comments before it. -/
theorem statement_adds {d : Dialect} {fuel : Nat} {around : Surroundings}
    (h : Pattern.run (rules d) fuel around (call .statement) s = some s') :
    ∃ t, s.AddsNode t s' ∧ isStatementKind t.kind = true :=
  Pattern.run_single (rules_consume d) rfl (rules_single d) rfl h

/-- The first line of a source can tell how it is run. -/
def hashBang : Phrase := Pattern.all [.ahead "#!", .token .line .hashBangLine]

theorem hashBang_adds {d : Dialect} {fuel : Nat} {around : Surroundings}
    (h : Pattern.run (rules d) fuel around hashBang s = some s') :
    ∃ t, s.AddsNode t s' ∧ t.kind = .hashBangLine := by
  have hsingle : hashBang.isSingle (· == .hashBangLine) (fun _ => false) = true := by decide +kernel
  obtain ⟨t, hadds, hk⟩ := Pattern.run_single (rules_consume d) rfl (fun _ hr => by cases hr) hsingle h
  exact ⟨t, hadds, beq_iff_eq.mp hk⟩

end Grammar

open Pattern in
theorem readProgram_filled (d : Dialect) (source : Bytes) : (readProgram d source).Filled source := by
  have hstart : Reading.Filled source ⟨0, source, []⟩ := fun _ ht => absurd ht List.not_mem_nil
  have hsound : Reading.Sound source 0 ⟨0, source, []⟩ := ⟨⟨rfl, Nat.zero_le _⟩, PlacedIn.nil (Nat.le_refl _)⟩
  unfold readProgram
  dsimp only
  cases hrun : Pattern.run (Grammar.rules d) (stepsPerByte * (source.length + 1)) .statement
      Grammar.program ⟨0, source, []⟩ with
  | none => exact hstart
  | some r =>
    have hran : Ran (Grammar.rules d) .statement Grammar.program ⟨0, source, []⟩ r := ⟨_, hrun⟩
    obtain ⟨s, hfirst, hran⟩ := hran.both
    obtain ⟨s', hmany, hblanks⟩ := hran.both
    have hs : s.Sound source 0 ∧ s.Filled source := by
      rcases hfirst.either with ⟨fuel, hline⟩ | hnothing
      · obtain ⟨t, hadds, -⟩ := Grammar.hashBang_adds hline
        exact ⟨(run_sound (Grammar.rules_wellBuilt d) (by decide +kernel) hsound hline).1,
          hadds.filled hstart hsound.reached⟩
      · rw [hnothing.nothing]
        exact ⟨hsound, hstart⟩
    have hs' : s'.Sound source 0 ∧ s'.Filled source := by
      refine hmany.many (P := fun s s' => s.Sound source 0 ∧ s.Filled source →
        s'.Sound source 0 ∧ s'.Filled source) (fun _ => id) ?_ hs
      rintro s s' s'' ⟨fuel, hstatement⟩ ih ⟨hs, hfilled⟩
      obtain ⟨t, hadds, -⟩ := Grammar.statement_adds hstatement
      exact ih ⟨(run_sound (Grammar.rules_wellBuilt d) rfl hs hstatement).1, hadds.filled hfilled hs.reached⟩
    obtain ⟨fuel, hblanks⟩ := hblanks.exists_step
    cases hblanks
    exact hs'.2.skip hs'.1.reached

/-- No node at the top level is empty, and no comment there ends on a blank line. -/
theorem parse_filled (d : Dialect) (source : Bytes) : ∀ t ∈ (parse d source).children,
    t.start < t.stop ∧ (t.is .comment = true → source.LineVisible t.stop) := by
  intro t ht
  have hread := readProgram_sound d source
  rcases List.mem_append.mp ht with ht | ht
  · exact readProgram_filled d source t (List.mem_reverse.mp ht)
  · split at ht
    · cases ht
    · rename_i hrest
      obtain rfl := List.mem_singleton.mp ht
      have hlength := congrArg List.length hread.reached.rest
      rw [List.length_drop] at hlength
      have hpos := List.length_pos_iff.mpr (by simpa using hrest)
      refine ⟨?_, fun hcomment => by cases hcomment⟩
      change (readProgram d source).offset < source.length
      omega

end Syntax

namespace SourceFile

variable {f : SourceFile} {t : Tree} {before behind : List Tree}

theorem start_lt_stop (ht : t ∈ f.tree.children) : t.start < t.stop :=
  (parse_filled f.dialect f.text t ht).1

theorem comment_lineVisible (ht : t ∈ f.tree.children) (hcomment : t.is .comment = true) :
    f.text.LineVisible t.stop :=
  (parse_filled f.dialect f.text t ht).2 hcomment

/-- The nodes before one at the top level are those that stand before it. -/
theorem nodesBefore_eq (h : f.tree.children = before ++ t :: behind) : f.nodesBefore t = before.reverse := by
  have hplaced := f.nodes_placed
  rw [h] at hplaced
  obtain ⟨middle, hbefore, hbehind⟩ := hplaced.exists_split
  have hstart : middle ≤ t.start := hbehind.uncons.1
  unfold nodesBefore
  rw [h, List.takeWhile_append_of_pos, List.takeWhile_cons_of_neg (by simp), List.append_nil]
  intro c hc
  have hfilled := start_lt_stop (f := f) (t := c) (h ▸ List.mem_append_left _ hc)
  have hstop := (hbefore.bounds hc).2.2
  exact decide_eq_true (by omega)

end SourceFile
end Codemod
