import Codemod.Proofs.SmallestChanges
import Codemod.Proofs.TopLevel

/-!
# Comments behind the statement before

The comments directly before a statement are a run that nothing but blanks interrupts. One that begins on the line
on which the node before the run ends belongs to that node. Of those only the first is left to it: all others are
taken to lead the statement behind them, and go with it when it is removed or written anew.

Main statements:

* `SourceFile.CommentRun.leadingComments_eq` says which comments of its run lead a statement;
* `SourceFile.CommentRun.trails_of_behind` says that the comments that trail stand first in the run;
* `comments_on_previous_line` says when those are just the comments that trail, and what is taken with a statement.
-/

namespace Codemod

open Syntax Syntax.Tree

namespace SourceFile

variable {f : SourceFile} {t c : Tree} {above run behind : List Tree}

/-- The unbroken run of comments directly before a node at the top level, with what stands above the run and
behind the node. -/
structure CommentRun (f : SourceFile) (t : Tree) (above run behind : List Tree) : Prop where
  children : f.tree.children = above ++ run ++ t :: behind
  comments : ∀ c ∈ run, c.is .comment = true
  unbroken : ∀ p ∈ above.getLast?, p.is .comment = false

/-- Whether a comment begins on the line on which the last of the nodes above it ends. -/
def trails (f : SourceFile) (above : List Tree) (c : Tree) : Bool :=
  above.getLast?.any fun p => f.row c.start == f.row p.stop

theorem exists_commentRun (ht : t ∈ f.tree.children) : ∃ above run behind, f.CommentRun t above run behind := by
  obtain ⟨before, behind, hsplit⟩ := List.append_of_mem ht
  have hbefore : before = (before.reverse.dropWhile (·.is .comment)).reverse ++
      (before.reverse.takeWhile (·.is .comment)).reverse := by
    rw [← List.reverse_append, List.takeWhile_append_dropWhile, List.reverse_reverse]
  refine ⟨_, _, behind, ⟨by rw [← hbefore, hsplit], fun c hc => ?_, fun p hp => ?_⟩⟩
  · exact mem_takeWhile (p := fun c : Tree => c.is .comment) (List.mem_reverse.mp hc)
  · rw [List.getLast?_reverse] at hp
    have := List.head?_dropWhile_not (fun c : Tree => c.is .comment) before.reverse
    rw [Option.mem_def.mp hp] at this
    exact this

namespace CommentRun

theorem nodesBefore_eq (h : f.CommentRun t above run behind) : f.nodesBefore t = run.reverse ++ above.reverse := by
  rw [SourceFile.nodesBefore_eq h.children, List.reverse_append]

/-- The comments of the run lie in order, behind what stands above them and before the node. -/
theorem placed (h : f.CommentRun t above run behind) : ∃ lo, PlacedIn f.text lo f.text.length (run ++ t :: behind) ∧
    ∀ p ∈ above, p.stop ≤ lo := by
  have hplaced := f.nodes_placed
  rw [h.children, List.append_assoc] at hplaced
  obtain ⟨lo, habove, hrun⟩ := hplaced.exists_split
  exact ⟨lo, hrun, fun p hp => (habove.bounds hp).2.2⟩

theorem mem_children (h : f.CommentRun t above run behind) (hc : c ∈ run) : c ∈ f.tree.children := by
  rw [h.children]
  simp [hc]

/-- The nodes before one are those of its run, the nearest first, and then those above. -/
theorem takeWhile_nodesBefore (h : f.CommentRun t above run behind) :
    (f.nodesBefore t).takeWhile (·.is .comment) = run.reverse ∧
      ((f.nodesBefore t).dropWhile (·.is .comment)).head? = above.getLast? := by
  have hrun : ∀ c ∈ run.reverse, c.is .comment = true := fun c hc => h.comments c (List.mem_reverse.mp hc)
  rw [h.nodesBefore_eq, List.takeWhile_append_of_pos hrun, List.dropWhile_append_of_pos hrun,
    ← List.head?_reverse]
  have hunbroken := h.unbroken
  rw [← List.head?_reverse] at hunbroken
  cases habove : above.reverse with
  | nil => simp
  | cons p rest =>
    have hp : p.is .comment = false := hunbroken p (by simp [habove])
    simp [hp]

/-- What trails in the run is seen from the nodes before the one that the run stands before. -/
theorem trails_eq (h : f.CommentRun t above run behind) (c : Tree) : f.trails above c =
    ((f.nodesBefore t).dropWhile (·.is .comment)).head?.any fun p => f.row c.start == f.row p.stop := by
  rw [h.takeWhile_nodesBefore.2]
  rfl

/-- The first comment of the run is left out where it trails, and no other. -/
theorem leadingComments_eq (h : f.CommentRun t above run behind) :
    f.leadingComments t = if run.head?.any (f.trails above) then run.tail else run := by
  obtain ⟨hrun, habove⟩ := h.takeWhile_nodesBefore
  unfold leadingComments trails
  dsimp only
  rw [hrun, habove, List.getLast?_reverse, List.dropLast_reverse, List.reverse_reverse]
  cases run with
  | nil => simp
  | cons first rest => cases above.getLast? <;> simp

/-- A comment that stands before one that trails does so too. -/
theorem trails_of_behind (h : f.CommentRun t above run behind) {later : Tree} {before after : List Tree}
    (hrun : run = before ++ later :: after) (hlater : f.trails above later = true) (hc : c ∈ before) :
    f.trails above c = true := by
  obtain ⟨lo, hplaced, habove⟩ := h.placed
  obtain ⟨p, hp, hrow⟩ := (Option.any_eq_true _ _).mp hlater
  have hstop : p.stop ≤ lo := habove p (List.mem_of_getLast? hp)
  rw [hrun, List.append_assoc] at hplaced
  obtain ⟨middle, hbefore, hbehind⟩ := hplaced.exists_split
  have hfirst := hbefore.bounds hc
  have hmiddle : middle ≤ later.start := hbehind.uncons.1
  -- Rows grow with offsets, and those of the two ends are the same.
  have hmono : ∀ {i j : Nat}, i ≤ j → f.row i ≤ f.row j := fun hij =>
    (List.take_sublist_take_left hij).count_le _
  have hlow : f.row p.stop ≤ f.row c.start := hmono (by omega)
  have hcstart := hfirst.2.1.start_le
  have hhigh : f.row c.start ≤ f.row later.start := hmono (by omega)
  have hsame : f.row later.start = f.row p.stop := by simpa using hrow
  refine (Option.any_eq_true _ _).mpr ⟨p, hp, ?_⟩
  simp only [beq_iff_eq]
  omega

/-- The comments that lead a node are those of its run that do not trail, exactly when no comment trails behind
another one. -/
theorem leadingComments_eq_filter_iff (h : f.CommentRun t above run behind) :
    f.leadingComments t = run.filter (fun c => !f.trails above c) ↔ ∀ c ∈ run.tail, f.trails above c = false := by
  cases hrun : run with
  | nil => simp [h.leadingComments_eq, hrun]
  | cons first rest =>
    subst hrun
    constructor
    · intro heq c hc
      -- A comment behind the first that trails would be led and filtered out.
      refine Bool.eq_false_iff.mpr fun htrails => ?_
      obtain ⟨before, after, hrest⟩ := List.append_of_mem hc
      have hfirst : f.trails above first = true :=
        h.trails_of_behind (congrArg (first :: ·) hrest : first :: rest = (first :: before) ++ c :: after) htrails
          (List.mem_cons_self ..)
      have hmem : c ∈ f.leadingComments t := by
        rw [h.leadingComments_eq]
        simpa [hfirst] using hc
      rw [heq] at hmem
      simp [htrails] at hmem
    · intro hrest
      have hkept : rest.filter (fun c => !f.trails above c) = rest :=
        List.filter_eq_self.mpr fun c hc => by simpa using hrest c hc
      rw [h.leadingComments_eq, List.filter_cons, hkept]
      cases hfirst : f.trails above first <;> simp [hfirst]

/-- Behind a comment that does not lead the node, everything begins that is taken with it. -/
theorem stop_le_opening (h : f.CommentRun t above run behind) (hc : c ∈ run) (hleads : c ∉ f.leadingComments t) :
    c.stop ≤ f.opening t := by
  obtain ⟨lo, hplaced, -⟩ := h.placed
  rw [h.leadingComments_eq] at hleads
  unfold opening
  rw [h.leadingComments_eq]
  cases run with
  | nil => cases hc
  | cons first rest =>
    split at hleads
    · rename_i htrails
      rw [if_pos htrails]
      obtain rfl := (List.mem_cons.mp hc).resolve_right hleads
      obtain ⟨-, -, hrest⟩ := hplaced.uncons
      cases rest with
      | nil => exact hrest.uncons.1
      | cons second more => exact hrest.uncons.1
    · exact absurd hc hleads

end CommentRun

/-- Whether an edit takes just the given ones of some nodes: it covers those and lies behind the others. -/
def Takes (e : Edit) (taken nodes : List Tree) : Prop :=
  (∀ c ∈ taken, e.start ≤ c.start ∧ c.stop ≤ e.stop) ∧ ∀ c ∈ nodes, c ∉ taken → c.stop ≤ e.start

theorem CommentRun.takes_removeStatement (h : f.CommentRun t above run behind) :
    Takes (f.removeStatement t) (f.leadingComments t) run := by
  have ht : t ∈ f.tree.children := by rw [h.children]; simp
  obtain ⟨hstart, hstop⟩ := f.removeStatement_place t
  obtain ⟨-, hplaced, hlength⟩ := f.nodes_placed.bounds ht
  have hback := widenBack_le f.text (f.opening t)
  have hon := le_widenOn hlength
  have hle := hplaced.start_le
  refine ⟨fun c hc => ?_, fun c hc hleads => ?_⟩
  · obtain ⟨-, hcstart, hcstop⟩ := leadingComments_bounds ht hc
    omega
  · rw [hstart]
    have hopening := (f.opening_bounds t).1
    have hline := comment_lineVisible (h.mem_children hc) (h.comments c hc)
    exact le_widenBack_of_lineVisible hline (h.stop_le_opening hc hleads) (by omega)

theorem CommentRun.takes_replaceStatement {text : String} {e : Edit} (h : f.CommentRun t above run behind)
    (hedit : f.replaceStatement t text true = .ok e) : Takes e (f.leadingComments t) run := by
  have ht : t ∈ f.tree.children := by rw [h.children]; simp
  obtain ⟨hstart, hstop⟩ := replaceStatement_place hedit
  have hle := (f.nodes_placed.bounds ht).2.1.start_le
  refine ⟨fun c hc => ?_, fun c hc hleads => ?_⟩
  · obtain ⟨-, hcstart, hcstop⟩ := leadingComments_bounds ht hc
    omega
  · rw [hstart]
    exact h.stop_le_opening hc hleads

end SourceFile

/-- Of the comments directly before a statement the first is left to the node above it where it begins on the line
on which that node ends. All others lead the statement, and go with it when it is removed or written anew, so that
they are those that do not begin on that line exactly when no second comment does. -/
theorem comments_on_previous_line {f : SourceFile} {t : Tree} (ht : t ∈ f.statements) :
    ∃ above run behind, f.CommentRun t above run behind ∧
      f.leadingComments t = (if run.head?.any (f.trails above) then run.tail else run) ∧
      (f.leadingComments t = run.filter (fun c => !f.trails above c) ↔ ∀ c ∈ run.tail, f.trails above c = false) ∧
      SourceFile.Takes (f.removeStatement t) (f.leadingComments t) run ∧
      ∀ text e, f.replaceStatement t text true = .ok e → SourceFile.Takes e (f.leadingComments t) run := by
  obtain ⟨above, run, behind, h⟩ := SourceFile.exists_commentRun (f.statements_sublist.mem ht)
  refine ⟨above, run, behind, h, h.leadingComments_eq, h.leadingComments_eq_filter_iff, ?_, fun text e hedit => ?_⟩
  · exact h.takes_removeStatement
  · exact h.takes_replaceStatement hedit

/-- A module with a comment behind a statement and one before the next. -/
def notedModule : SourceFile :=
  ⟨.ofString "/p/a.ts", .typescript, Bytes.ofString "a; // about a\n// about b\nb;\n", false⟩

/-- Only the second comment leads the statement below it. -/
theorem notedModule_comments : ∃ t ∈ notedModule.statements, ∃ above run behind,
    notedModule.CommentRun t above run behind ∧ run.length = 2 ∧ notedModule.leadingComments t = run.tail := by
  obtain ⟨t, ht, hlength, htrails⟩ : ∃ t ∈ notedModule.statements,
      ((notedModule.nodesBefore t).takeWhile (·.is .comment)).length = 2 ∧
      (((notedModule.nodesBefore t).takeWhile (·.is .comment)).reverse.head?.any fun c =>
        ((notedModule.nodesBefore t).dropWhile (·.is .comment)).head?.any fun p =>
          notedModule.row c.start == notedModule.row p.stop) = true := by
    decide +kernel
  obtain ⟨above, run, behind, hrun, hleads, -⟩ := comments_on_previous_line ht
  rw [hrun.takeWhile_nodesBefore.1] at hlength htrails
  simp only [← hrun.trails_eq, List.reverse_reverse] at htrails
  refine ⟨t, ht, above, run, behind, hrun, by simpa using hlength, ?_⟩
  rw [hleads]
  exact if_pos htrails

/-- A module with two comments behind a statement. -/
def crammedModule : SourceFile :=
  ⟨.ofString "/p/a.ts", .typescript, Bytes.ofString "a; /* 1 */ /* 2 */\nb;\n", false⟩

/-- The second of them leads the statement below, and is removed with it. -/
theorem second_comment_leads : ∃ t ∈ crammedModule.statements, ∃ above run behind,
    crammedModule.CommentRun t above run behind ∧
      crammedModule.leadingComments t ≠ run.filter (fun c => !crammedModule.trails above c) ∧
      ∃ c ∈ run, crammedModule.trails above c = true ∧
        (crammedModule.removeStatement t).start ≤ c.start ∧ c.stop ≤ (crammedModule.removeStatement t).stop := by
  obtain ⟨t, ht, hsecond⟩ : ∃ t ∈ crammedModule.statements,
      (((crammedModule.nodesBefore t).takeWhile (·.is .comment)).reverse.tail.any fun c =>
        ((crammedModule.nodesBefore t).dropWhile (·.is .comment)).head?.any fun p =>
          crammedModule.row c.start == crammedModule.row p.stop) = true := by
    decide +kernel
  obtain ⟨above, run, behind, h⟩ :=
    SourceFile.exists_commentRun (crammedModule.statements_sublist.mem ht)
  rw [h.takeWhile_nodesBefore.1] at hsecond
  simp only [← h.trails_eq, List.reverse_reverse] at hsecond
  obtain ⟨c, hc, htrails⟩ := List.any_eq_true.mp hsecond
  have hleads : c ∈ crammedModule.leadingComments t := by
    rw [h.leadingComments_eq]
    split
    · exact hc
    · exact List.mem_of_mem_tail hc
  refine ⟨t, ht, above, run, behind, h, fun heq => ?_, c, List.mem_of_mem_tail hc, htrails,
    h.takes_removeStatement.1 c hleads⟩
  rw [h.leadingComments_eq_filter_iff.mp heq c hc] at htrails
  cases htrails

end Codemod
