import Codemod.Proofs.TreeSpans

/-!
# Readings that begin elsewhere

What is read of a text depends neither on the offset at which the text lies nor on what was built before it.
So everything about a reading can be said of one that begins at the beginning of its text.

Main statements:

* `trivia_moved` says that the same blanks and comments are passed over wherever a text lies;
* `Pattern.run_onto` says that a pattern builds the same nodes there, moved;
* `Pattern.run_eq_map` takes a reading back to the beginning of its text.
-/

namespace Codemod.Syntax

/-! ### Nodes -/

namespace Tree

mutual

/-- A node as it lies when so many bytes more stand before it. -/
def moved (d : Nat) : Tree → Tree
  | .node k r s e cs => .node k r (d + s) (d + e) (movedIn d cs)

/-- Nodes as they lie then. -/
def movedIn (d : Nat) : List Tree → List Tree
  | [] => []
  | t :: rest => t.moved d :: movedIn d rest

end

theorem movedIn_eq_map (d : Nat) (l : List Tree) : movedIn d l = l.map (moved d) := by
  induction l with
  | nil => rfl
  | cons t rest ih => rw [movedIn, ih, List.map_cons]

variable (d : Nat) (t : Tree)

@[simp] theorem moved_kind : (t.moved d).kind = t.kind := by cases t; rfl

@[simp] theorem moved_role : (t.moved d).role = t.role := by cases t; rfl

@[simp] theorem moved_start : (t.moved d).start = d + t.start := by cases t; rfl

@[simp] theorem moved_stop : (t.moved d).stop = d + t.stop := by cases t; rfl

@[simp] theorem moved_is (k : Kind) : (t.moved d).is k = t.is k := by cases t; rfl

@[simp] theorem moved_children : (t.moved d).children = t.children.map (moved d) := by
  cases t
  exact movedIn_eq_map ..

@[simp] theorem moved_leaf (k : Kind) (s e : Nat) : (leaf k s e).moved d = leaf k (d + s) (d + e) := rfl

theorem moved_withRole (r : Role) : (t.withRole r).moved d = (t.moved d).withRole r := by cases t; rfl

end Tree

open Syntax.Tree

/-! ### Blanks and comments -/

/-- Where a comment lies when so many bytes more stand before it. -/
def movedSpan (d : Nat) (span : Nat × Nat) : Nat × Nat :=
  (d + span.1, d + span.2)

/-- Blanks and comments that lie elsewhere. -/
def Trivia.moved (d : Nat) (t : Trivia) : Trivia :=
  ⟨t.comments.map (movedSpan d), d + t.offset, t.rest⟩

/-- A state in which a comment that lies elsewhere is kept in mind. -/
def TriviaState.moved (d : Nat) : TriviaState → TriviaState
  | .outside k => .outside k
  | .opening before => .opening (before.moved d)
  | .line before => .line (before.moved d)
  | .block before starred => .block (before.moved d) starred

theorem triviaFrom_moved (blank : Bytes → Nat) (d : Nat) (m : TriviaState) (found : List (Nat × Nat))
    (offset : Nat) (t : Bytes) :
    triviaFrom blank (m.moved d) (found.map (movedSpan d)) (d + offset) t =
      (triviaFrom blank m found offset t).moved d := by
  induction t generalizing m found offset with
  | nil => cases m <;> rfl
  | cons a rest ih =>
    cases m with
    | outside k =>
      cases k with
      | succ k => exact ih (.outside k) found (offset + 1)
      | zero =>
        simp only [TriviaState.moved, triviaFrom]
        split
        · exact ih (.outside _) found (offset + 1)
        · split
          · exact ih (.opening ⟨found, offset, a :: rest⟩) found (offset + 1)
          · rfl
    | opening before =>
      simp only [TriviaState.moved, triviaFrom]
      split
      · exact ih (.line before) found (offset + 1)
      · split
        · exact ih (.block before false) found (offset + 1)
        · rfl
    | line before =>
      simp only [TriviaState.moved, triviaFrom]
      split
      · split
        · exact ih (.outside _) (before.comment offset) (offset + 1)
        · rfl
      · exact ih (.line before) found (offset + 1)
    | block before starred =>
      simp only [TriviaState.moved, triviaFrom]
      split
      · exact ih (.outside 0) (before.comment (offset + 1)) (offset + 1)
      · exact ih (.block before _) found (offset + 1)

/-- The same blanks and comments are passed over wherever a text lies. -/
theorem trivia_moved (d offset : Nat) (t : Bytes) : trivia (d + offset) t = (trivia offset t).moved d :=
  triviaFrom_moved blankLength d (.outside 0) [] offset t

theorem statementEnd?_moved (e : Ending) (fuel d : Nat) (t : Trivia) :
    statementEnd? e fuel (t.moved d) = (statementEnd? e fuel t).map (Trivia.moved d) := by
  induction fuel generalizing t with
  | zero => rfl
  | succ fuel ih =>
    have hrest : (t.moved d).rest = t.rest := rfl
    unfold statementEnd?
    rw [hrest]
    by_cases hend : endsStatement e t.rest = true
    · rw [if_pos hend, if_pos hend]
      rfl
    · rw [if_neg hend, if_neg hend]
      dsimp only
      cases commentLength? (dropBlanks blankLength 0 t.rest) with
      | none => rfl
      | some n =>
        dsimp only
        rw [← ih]
        simp only [Trivia.moved, movedSpan, List.map_cons, Nat.add_assoc]

/-! ### Readings -/

namespace Reading

/-- A reading of the same text that lies elsewhere, behind what was built before. -/
def onto (d : Nat) (before : List Tree) (s : Reading) : Reading :=
  ⟨d + s.offset, s.rest, s.found.map (Tree.moved d) ++ before⟩

variable (d : Nat) (before : List Tree) (s done : Reading)

@[simp] theorem onto_offset : (s.onto d before).offset = d + s.offset := rfl

@[simp] theorem onto_rest : (s.onto d before).rest = s.rest := rfl

@[simp] theorem onto_found : (s.onto d before).found = s.found.map (Tree.moved d) ++ before := rfl

theorem after_onto (t : Trivia) : (s.onto d before).after (t.moved d) = (s.after t).onto d before := by
  simp only [after, onto, Trivia.moved, List.map_map, List.map_append, List.append_assoc]
  rfl

theorem skip_onto : (s.onto d before).skip = s.skip.onto d before := by
  unfold skip
  rw [onto_offset, onto_rest, trivia_moved, after_onto]

theorem inner_onto : (s.onto d before).inner = s.inner.onto d [] := rfl

theorem take_onto (l : Lexeme) (k : Kind) : (s.onto d before).take l k = (s.take l k).map (onto d before) := by
  unfold take
  rw [onto_rest]
  cases l.length? s.rest with
  | none => rfl
  | some n => simp [onto, Nat.add_assoc]

theorem close_onto (k : Kind) : (s.onto d before).close k (done.onto d []) = (s.close k done).onto d before := by
  simp [close, onto, Tree.moved, movedIn_eq_map]

theorem closeGroup_onto (k : Kind) :
    (s.onto d before).closeGroup k (done.onto d []) = (s.closeGroup k done).onto d before := by
  have hsame : ((done.onto d []).found.filter (! ·.is .comment)) =
      (done.found.filter (! ·.is .comment)).map (Tree.moved d) := by
    simp [onto, List.filter_map, Function.comp_def]
  have hopen : (⟨d + done.offset, done.rest, (done.onto d []).found ++ (s.onto d before).found⟩ : Reading) =
      (⟨done.offset, done.rest, done.found ++ s.found⟩ : Reading).onto d before := by
    simp [onto]
  unfold closeGroup
  rw [hsame]
  generalize done.found.filter (! ·.is .comment) = parts
  rcases parts with _ | ⟨one, _ | ⟨two, more⟩⟩
  · exact close_onto d before s done k
  · exact hopen
  · exact close_onto d before s done k

theorem closePart_onto (r : Role) :
    (s.onto d before).closePart r (done.onto d []) = (s.closePart r done).onto d before := by
  simp only [closePart, onto, List.append_nil, List.map_map, List.map_append, List.append_assoc]
  congr 2
  refine List.map_congr_left fun t _ => ?_
  simp only [Function.comp_apply, moved_is]
  split
  · rfl
  · exact (moved_withRole d t r).symm

end Reading

namespace Pattern

variable {ρ : Type} (rules : ρ → Pattern ρ) (fuel : Nat) (around : Surroundings) (p : Pattern ρ)

/-- A pattern builds the same nodes wherever a text lies, whatever was built before. -/
theorem run_onto (d : Nat) (before : List Tree) (s : Reading) :
    run rules fuel around p (s.onto d before) = (run rules fuel around p s).map (Reading.onto d before) := by
  induction fuel generalizing around p s before with
  | zero => rfl
  | succ fuel ih =>
    -- What stands in a node is read as if nothing had been built before it.
    have hinner : ∀ p, run rules fuel around p (s.onto d before).skip.inner =
        (run rules fuel around p s.skip.inner).map (Reading.onto d []) := fun p => by
      rw [Reading.skip_onto, Reading.inner_onto, ih]
    cases p with
    | nothing => rfl
    | never => rfl
    | token l k =>
      change (s.onto d before).skip.take l k = (s.skip.take l k).map _
      rw [Reading.skip_onto, Reading.take_onto]
    | glued l k => exact Reading.take_onto ..
    | both p q =>
      rw [run_both, run_both, ih]
      cases run rules fuel around p s with
      | none => rfl
      | some s' => exact ih ..
    | either p q =>
      rw [run_either, run_either, ih, ih]
      cases run rules fuel around p s <;> rfl
    | many p =>
      rw [run_many, run_many, ih]
      cases run rules fuel around p s with
      | none => rfl
      | some s' =>
        simp only [Option.map_some, Reading.onto_offset, Nat.add_left_cancel_iff]
        split
        · rfl
        · exact ih ..
    | node k p =>
      rw [run_node, run_node, hinner, Reading.skip_onto]
      cases run rules fuel around p s.skip.inner with
      | none => rfl
      | some done => simp [Reading.close_onto]
    | group k p =>
      change (run rules fuel around p (s.onto d before).skip.inner).map ((s.onto d before).skip.closeGroup k) =
        ((run rules fuel around p s.skip.inner).map (s.skip.closeGroup k)).map _
      rw [hinner, Reading.skip_onto]
      cases run rules fuel around p s.skip.inner with
      | none => rfl
      | some done => simp [Reading.closeGroup_onto]
    | part r p =>
      rw [run_part, run_part, hinner, Reading.skip_onto]
      cases run rules fuel around p s.skip.inner with
      | none => rfl
      | some done => simp [Reading.closePart_onto]
    | rule r => exact ih ..
    | ahead p =>
      rw [run_ahead, run_ahead, ih]
      cases run rules fuel around p s <;> rfl
    | absent p =>
      rw [run_absent, run_absent, ih]
      cases run rules fuel around p s <;> rfl
    | ending e =>
      change (statementEnd? e fuel (Trivia.moved d ⟨[], s.offset, s.rest⟩)).map (s.onto d before).after =
        ((statementEnd? e fuel ⟨[], s.offset, s.rest⟩).map s.after).map _
      rw [statementEnd?_moved]
      cases statementEnd? e fuel ⟨[], s.offset, s.rest⟩ with
      | none => rfl
      | some t => simp [Reading.after_onto]
    | inside around' p => exact ih ..
    | amid around' =>
      change (if around = around' then some (s.onto d before) else none) =
        (if around = around' then some s else none).map _
      split <;> rfl
    | blanks => exact congrArg some (Reading.skip_onto ..)
    | finish =>
      change (if s.rest.isEmpty then some (s.onto d before) else none) =
        (if s.rest.isEmpty then some s else none).map _
      split <;> rfl

/-- What a pattern reads is what it reads from the beginning of the same text. -/
theorem run_eq_map (s : Reading) : run rules fuel around p s =
    (run rules fuel around p ⟨0, s.rest, []⟩).map (Reading.onto s.offset s.found) :=
  run_onto rules fuel around p s.offset s.found ⟨0, s.rest, []⟩

end Pattern
end Codemod.Syntax
