import Codemod.Syntax.Lexeme
import Codemod.Syntax.StatementEnd
import Codemod.Syntax.Tree

/-!
# Patterns

A grammar is a family of patterns, one for each of its rules. A pattern says which texts it reads
and which nodes it builds from them. `Pattern.run` reads a text by a pattern: choices are ordered, the
first that succeeds is taken, and what it has read is not read in another way later.

Blanks and comments before a lexeme are passed over; the comments become nodes. A node begins at its
first lexeme, so that a comment before it stays outside.

Main statements:

* `Pattern.run_nothing`, `Pattern.run_never`, `Pattern.run_both`, `Pattern.run_either`, `Pattern.run_many`,
  `Pattern.run_node`, `Pattern.run_part`, `Pattern.run_ahead` and `Pattern.run_absent` are the laws of the
  connectives;
* `Reading.skip_found_comments` says that only comments are added between two lexemes.
-/

namespace Codemod.Syntax

/-- What surrounds a piece of the source: this decides how it can go on. -/
inductive Surroundings where
  /-- A statement, which can end without a semicolon. -/
  | statement
  /-- Brackets, within which no statement can end. -/
  | brackets
  /-- The middle part of a conditional, after which a colon stands. -/
  | conditional
  deriving DecidableEq, Repr

/-- A pattern over the rules `ρ`. -/
inductive Pattern (ρ : Type) where
  /-- Reads nothing. -/
  | nothing
  /-- Fails. -/
  | never
  /-- Reads a lexeme as a leaf, with the blanks and comments before it. -/
  | token (l : Lexeme) (k : Kind)
  /-- Reads a lexeme that must follow at once. -/
  | glued (l : Lexeme) (k : Kind)
  /-- Reads by one pattern and then by another. -/
  | both (p q : Pattern ρ)
  /-- Reads by one pattern or, where that fails, by another. -/
  | either (p q : Pattern ρ)
  /-- Reads by a pattern as often as it succeeds. -/
  | many (p : Pattern ρ)
  /-- Reads by a pattern and puts what it builds into a node. -/
  | node (k : Kind) (p : Pattern ρ)
  /-- Reads by a pattern and puts what it builds into a node, unless that is a single node. -/
  | group (k : Kind) (p : Pattern ρ)
  /-- Reads by a pattern and gives the nodes that it builds a role. -/
  | part (r : Role) (p : Pattern ρ)
  /-- Reads by the pattern of a rule. -/
  | rule (r : ρ)
  /-- Succeeds where a pattern would, and reads nothing. -/
  | ahead (p : Pattern ρ)
  /-- Succeeds where a pattern would fail, and reads nothing. -/
  | absent (p : Pattern ρ)
  /-- Reads the end of a statement that has no semicolon. -/
  | ending (e : Ending)
  /-- Reads by a pattern in other surroundings. -/
  | inside (s : Surroundings) (p : Pattern ρ)
  /-- Succeeds in these surroundings. -/
  | amid (s : Surroundings)
  /-- Reads blanks and comments. -/
  | blanks
  /-- Succeeds at the end of the text. -/
  | finish

/-- How far a text has been read. -/
structure Reading where
  /-- The offset of what is still to be read. -/
  offset : Nat
  /-- What is still to be read. -/
  rest : Bytes
  /-- The nodes built for the node that is being read, the last one first. -/
  found : List Tree

namespace Reading

/-- A comment as a node. -/
def commentLeaf (span : Nat × Nat) : Tree :=
  Tree.leaf .comment span.1 span.2

/-- Continues after some blanks and comments; the comments become nodes. -/
def after (s : Reading) (t : Trivia) : Reading :=
  ⟨t.offset, t.rest, t.comments.map commentLeaf ++ s.found⟩

/-- Passes over blanks and comments. -/
def skip (s : Reading) : Reading :=
  s.after (trivia s.offset s.rest)

/-- Only comments are added between two lexemes. -/
theorem skip_found_comments (s : Reading) :
    ∃ cs : List (Nat × Nat), s.skip.found = cs.map commentLeaf ++ s.found :=
  ⟨_, rfl⟩

/-- Reads a lexeme as a leaf. -/
def take (s : Reading) (l : Lexeme) (k : Kind) : Option Reading :=
  match l.length? s.rest with
  | none => none
  | some n => some ⟨s.offset + n, s.rest.drop n, Tree.leaf k s.offset (s.offset + n) :: s.found⟩

/-- The reading of a node's parts. -/
def inner (s : Reading) : Reading :=
  ⟨s.offset, s.rest, []⟩

/-- Makes a node of what was built since `s`. -/
def close (s : Reading) (k : Kind) (done : Reading) : Reading :=
  ⟨done.offset, done.rest, .node k none s.offset done.offset done.found.reverse :: s.found⟩

/-- Makes a node of what was built since `s`, unless that is a single node. -/
def closeGroup (s : Reading) (k : Kind) (done : Reading) : Reading :=
  match done.found.filter (! ·.is .comment) with
  | [_] => ⟨done.offset, done.rest, done.found ++ s.found⟩
  | _ => s.close k done

/-- Gives the nodes that were built since `s` a role; comments have none. -/
def closePart (s : Reading) (r : Role) (done : Reading) : Reading :=
  ⟨done.offset, done.rest,
    done.found.map (fun t => if t.is .comment then t else t.withRole r) ++ s.found⟩

end Reading

namespace Pattern

variable {ρ : Type}

/-- Reads by a pattern. Every step into a pattern takes one from `fuel`. -/
def run (rules : ρ → Pattern ρ) : Nat → Surroundings → Pattern ρ → Reading → Option Reading
  | 0, _, _, _ => none
  | fuel + 1, around, p, s =>
    match p with
    | nothing => some s
    | never => none
    | token l k => s.skip.take l k
    | glued l k => s.take l k
    | both p q =>
      match run rules fuel around p s with
      | none => none
      | some s' => run rules fuel around q s'
    | either p q =>
      match run rules fuel around p s with
      | none => run rules fuel around q s
      | some s' => some s'
    | many p =>
      match run rules fuel around p s with
      | none => some s
      | some s' => if s'.offset = s.offset then some s' else run rules fuel around (many p) s'
    | node k p => (run rules fuel around p s.skip.inner).map (s.skip.close k)
    | group k p => (run rules fuel around p s.skip.inner).map (s.skip.closeGroup k)
    | part r p => (run rules fuel around p s.skip.inner).map (s.skip.closePart r)
    | rule r => run rules fuel around (rules r) s
    | ahead p => (run rules fuel around p s).map fun _ => s
    | absent p =>
      match run rules fuel around p s with
      | none => some s
      | some _ => none
    | ending e => (statementEnd? e fuel ⟨[], s.offset, s.rest⟩).map s.after
    | inside around' p => run rules fuel around' p s
    | amid around' => if around = around' then some s else none
    | blanks => some s.skip
    | finish => if s.rest.isEmpty then some s else none

/-- Reading nothing always succeeds. -/
@[simp] theorem run_nothing (rules : ρ → Pattern ρ) (fuel : Nat) (around : Surroundings)
    (s : Reading) : run rules (fuel + 1) around nothing s = some s := rfl

/-- The pattern that fails never succeeds. -/
@[simp] theorem run_never (rules : ρ → Pattern ρ) (fuel : Nat) (around : Surroundings)
    (s : Reading) : run rules fuel around never s = none := by
  cases fuel <;> rfl

/-- Two patterns in a row read one after the other. -/
theorem run_both (rules : ρ → Pattern ρ) (fuel : Nat) (around : Surroundings) (p q : Pattern ρ)
    (s : Reading) : run rules (fuel + 1) around (both p q) s =
      (run rules fuel around p s).bind (run rules fuel around q) := by
  change (match run rules fuel around p s with
    | none => none
    | some s' => run rules fuel around q s') = _
  cases run rules fuel around p s <;> rfl

/-- A choice takes the first pattern that succeeds. -/
theorem run_either (rules : ρ → Pattern ρ) (fuel : Nat) (around : Surroundings) (p q : Pattern ρ)
    (s : Reading) : run rules (fuel + 1) around (either p q) s =
      (run rules fuel around p s).orElse fun _ => run rules fuel around q s := by
  change (match run rules fuel around p s with
    | none => run rules fuel around q s
    | some s' => some s') = _
  cases run rules fuel around p s <;> rfl

/-- A repetition goes on where its pattern has read something. -/
theorem run_many (rules : ρ → Pattern ρ) (fuel : Nat) (around : Surroundings) (p : Pattern ρ)
    (s : Reading) : run rules (fuel + 1) around (many p) s =
      match run rules fuel around p s with
      | none => some s
      | some s' => if s'.offset = s.offset then some s' else run rules fuel around (many p) s' := rfl

/-- A node is made of what its pattern builds. -/
theorem run_node (rules : ρ → Pattern ρ) (fuel : Nat) (around : Surroundings) (k : Kind)
    (p : Pattern ρ) (s : Reading) : run rules (fuel + 1) around (node k p) s =
      (run rules fuel around p s.skip.inner).map (s.skip.close k) := rfl

/-- A part gives a role to what its pattern builds. -/
theorem run_part (rules : ρ → Pattern ρ) (fuel : Nat) (around : Surroundings) (r : Role)
    (p : Pattern ρ) (s : Reading) : run rules (fuel + 1) around (part r p) s =
      (run rules fuel around p s.skip.inner).map (s.skip.closePart r) := rfl

/-- Looking ahead reads nothing. -/
theorem run_ahead (rules : ρ → Pattern ρ) (fuel : Nat) (around : Surroundings) (p : Pattern ρ)
    (s : Reading) : run rules (fuel + 1) around (ahead p) s =
      (run rules fuel around p s).map fun _ => s := rfl

/-- What is absent is not read, and nothing else is. -/
theorem run_absent (rules : ρ → Pattern ρ) (fuel : Nat) (around : Surroundings) (p : Pattern ρ)
    (s : Reading) : run rules (fuel + 1) around (absent p) s =
      if (run rules fuel around p s).isNone then some s else none := by
  change (match run rules fuel around p s with
    | none => some s
    | some _ => none) = _
  cases run rules fuel around p s <;> rfl

/-- Patterns in a row. -/
def all : List (Pattern ρ) → Pattern ρ
  | [] => nothing
  | [p] => p
  | p :: ps => both p (all ps)

/-- A choice of patterns. -/
def any : List (Pattern ρ) → Pattern ρ
  | [] => never
  | [p] => p
  | p :: ps => either p (any ps)

/-- A pattern that may be left out. -/
def opt (p : Pattern ρ) : Pattern ρ :=
  either p nothing

/-- Patterns in a row that may be left out together. -/
def opts (ps : List (Pattern ρ)) : Pattern ρ :=
  opt (all ps)

/-- A word or a mark that carries no meaning of its own. -/
def sign (s : String) : Pattern ρ :=
  let text := Bytes.ofString s
  token (if text.head?.any isLetter then .word text else .exactly text) .symbol

instance : Coe String (Pattern ρ) := ⟨sign⟩

/-- A mark that none of the given ones is. -/
def signBut (s : String) (others : List String) : Pattern ρ :=
  both (absent (any (others.map sign))) (sign s)

/-- A word or a mark with a kind of its own. -/
def signAs (k : Kind) (s : String) : Pattern ρ :=
  let text := Bytes.ofString s
  token (if text.head?.any isLetter then .word text else .exactly text) k

/-- One or more, with a mark between each two. -/
def listed (separator : String) (p : Pattern ρ) : Pattern ρ :=
  both p (many (both (sign separator) p))

/-- Any number with a mark between each two, each of which may be left out, as may the last mark. -/
def sparse (separator : String) (p : Pattern ρ) : Pattern ρ :=
  both (opt p) (many (both (sign separator) (opt p)))

/-- A pattern between brackets. -/
def enclosed (opening closing : String) (p : Pattern ρ) : Pattern ρ :=
  all [sign opening, inside .brackets (both p (sign closing))]

/-- The end of a statement, with or without a semicolon. -/
def semicolon (e : Ending) : Pattern ρ :=
  either (ending e) (signAs .semicolon ";")

/-- Succeeds where the statement cannot end, so that what follows goes on with it. -/
def goesOn (e : Ending) : Pattern ρ :=
  either (absent (amid .statement)) (absent (ending e))

end Pattern
end Codemod.Syntax
