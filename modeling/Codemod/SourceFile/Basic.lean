import Codemod.Edit
import Codemod.Fault
import Codemod.Syntax.Parse

/-!
# Source files

A source file is a text in memory, with the path that it was read from. Its statements are the nodes at
the top level that are no comments. The comments directly above a statement belong to it, unless they
share a line with the end of the statement before.

Main statements:

* `SourceFile.leadingComments_comment` says that only comments lead a statement;
* `SourceFile.edited_nil` says that an empty batch of edits changes nothing.
-/

namespace Codemod

open Syntax

/-- A source file in memory. -/
structure SourceFile where
  path : Path
  dialect : Dialect
  text : Bytes
  /-- Whether the text differs from what was last read or written. -/
  dirty : Bool
  deriving DecidableEq, Repr

namespace SourceFile

/-- The source file of a text at a path. -/
def ofText (p : Path) (text : Bytes) : Except Fault SourceFile :=
  match Dialect.ofPath? p with
  | some d => .ok ⟨p, d, text, false⟩
  | none => .error (.unsupportedExtension p.extension)

/-- The tree of a source file. -/
def tree (f : SourceFile) : Tree :=
  parse f.dialect f.text

/-- A part of the text, read as characters. -/
def decode (f : SourceFile) (start stop : Nat) : Except Fault String :=
  match Utf8.decode (f.text.slice start stop) with
  | .ok s => .ok s
  | .error e => .error (.undecodable e)

/-- The text of a node. -/
def textOf (f : SourceFile) (t : Tree) : Except Fault String :=
  f.decode t.start t.stop

/-- The statements at the top level, in order. -/
def statements (f : SourceFile) : List Tree :=
  f.tree.named.filter fun t => !t.is .comment

/-- The nodes before one at the top level, the nearest first. -/
def nodesBefore (f : SourceFile) (t : Tree) : List Tree :=
  (f.tree.children.takeWhile fun c => c.start < t.start).reverse

/-- The row on which an offset lies. -/
def row (f : SourceFile) (offset : Nat) : Nat :=
  f.text.row offset

/-- The comments directly above a statement, in order. The first of an unbroken run of comments is left
out when it begins on the line on which the node before the run ends. -/
def leadingComments (f : SourceFile) (t : Tree) : List Tree :=
  let before := f.nodesBefore t
  let run := before.takeWhile (·.is .comment)
  match run.getLast?, (before.dropWhile (·.is .comment)).head? with
  | some first, some previous =>
    if f.row first.start = f.row previous.stop then run.dropLast.reverse else run.reverse
  | _, _ => run.reverse

theorem mem_takeWhile {α : Type} {p : α → Bool} {l : List α} {a : α} (h : a ∈ l.takeWhile p) :
    p a = true := by
  induction l with
  | nil => simp at h
  | cons b rest ih =>
    by_cases hb : p b = true
    · rw [List.takeWhile_cons_of_pos hb, List.mem_cons] at h
      rcases h with rfl | h
      · exact hb
      · exact ih h
    · rw [List.takeWhile_cons_of_neg hb] at h
      cases h

/-- Only comments lead a statement. -/
theorem leadingComments_comment {f : SourceFile} {t c : Tree} (h : c ∈ f.leadingComments t) :
    c.is .comment = true := by
  have key : ∀ {l : List Tree}, c ∈ l.takeWhile (·.is .comment) → c.is .comment = true :=
    fun h => mem_takeWhile (p := fun t : Tree => t.is .comment) h
  unfold leadingComments at h
  dsimp only at h
  split at h
  case h_1 =>
    split at h
    · exact key ((List.dropLast_sublist _).mem (List.mem_reverse.mp h))
    · exact key (List.mem_reverse.mp h)
  case h_2 => exact key (List.mem_reverse.mp h)

/-! ### Edits -/

/-- Replaces a node by a text. -/
def replaceEdit (t : Tree) (text : String) : Edit :=
  ⟨t.start, t.stop, text⟩

/-- Replaces a statement by a text. The comments that lead it, where they are to be kept, are written
again above the text. -/
def replaceStatement (f : SourceFile) (t : Tree) (text : String) (keep : Bool) : Except Fault Edit :=
  match if keep then f.leadingComments t else [] with
  | [] => .ok (replaceEdit t text)
  | c :: _ => do
    let above ← f.decode c.start t.start
    return ⟨c.start, t.stop, above ++ text⟩

/-- Where the line of an offset begins, if only blanks stand before the offset on it; else the
offset. -/
def widenBack (text : Bytes) (start : Nat) : Nat :=
  let line := ((text.take start).reverse.takeWhile (· != Bytes.newline))
  if line.all Bytes.isBlank then start - line.length else start

/-- Where the line after that of an offset begins, if only blanks stand behind the offset on its line;
else the offset. -/
def widenOn (text : Bytes) (stop : Nat) : Nat :=
  let line := (text.drop stop).takeWhile (· != Bytes.newline)
  if line.all Bytes.isBlank then min (stop + line.length + 1) text.length else stop

/-- Removes a statement with the comments that lead it, and the lines that are left blank by that. -/
def removeStatement (f : SourceFile) (t : Tree) : Edit :=
  let start := match f.leadingComments t with
    | [] => t.start
    | c :: _ => c.start
  ⟨widenBack f.text start, widenOn f.text t.stop, ""⟩

/-- The file after a batch of edits. -/
def edited (f : SourceFile) (edits : List Edit) : Except Fault SourceFile :=
  if edits.isEmpty then .ok f
  else match Edit.applyAll edits f.text with
    | .ok text => .ok { f with text := text, dirty := true }
    | .error start => .error (.overlappingEdits f.path start)

/-- The file after a batch of edits with any texts. -/
def applied (f : SourceFile) (edits : List (Edit CodePoints)) : Except Edit.Refusal SourceFile :=
  if edits.isEmpty then .ok f
  else match Edit.applyTexts edits f.text with
    | .ok text => .ok { f with text := text, dirty := true }
    | .error x => .error x

/-- An empty batch of edits changes nothing. -/
@[simp] theorem edited_nil (f : SourceFile) : f.edited [] = .ok f := rfl

end SourceFile
end Codemod
