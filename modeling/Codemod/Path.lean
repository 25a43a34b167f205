import Codemod.Text.Affix

/-!
# Paths

A path is an anchor and a list of segments. Reading a text as a path drops empty segments and the
segment `.`, and keeps `..`; `Path.normalize` removes `..` lexically, and `Path.absolute` gives the
location that a path names from the root. There are no links, so lexical removal is exact.

Main statements:

* `Path.join_of_isAbsolute` says that an absolute path replaces what it is joined to;
* `Path.dotdot_not_mem_normalize` says that a normalised absolute path has no `..`;
* `Path.normalize_of_clean` says that normalising changes nothing where there is no `..`.
-/

namespace Codemod

/-- What a path starts from: the working directory, the root, or the root written with exactly two
slashes, which is kept apart. -/
inductive Anchor where
  | relative
  | root
  | doubleRoot
  deriving DecidableEq, Repr

/-- The text of an anchor. -/
def Anchor.text : Anchor → String
  | .relative => ""
  | .root => "/"
  | .doubleRoot => "//"

/-- A path. -/
structure Path where
  anchor : Anchor
  segments : List String
  deriving DecidableEq, Repr

namespace Path

/-- Splits a text at each slash; there is one piece more than there are slashes. -/
def splitSlash (cs : List Char) : List (List Char) :=
  cs.foldr (fun c acc =>
    if c == '/' then [] :: acc
    else match acc with
      | [] => [[c]]
      | piece :: more => (c :: piece) :: more) [[]]

/-- The anchor of a path text. -/
def anchorOf : List Char → Anchor
  | '/' :: '/' :: '/' :: _ => .root
  | '/' :: '/' :: _ => .doubleRoot
  | '/' :: _ => .root
  | _ => .relative

/-- The segments of a path text, without the empty ones and without `.`. -/
def segmentsOf (cs : List Char) : List String :=
  ((splitSlash cs).map String.ofList).filter fun s => s != "" && s != "."

/-- Reads a text as a path. -/
def ofString (s : String) : Path :=
  ⟨anchorOf s.toList, segmentsOf s.toList⟩

/-- The text of a path; the empty relative path is written `.`. -/
def toString (p : Path) : String :=
  match p.anchor, p.segments with
  | .relative, [] => "."
  | a, ss => a.text ++ "/".intercalate ss

instance : ToString Path := ⟨toString⟩

/-- The root directory. -/
def root : Path := ⟨.root, []⟩

/-- A path that starts from the root. -/
def isAbsolute (p : Path) : Bool :=
  p.anchor != .relative

/-- The path that `q` names when it is read from `p`. -/
def join (p q : Path) : Path :=
  if q.isAbsolute then q else ⟨p.anchor, p.segments ++ q.segments⟩

/-- The path that a text names when it is read from `p`. -/
def joinText (p : Path) (s : String) : Path :=
  p.join (ofString s)

/-- The path with one more segment. -/
def child (p : Path) (name : String) : Path :=
  ⟨p.anchor, p.segments ++ [name]⟩

/-- The path without its last segment. -/
def parent (p : Path) : Path :=
  ⟨p.anchor, p.segments.dropLast⟩

/-- The last segment; a path without segments has the empty name. -/
def name (p : Path) : String :=
  p.segments.getLast?.getD ""

/-- The same place with another last segment. -/
def replaceName (p : Path) (name : String) : Path :=
  p.parent.child name

/-- A name split before its last dot, where that dot is neither its first nor its last character. -/
def splitName (cs : List Char) : List Char × List Char :=
  let after := (cs.reverse.takeWhile (· != '.')).reverse
  let before := cs.take (cs.length - after.length - 1)
  if after.length < cs.length && after != [] && before != [] then (before, '.' :: after) else (cs, [])

/-- The extension of the last segment, dot included; empty when there is none. -/
def extension (p : Path) : String :=
  String.ofList (splitName p.name.toList).2

/-- The last segment without its extension. -/
def stem (p : Path) : String :=
  String.ofList (splitName p.name.toList).1

/-- One step of lexical normalisation: a `..` takes away the segment before it, if there is one
that is no `..` itself; at the root it vanishes, in a relative path it stays. -/
def pushSegment (absolute : Bool) (kept : List String) (s : String) : List String :=
  if s != ".." then s :: kept
  else match kept with
    | [] => if absolute then [] else [s]
    | last :: more => if last == ".." then s :: kept else more

/-- Removes `..` lexically. -/
def normalize (p : Path) : Path :=
  ⟨p.anchor, (p.segments.foldl (pushSegment p.isAbsolute) []).reverse⟩

/-- The place a path names when the working directory is `base`, written from the root. -/
def absolute (base p : Path) : Path :=
  let q := (base.join p).normalize
  ⟨.root, q.segments⟩

/-- The segments of `p` below `base`, when `p` lies at or below it. -/
def below? (base p : Path) : Option (List String) :=
  if base.anchor = p.anchor && base.segments.isPrefixOf p.segments then
    some (p.segments.drop base.segments.length)
  else none

/-- The segments joined by slashes; none of them is written `.`. -/
def relativeText (ss : List String) : String :=
  if ss.isEmpty then "." else "/".intercalate ss

/-- How to reach one list of segments from another: up to the common part, then down. -/
def climb : List String → List String → List String
  | a :: base, b :: target =>
    if a = b then climb base target else List.replicate (base.length + 1) ".." ++ b :: target
  | base, target => List.replicate base.length ".." ++ target

/-- The text that leads from `base` to `p`, both read from the root. -/
def relativeTo (base p : Path) : String :=
  relativeText (climb base.normalize.segments p.normalize.segments)

/-- Whether a text comes before another, compared by code points. -/
def textBefore (s t : String) : Bool :=
  List.lex (s.toList.map Char.toNat) (t.toList.map Char.toNat) fun m n => decide (m < n)

/-- Whether a path comes before another, compared by anchor and segments. -/
def before (p q : Path) : Bool :=
  let parts (r : Path) : List String := if r.isAbsolute then r.anchor.text :: r.segments else r.segments
  List.lex (parts p) (parts q) textBefore

/-- The order of paths. -/
def le (p q : Path) : Bool :=
  !q.before p

/-- An absolute path replaces what it is joined to. -/
theorem join_of_isAbsolute {p q : Path} (h : q.isAbsolute = true) : p.join q = q := by
  simp [join, h]

/-- Normalising keeps the anchor. -/
@[simp] theorem anchor_normalize (p : Path) : p.normalize.anchor = p.anchor := rfl

theorem foldl_pushSegment_of_clean {a : Bool} {ss kept : List String} (h : ".." ∉ ss) :
    ss.foldl (pushSegment a) kept = ss.reverse ++ kept := by
  induction ss generalizing kept with
  | nil => rfl
  | cons s ss ih =>
    have hs : s ≠ ".." := fun e => h (by simp [e])
    have hss : ".." ∉ ss := fun m => h (by simp [m])
    simp [pushSegment, hs, ih hss]

/-- Where there is no `..`, normalising changes nothing. -/
theorem normalize_of_clean {p : Path} (h : ".." ∉ p.segments) : p.normalize = p := by
  cases p with
  | mk anchor segments =>
    simp only [normalize, foldl_pushSegment_of_clean h, List.append_nil, List.reverse_reverse]

theorem dotdot_not_mem_foldl {ss kept : List String} (h : ".." ∉ kept) :
    ".." ∉ ss.foldl (pushSegment true) kept := by
  induction ss generalizing kept with
  | nil => exact h
  | cons s ss ih =>
    apply ih
    by_cases hs : s = ".."
    · subst hs
      cases kept with
      | nil => simp [pushSegment]
      | cons last more =>
        have hl : last ≠ ".." := fun e => h (by simp [e])
        have hm : ".." ∉ more := fun m => h (by simp [m])
        simpa [pushSegment, hl] using hm
    · have hs' : ".." ≠ s := fun e => hs e.symm
      simpa [pushSegment, hs, hs'] using h

/-- A normalised absolute path has no `..`. -/
theorem dotdot_not_mem_normalize {p : Path} (h : p.isAbsolute = true) :
    ".." ∉ p.normalize.segments := by
  simp only [normalize, h, List.mem_reverse]
  exact dotdot_not_mem_foldl (by simp)

end Path
end Codemod
