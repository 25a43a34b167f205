import Codemod.Path

/-!
# File patterns

A pattern selects relative paths. `*` stands for any run of characters inside a segment, `?` for one
character inside a segment, `**/` for any number of whole segments and `**` for any characters at
all; every other character stands for itself. A pattern is first brought to a normal form; there,
when it is used as the name of a directory, a last segment without wildcards and without a dot is
continued by `/**/*`.

Main statements:

* `matches_literal` says that a pattern without wildcards matches itself and nothing else;
* `Glob.selects_below` says that a pattern used for whole trees also selects what lies below a
  selected path.
-/

namespace Codemod

namespace Glob

/-- One element of a pattern. -/
inductive Element where
  /-- The character itself. -/
  | literal (c : Char)
  /-- Any run of characters inside a segment. -/
  | star
  /-- One character inside a segment. -/
  | one
  /-- Any run of characters on a line. -/
  | anything
  /-- Nothing, or a run of characters on a line that ends with a slash. -/
  | directories
  deriving DecidableEq, Repr

/-- The elements of a pattern, read from left to right. -/
def elementsOf : List Char → List Element
  | [] => []
  | '*' :: '*' :: '/' :: rest => .directories :: elementsOf rest
  | '*' :: '*' :: rest => .anything :: elementsOf rest
  | '*' :: rest => .star :: elementsOf rest
  | '?' :: rest => .one :: elementsOf rest
  | c :: rest => .literal c :: elementsOf rest

/-- Whether dropping a run of characters that satisfy `ok` leaves a text that satisfies `k`. -/
def afterRun (ok : Char → Bool) (k : List Char → Bool) : List Char → Bool
  | [] => k []
  | c :: rest => k (c :: rest) || (ok c && afterRun ok k rest)

/-- Whether dropping a run of characters that ends with a slash and breaks no line leaves a text
that satisfies `k`. -/
def afterSlash (k : List Char → Bool) : List Char → Bool
  | [] => false
  | c :: rest => (c == '/' && k rest) || (c != '\n' && afterSlash k rest)

/-- Whether a text is a match of the elements followed by a text that satisfies `rest`. -/
def matchesThen (rest : List Char → Bool) : List Element → List Char → Bool
  | [], cs => rest cs
  | .literal c :: es, cs =>
    match cs with
    | [] => false
    | d :: ds => c == d && matchesThen rest es ds
  | .one :: es, cs =>
    match cs with
    | [] => false
    | d :: ds => d != '/' && matchesThen rest es ds
  | .star :: es, cs => afterRun (· != '/') (matchesThen rest es) cs
  | .anything :: es, cs => afterRun (· != '\n') (matchesThen rest es) cs
  | .directories :: es, cs => matchesThen rest es cs || afterSlash (matchesThen rest es) cs

/-- What may follow the match of a pattern that selects whole trees: nothing, or a slash and any
text on the line. -/
def isBelow : List Char → Bool
  | [] => true
  | c :: rest => c == '/' && rest.all (· != '\n')

/-- Takes every leading `./` off, at most `fuel` of them. -/
def dropHere : Nat → List Char → List Char
  | 0, cs => cs
  | fuel + 1, cs =>
    match cs with
    | '.' :: '/' :: rest => dropHere fuel rest
    | _ => cs

/-- The normal form of a pattern: slashes for backslashes, no leading `./`, no trailing slash; the
pattern `.` becomes empty. -/
def normalForm (pattern : String) : List Char :=
  let cs := pattern.toList.map fun c => if c == '\\' then '/' else c
  let cs := dropHere cs.length cs
  let cs := (cs.reverse.dropWhile (· == '/')).reverse
  if cs == ['.'] then [] else cs

/-- The last segment of a pattern. -/
def lastSegment (cs : List Char) : List Char :=
  (cs.reverse.takeWhile (· != '/')).reverse

/-- Whether a pattern names a directory: its last segment has no wildcard and no dot. -/
def namesDirectory (cs : List Char) : Bool :=
  (lastSegment cs).all fun c => c != '*' && c != '?' && c != '.'

/-- The pattern for all that lies in the directory a pattern names. -/
def withContents (cs : List Char) : List Char :=
  if cs.isEmpty then "**/*".toList else cs ++ "/**/*".toList

end Glob

/-- A pattern ready for matching. -/
structure Glob where
  elements : List Glob.Element
  /-- Whether what lies below a matched path is selected too. -/
  wholeTree : Bool
  deriving DecidableEq, Repr

namespace Glob

/-- Reads a pattern. With `directory`, a pattern that names a directory stands for its contents. -/
def ofString (pattern : String) (directory wholeTree : Bool) : Glob :=
  let cs := normalForm pattern
  ⟨elementsOf (if directory && namesDirectory cs then withContents cs else cs), wholeTree⟩

/-- Whether a pattern selects a relative path. -/
def selects (g : Glob) (path : String) : Bool :=
  matchesThen (if g.wholeTree then isBelow else List.isEmpty) g.elements path.toList

/-- A pattern without wildcards matches itself and nothing else. -/
theorem matches_literal (cs ds : List Char) :
    matchesThen List.isEmpty (cs.map .literal) ds = decide (ds = cs) := by
  induction cs generalizing ds with
  | nil => cases ds <;> simp [matchesThen]
  | cons c cs ih =>
    cases ds with
    | nil => simp [matchesThen]
    | cons d ds =>
      simp only [List.map_cons, matchesThen, ih]
      by_cases h : c = d
      · simp [h]
      · simp [h, Ne.symm h]

theorem afterRun_mono {ok : Char → Bool} {k k' : List Char → Bool} {tail : List Char}
    (h : ∀ cs, k cs = true → k' (cs ++ tail) = true) {cs : List Char}
    (hcs : afterRun ok k cs = true) : afterRun ok k' (cs ++ tail) = true := by
  induction cs with
  | nil =>
    have := h [] hcs
    cases tail with
    | nil => simpa [afterRun] using this
    | cons c tail => simp at this; simp [afterRun, this]
  | cons c rest ih =>
    simp only [afterRun, Bool.or_eq_true, Bool.and_eq_true] at hcs
    rcases hcs with hk | ⟨hok, hrest⟩
    · have := h _ hk
      simp only [List.cons_append] at this
      simp [afterRun, this]
    · simp [afterRun, hok, ih hrest]

theorem afterSlash_mono {k k' : List Char → Bool} {tail : List Char}
    (h : ∀ cs, k cs = true → k' (cs ++ tail) = true) {cs : List Char}
    (hcs : afterSlash k cs = true) : afterSlash k' (cs ++ tail) = true := by
  induction cs with
  | nil => simp [afterSlash] at hcs
  | cons c rest ih =>
    simp only [afterSlash, Bool.or_eq_true, Bool.and_eq_true] at hcs
    rcases hcs with ⟨hc, hk⟩ | ⟨hc, hrest⟩
    · simp [afterSlash, hc, h _ hk]
    · simp [afterSlash, hc, ih hrest]

theorem matchesThen_mono {rest rest' : List Char → Bool} {tail : List Char}
    (h : ∀ cs, rest cs = true → rest' (cs ++ tail) = true) {es : List Element} {cs : List Char}
    (hcs : matchesThen rest es cs = true) : matchesThen rest' es (cs ++ tail) = true := by
  induction es generalizing cs with
  | nil => exact h cs hcs
  | cons e es ih =>
    cases e with
    | literal c =>
      cases cs with
      | nil => simp [matchesThen] at hcs
      | cons d ds =>
        simp only [matchesThen, Bool.and_eq_true] at hcs
        simp [matchesThen, hcs.1, ih hcs.2]
    | one =>
      cases cs with
      | nil => simp [matchesThen] at hcs
      | cons d ds =>
        simp only [matchesThen, Bool.and_eq_true] at hcs
        simp [matchesThen, hcs.1, ih hcs.2]
    | star => exact afterRun_mono (fun _ h => ih h) hcs
    | anything => exact afterRun_mono (fun _ h => ih h) hcs
    | directories =>
      simp only [matchesThen, Bool.or_eq_true] at hcs ⊢
      exact hcs.imp (fun h => ih h) (afterSlash_mono fun _ h => ih h)

/-- A pattern used for whole trees also selects what lies below a selected path. -/
theorem selects_below {g : Glob} {path below : String} (hg : g.wholeTree = true)
    (h : g.selects path = true) (hb : below.toList.all (· != '\n') = true) :
    g.selects (path ++ "/" ++ below) = true := by
  simp only [selects, hg, if_true] at h ⊢
  have step : ∀ cs, isBelow cs = true → isBelow (cs ++ ('/' :: below.toList)) = true := by
    intro cs hcs
    cases cs with
    | nil => simpa [isBelow] using hb
    | cons c cs =>
      simp only [isBelow, Bool.and_eq_true, List.all_eq_true] at hcs
      have hb' := List.all_eq_true.mp hb
      simp only [isBelow, List.cons_append, Bool.and_eq_true, List.all_eq_true]
      refine ⟨hcs.1, ?_⟩
      intro d hd
      rcases List.mem_append.mp hd with hd | hd
      · exact hcs.2 d hd
      · rcases List.mem_cons.mp hd with rfl | hd
        · decide
        · exact hb' d hd
  have := matchesThen_mono step h
  simpa [String.toList_append] using this

end Glob
end Codemod
