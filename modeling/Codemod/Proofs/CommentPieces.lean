import Codemod.Json.Comments
import Mathlib.Data.List.Infix

/-!
# Literals, comments and single characters

A text with comments falls into pieces from left to right: string literals, in which a backslash takes the next
character with it, comments up to the line end, comments up to the mark that ends them, and single characters. Only
the last literal and the last comment can be left unclosed. A slash stands alone only where no comment begins, and so
no slash stands directly before a comment. What is left without the comments therefore falls into the pieces that are
left, and nothing new begins where a comment was taken out.

Main statements:

* `splits_pieces` and `pieces_written` say that each text falls into pieces, and in one way;
* `strip_written` says that taking the comments out leaves the other pieces as they are;
* `Splits.withoutComments` says that the pieces that are left are those of their text;
* `comments_taken_out` puts this together.
-/

namespace Codemod.Json

/-! ### Pieces -/

/-- What may stand between the quotes of a literal: characters that are no quote and no backslash, and pairs of a
backslash and any character. -/
inductive Enclosed : List Char → Prop
  | nil : Enclosed []
  | plain {c : Char} {cs : List Char} (hquote : c ≠ '"') (hback : c ≠ '\\') (h : Enclosed cs) : Enclosed (c :: cs)
  | pair (c : Char) {cs : List Char} (h : Enclosed cs) : Enclosed ('\\' :: c :: cs)

/-- What may follow the quote of a literal that is not closed: a backslash can stand at the very end. -/
def Unclosed (cs : List Char) : Prop :=
  Enclosed cs ∨ ∃ most, Enclosed most ∧ cs = most ++ ['\\']

/-- The mark that ends a comment over several lines. -/
def commentEnd : List Char :=
  ['*', '/']

/-- A piece of a text, without the marks that open and close it. -/
inductive Piece where
  | literal (body : List Char)
  /-- A literal that the text ends in. -/
  | unclosedLiteral (body : List Char)
  | lineComment (body : List Char)
  | blockComment (body : List Char)
  /-- A comment that the text ends in. -/
  | unclosedComment (body : List Char)
  | char (c : Char)
  deriving DecidableEq, Repr

namespace Piece

/-- A piece as it is written. -/
def text : Piece → List Char
  | literal body => '"' :: (body ++ ['"'])
  | unclosedLiteral body => '"' :: body
  | lineComment body => '/' :: '/' :: body
  | blockComment body => '/' :: '*' :: (body ++ commentEnd)
  | unclosedComment body => '/' :: '*' :: body
  | char c => [c]

/-- Whether a piece is a comment. -/
def isComment : Piece → Bool
  | lineComment _ | blockComment _ | unclosedComment _ => true
  | literal _ | unclosedLiteral _ | char _ => false

/-- Whether a piece can stand before the given rest of a text. A comment goes up to the first mark that ends it, and
a single character begins neither a literal nor a comment. -/
def Fits : Piece → List Char → Prop
  | literal body, _ => Enclosed body
  | unclosedLiteral body, rest => Unclosed body ∧ rest = []
  | lineComment body, rest => '\n' ∉ body ∧ ∀ c ∈ rest.head?, c = '\n'
  | blockComment body, _ => ¬ commentEnd <:+: body ++ ['*']
  | unclosedComment body, rest => ¬ commentEnd <:+: body ∧ rest = []
  | char c, rest => c ≠ '"' ∧ (c = '/' → ∀ d ∈ rest.head?, d ≠ '/' ∧ d ≠ '*')

end Piece

/-- The text of pieces. -/
def written (ps : List Piece) : List Char :=
  ps.flatMap Piece.text

@[simp] theorem written_nil : written [] = [] := rfl

@[simp] theorem written_cons (p : Piece) (ps : List Piece) : written (p :: ps) = p.text ++ written ps := rfl

@[simp] theorem written_append (ps qs : List Piece) : written (ps ++ qs) = written ps ++ written qs :=
  List.flatMap_append ..

/-- Whether a text falls into the given pieces: each of them can stand before what follows it. -/
def Splits : List Piece → Prop
  | [] => True
  | p :: ps => p.Fits (written ps) ∧ Splits ps

/-- Pieces without the comments among them. -/
def withoutComments (ps : List Piece) : List Piece :=
  ps.filter fun p => !p.isComment

/-- The pieces of a text from within a region; `seen` holds what was read of the piece, last first. -/
def piecesFrom : Region → List Char → List Char → List Piece
  | .code, _, [] => []
  | .string, seen, [] => [.unclosedLiteral seen.reverse]
  | .lineComment, seen, [] => [.lineComment seen.reverse]
  | .blockComment, seen, [] => [.unclosedComment seen.reverse]
  | .code, _, '/' :: '/' :: rest => piecesFrom .lineComment [] rest
  | .code, _, '/' :: '*' :: rest => piecesFrom .blockComment [] rest
  | .code, _, '"' :: rest => piecesFrom .string [] rest
  | .code, _, c :: rest => .char c :: piecesFrom .code [] rest
  | .string, seen, '\\' :: c :: rest => piecesFrom .string (c :: '\\' :: seen) rest
  | .string, seen, '"' :: rest => .literal seen.reverse :: piecesFrom .code [] rest
  | .string, seen, c :: rest => piecesFrom .string (c :: seen) rest
  | .lineComment, seen, '\n' :: rest => .lineComment seen.reverse :: .char '\n' :: piecesFrom .code [] rest
  | .lineComment, seen, c :: rest => piecesFrom .lineComment (c :: seen) rest
  | .blockComment, seen, '*' :: '/' :: rest => .blockComment seen.reverse :: piecesFrom .code [] rest
  | .blockComment, seen, c :: rest => piecesFrom .blockComment (c :: seen) rest

/-- The pieces of a text. -/
def pieces (cs : List Char) : List Piece :=
  piecesFrom .code [] cs

/-! ### Reading on within a region -/

section

variable {body : List Char} (seen tail : List Char)

theorem piecesFrom_enclosed (h : Enclosed body) :
    piecesFrom .string seen (body ++ tail) = piecesFrom .string (body.reverse ++ seen) tail := by
  induction h generalizing seen with
  | nil => rfl
  | plain _ hback _ ih => simp [piecesFrom, hback, ih]
  | pair c _ ih => simp [piecesFrom, ih]

theorem strip_enclosed (h : Enclosed body) : strip .string (body ++ tail) = body ++ strip .string tail := by
  induction h with
  | nil => rfl
  | plain _ hback _ ih => simp [strip, hback, ih]
  | pair c _ ih => simp [strip, ih]

theorem piecesFrom_line (h : '\n' ∉ body) :
    piecesFrom .lineComment seen (body ++ tail) = piecesFrom .lineComment (body.reverse ++ seen) tail := by
  induction body generalizing seen with
  | nil => rfl
  | cons c body ih =>
    obtain ⟨hc, hbody⟩ := not_or.mp (mt List.mem_cons.mpr h)
    simp [piecesFrom, Ne.symm hc, ih _ hbody]

theorem strip_line (h : '\n' ∉ body) : strip .lineComment (body ++ tail) = strip .lineComment tail := by
  induction body with
  | nil => rfl
  | cons c body ih =>
    obtain ⟨hc, hbody⟩ := not_or.mp (mt List.mem_cons.mpr h)
    simp [strip, Ne.symm hc, ih hbody]

/-- No comment ends at the first character of a text in which no end is found. -/
theorem not_commentEnd {c : Char} (h : ¬ commentEnd <:+: c :: (body ++ tail.take 1)) :
    ∀ rest, c = '*' → body ++ tail = '/' :: rest → False := by
  rintro rest rfl hrest
  apply h
  cases body with
  | nil =>
    simp only [List.nil_append] at hrest
    subst hrest
    exact ⟨[], [], rfl⟩
  | cons d body =>
    obtain ⟨rfl, -⟩ := List.cons.inj hrest
    exact ⟨[], body ++ tail.take 1, rfl⟩

theorem piecesFrom_block (h : ¬ commentEnd <:+: body ++ tail.take 1) :
    piecesFrom .blockComment seen (body ++ tail) = piecesFrom .blockComment (body.reverse ++ seen) tail := by
  induction body generalizing seen with
  | nil => rfl
  | cons c body ih =>
    have hrest := fun hinfix => h (List.infix_cons hinfix)
    rw [List.cons_append, piecesFrom, ih _ hrest]
    · simp
    · exact not_commentEnd tail h

theorem strip_block (h : ¬ commentEnd <:+: body ++ tail.take 1) :
    strip .blockComment (body ++ tail) = strip .blockComment tail := by
  induction body with
  | nil => rfl
  | cons c body ih =>
    have hrest := fun hinfix => h (List.infix_cons hinfix)
    rw [List.cons_append, strip, ih hrest]
    exact not_commentEnd tail h

end

/-! ### Each text falls into pieces, in one way -/

section

variable {cs : List Char} {p : Piece} {ps : List Piece}

/-- The pieces of a text that begins with a piece are that piece and those of the rest. -/
theorem pieces_append {rest : List Char} (h : p.Fits rest) : pieces (p.text ++ rest) = p :: pieces rest := by
  unfold pieces
  cases p with
  | literal body =>
    have hread := piecesFrom_enclosed [] ('"' :: rest) h
    simp [Piece.text, piecesFrom, hread]
  | unclosedLiteral body =>
    obtain ⟨hbody, rfl⟩ := h
    rcases hbody with hbody | ⟨most, hmost, rfl⟩
    · have hread := piecesFrom_enclosed [] [] hbody
      simp [Piece.text, piecesFrom] at hread ⊢
      exact hread
    · have hread := piecesFrom_enclosed [] ['\\'] hmost
      simp [Piece.text, piecesFrom] at hread ⊢
      exact hread
  | lineComment body =>
    obtain ⟨hbody, hend⟩ := h
    have hread := piecesFrom_line [] rest hbody
    cases rest with
    | nil => simpa [Piece.text, piecesFrom] using hread
    | cons c rest =>
      obtain rfl := hend c rfl
      simp [Piece.text, piecesFrom, hread]
  | blockComment body =>
    have hread := piecesFrom_block [] ('*' :: '/' :: rest) h
    simp [Piece.text, commentEnd, piecesFrom, hread]
  | unclosedComment body =>
    obtain ⟨hbody, rfl⟩ := h
    have hread := piecesFrom_block [] [] (by simpa using hbody)
    simp [Piece.text, piecesFrom] at hread ⊢
    exact hread
  | char c =>
    obtain ⟨hquote, hslash⟩ := h
    rw [Piece.text, List.singleton_append, piecesFrom]
    · rintro more rfl rfl
      exact (hslash rfl '/' rfl).1 rfl
    · rintro more rfl rfl
      exact (hslash rfl '*' rfl).2 rfl
    · exact hquote

/-- The pieces into which a text falls are its pieces. -/
theorem pieces_written (h : Splits ps) : pieces (written ps) = ps := by
  induction ps with
  | nil => rfl
  | cons p ps ih =>
    obtain ⟨hp, hps⟩ := h
    rw [written_cons, pieces_append hp, ih hps]

/-- Behind its quote a literal is closed somewhere, or goes on to the end. -/
theorem exists_enclosed : ∀ cs : List Char,
    (∃ body rest, cs = body ++ '"' :: rest ∧ Enclosed body) ∨ Unclosed cs
  | [] => .inr (.inl .nil)
  | c :: cs => by
    by_cases hquote : c = '"'
    · exact .inl ⟨[], cs, by rw [hquote]; rfl, .nil⟩
    by_cases hback : c = '\\'
    · subst hback
      cases cs with
      | nil => exact .inr (.inr ⟨[], .nil, rfl⟩)
      | cons d cs =>
        rcases exists_enclosed cs with ⟨body, rest, rfl, hbody⟩ | hopen | ⟨most, hmost, rfl⟩
        · exact .inl ⟨'\\' :: d :: body, rest, rfl, .pair d hbody⟩
        · exact .inr (.inl (.pair d hopen))
        · exact .inr (.inr ⟨'\\' :: d :: most, .pair d hmost, rfl⟩)
    rcases exists_enclosed cs with ⟨body, rest, rfl, hbody⟩ | hopen | ⟨most, hmost, rfl⟩
    · exact .inl ⟨c :: body, rest, rfl, .plain hquote hback hbody⟩
    · exact .inr (.inl (.plain hquote hback hopen))
    · exact .inr (.inr ⟨c :: most, .plain hquote hback hmost, rfl⟩)

/-- Behind its mark a comment over several lines ends somewhere, or goes on to the end. -/
theorem exists_commentEnd (cs : List Char) :
    (∃ body rest, cs = body ++ commentEnd ++ rest ∧ ¬ commentEnd <:+: body ++ ['*']) ∨ ¬ commentEnd <:+: cs := by
  induction cs with
  | nil => exact .inr (by simp [commentEnd])
  | cons c cs ih =>
    by_cases hends : ['*', '/'] <+: c :: cs
    · obtain ⟨rest, hrest⟩ := hends
      exact .inl ⟨[], rest, hrest.symm, by decide⟩
    rcases ih with ⟨body, rest, rfl, hbody⟩ | hopen
    · refine .inl ⟨c :: body, rest, rfl, fun hinfix => ?_⟩
      rcases List.infix_cons_iff.mp hinfix with hfirst | hlater
      · -- An end that begins with the first character would begin there in the text too.
        exact hends (hfirst.trans ⟨'/' :: rest, by simp [commentEnd]⟩)
      · exact hbody hlater
    · refine .inr fun hinfix => ?_
      rcases List.infix_cons_iff.mp hinfix with hfirst | hlater
      · exact hends hfirst
      · exact hopen hlater

/-- A text that is not empty begins with a piece. -/
theorem exists_piece (c : Char) (cs : List Char) :
    ∃ (p : Piece) (rest : List Char), c :: cs = p.text ++ rest ∧ p.Fits rest := by
  by_cases hquote : c = '"'
  · subst hquote
    rcases exists_enclosed cs with ⟨body, rest, rfl, hbody⟩ | hopen
    · exact ⟨.literal body, rest, by simp [Piece.text], hbody⟩
    · exact ⟨.unclosedLiteral cs, [], by simp [Piece.text], hopen, rfl⟩
  by_cases hline : c = '/' ∧ cs.head? = some '/'
  · obtain ⟨rfl, hhead⟩ := hline
    obtain ⟨cs, rfl⟩ := List.head?_eq_some_iff.mp hhead
    refine ⟨.lineComment (cs.takeWhile (· != '\n')), cs.dropWhile (· != '\n'), ?_, fun hmem => ?_, fun d hd => ?_⟩
    · simp [Piece.text]
    · simpa using List.all_eq_true.mp List.all_takeWhile _ hmem
    · have hstop := List.head?_dropWhile_not (· != '\n') cs
      rw [Option.mem_def.mp hd] at hstop
      simpa using hstop
  by_cases hblock : c = '/' ∧ cs.head? = some '*'
  · obtain ⟨rfl, hhead⟩ := hblock
    obtain ⟨cs, rfl⟩ := List.head?_eq_some_iff.mp hhead
    rcases exists_commentEnd cs with ⟨body, rest, rfl, hbody⟩ | hopen
    · exact ⟨.blockComment body, rest, by simp [Piece.text], hbody⟩
    · exact ⟨.unclosedComment cs, [], by simp [Piece.text], hopen, rfl⟩
  refine ⟨.char c, cs, rfl, hquote, fun hslash d hd => ⟨?_, ?_⟩⟩
  · rintro rfl
    exact hline ⟨hslash, hd⟩
  · rintro rfl
    exact hblock ⟨hslash, hd⟩

theorem Piece.text_ne_nil (p : Piece) : p.text ≠ [] := by
  cases p <;> simp [Piece.text]

theorem exists_splits (cs : List Char) : ∃ ps, Splits ps ∧ written ps = cs := by
  -- A piece takes at least one character, but may take any number of them.
  induction hn : cs.length using Nat.strong_induction_on generalizing cs with
  | _ n ih =>
    cases cs with
    | nil => exact ⟨[], trivial, rfl⟩
    | cons c cs =>
      obtain ⟨p, rest, hcs, hp⟩ := exists_piece c cs
      have hshorter : rest.length < n := by
        have hpos := List.length_pos_iff.mpr p.text_ne_nil
        rw [← hn, hcs, List.length_append]
        omega
      obtain ⟨ps, hps, rfl⟩ := ih rest.length hshorter rest rfl
      exact ⟨p :: ps, ⟨hp, hps⟩, hcs.symm⟩

/-- The pieces of a text are pieces into which it falls. -/
theorem splits_pieces (cs : List Char) : Splits (pieces cs) ∧ written (pieces cs) = cs := by
  obtain ⟨ps, hps, rfl⟩ := exists_splits cs
  rw [pieces_written hps]
  exact ⟨hps, rfl⟩

end

/-! ### What is left without the comments -/

section

variable {p : Piece} {ps : List Piece}

theorem strip_append {rest : List Char} (h : p.Fits rest) :
    strip .code (p.text ++ rest) = (if p.isComment then [] else p.text) ++ strip .code rest := by
  cases p with
  | literal body =>
    have hread := strip_enclosed ('"' :: rest) h
    simp [Piece.text, Piece.isComment, strip, hread]
  | unclosedLiteral body =>
    obtain ⟨hbody, rfl⟩ := h
    rcases hbody with hbody | ⟨most, hmost, rfl⟩
    · have hread := strip_enclosed [] hbody
      simp [Piece.text, Piece.isComment, strip] at hread ⊢
      exact hread
    · have hread := strip_enclosed ['\\'] hmost
      simp [Piece.text, Piece.isComment, strip] at hread ⊢
      exact hread
  | lineComment body =>
    obtain ⟨hbody, hend⟩ := h
    have hread := strip_line rest hbody
    cases rest with
    | nil => simpa [Piece.text, Piece.isComment, strip] using hread
    | cons c rest =>
      obtain rfl := hend c rfl
      simp [Piece.text, Piece.isComment, strip, hread]
  | blockComment body =>
    have hread := strip_block ('*' :: '/' :: rest) h
    simp [Piece.text, Piece.isComment, commentEnd, strip, hread]
  | unclosedComment body =>
    obtain ⟨hbody, rfl⟩ := h
    have hread := strip_block [] (by simpa using hbody)
    simp [Piece.text, Piece.isComment, strip] at hread ⊢
    exact hread
  | char c =>
    obtain ⟨hquote, hslash⟩ := h
    rw [Piece.text, List.singleton_append, strip]
    · rfl
    · rintro more rfl rfl
      exact (hslash rfl '/' rfl).1 rfl
    · rintro more rfl rfl
      exact (hslash rfl '*' rfl).2 rfl
    · exact hquote

/-- Taking the comments out leaves the other pieces as they are. -/
theorem strip_written (h : Splits ps) : strip .code (written ps) = written (withoutComments ps) := by
  induction ps with
  | nil => rfl
  | cons p ps ih =>
    obtain ⟨hp, hps⟩ := h
    rw [written_cons, strip_append hp, ih hps]
    cases hc : p.isComment <;> simp [withoutComments, hc]

/-- Whether a text may stand in the place of another one behind a piece: it is empty if that is, and a mark of a
comment is new at its beginning only where a comment could begin before. -/
structure Replaces (rest' rest : List Char) : Prop where
  nil : rest = [] → rest' = []
  head : ∀ c ∈ rest'.head?, c = '/' ∨ c = '*' → c ∈ rest.head? ∨ rest.head? = some '/'

/-- A piece other than a comment still fits before a text that may stand in the place of the old one. -/
theorem Piece.Fits.replaced {rest rest' : List Char} (h : p.Fits rest) (hp : p.isComment = false)
    (hrest : Replaces rest' rest) : p.Fits rest' := by
  cases p with
  | literal body => exact h
  | unclosedLiteral body => exact ⟨h.1, hrest.nil h.2⟩
  | lineComment body => cases hp
  | blockComment body => cases hp
  | unclosedComment body => cases hp
  | char c =>
    obtain ⟨hquote, hslash⟩ := h
    refine ⟨hquote, fun hc d hd => ?_⟩
    have hno : ¬ (d = '/' ∨ d = '*') := fun hmark => by
      rcases hrest.head d hd hmark with hsame | hopens
      · rcases hmark with rfl | rfl
        · exact (hslash hc _ hsame).1 rfl
        · exact (hslash hc _ hsame).2 rfl
      · exact (hslash hc _ hopens).1 rfl
    exact not_or.mp hno

/-- Texts that begin with the same piece may stand in the place of each other. -/
theorem Replaces.cons (p : Piece) (rest rest' : List Char) : Replaces (p.text ++ rest') (p.text ++ rest) := by
  obtain ⟨c, cs, hp⟩ := List.exists_cons_of_ne_nil p.text_ne_nil
  rw [hp]
  exact ⟨fun h => by simp at h, fun d hd _ => .inl hd⟩

theorem Piece.text_head_of_isComment (hp : p.isComment = true) (rest : List Char) :
    (p.text ++ rest).head? = some '/' := by
  cases p <;> first | rfl | cases hp

/-- The pieces that are left without the comments are those into which their text falls. -/
theorem Splits.withoutComments (h : Splits ps) : Splits (withoutComments ps) := by
  suffices hboth : Splits (Json.withoutComments ps) ∧ Replaces (written (Json.withoutComments ps)) (written ps) from
    hboth.1
  -- The piece before fits only if what is left may stand in the place of the old text.
  induction ps with
  | nil => exact ⟨trivial, id, fun _ hc => by cases hc⟩
  | cons p ps ih =>
    obtain ⟨hp, hps⟩ := h
    obtain ⟨hkept, hrest⟩ := ih hps
    cases hc : p.isComment with
    | false =>
      rw [show Json.withoutComments (p :: ps) = p :: Json.withoutComments ps by simp [Json.withoutComments, hc]]
      exact ⟨⟨hp.replaced hc hrest, hkept⟩, .cons p _ _⟩
    | true =>
      rw [show Json.withoutComments (p :: ps) = Json.withoutComments ps by simp [Json.withoutComments, hc]]
      refine ⟨hkept, fun hnil => ?_, fun _ _ _ => .inr (Piece.text_head_of_isComment hc _)⟩
      exact absurd (List.append_eq_nil_iff.mp hnil).1 p.text_ne_nil

theorem withoutComments_withoutComments : withoutComments (withoutComments ps) = withoutComments ps := by
  simp [withoutComments]

end

/-- Taking out comments goes by the pieces of a text. Every text falls from left to right into string literals,
comments and other characters, and in one way only. What is left of it are the pieces that are no comments, as they
were written; they are the only pieces into which that text falls, so that no comment begins in it outside its
literals, and taking out its comments again changes nothing. -/
theorem comments_taken_out (s : String) :
    ∃ ps : List Piece, (Splits ps ∧ written ps = s.toList) ∧
      (∀ qs, Splits qs → written qs = s.toList → qs = ps) ∧
      (stripComments s).toList = written (withoutComments ps) ∧
      (∀ qs, Splits qs → written qs = (stripComments s).toList →
        qs = withoutComments ps ∧ ∀ q ∈ qs, q.isComment = false) ∧
      Splits (withoutComments ps) ∧
      stripComments (stripComments s) = stripComments s := by
  obtain ⟨hsplits, hwritten⟩ := splits_pieces s.toList
  have hleft : (stripComments s).toList = written (withoutComments (pieces s.toList)) := by
    rw [stripComments, String.toList_ofList, ← strip_written hsplits, hwritten]
  refine ⟨pieces s.toList, ⟨hsplits, hwritten⟩, fun qs hqs htext => ?_, hleft, fun qs hqs htext => ?_,
    hsplits.withoutComments, ?_⟩
  · rw [← htext, pieces_written hqs]
  · have heq : qs = withoutComments (pieces s.toList) := by
      rw [← pieces_written hqs, htext, hleft, pieces_written hsplits.withoutComments]
    refine ⟨heq, fun q hq => ?_⟩
    rw [heq] at hq
    simpa using (List.mem_filter.mp hq).2
  · calc stripComments (stripComments s)
        = String.ofList (strip .code (written (withoutComments (pieces s.toList)))) := by rw [stripComments, hleft]
      _ = String.ofList (written (withoutComments (pieces s.toList))) := by
        rw [strip_written hsplits.withoutComments, withoutComments_withoutComments]
      _ = stripComments s := by rw [← hleft, String.ofList_toList]

/-- Two comments beside a literal with the marks of one in it, and a third that is not closed. -/
example : withoutComments (pieces "/**/\"//\\\"\"//x\n/*".toList) =
    [.literal "//\\\"".toList, .char '\n'] := by
  decide

end Codemod.Json
