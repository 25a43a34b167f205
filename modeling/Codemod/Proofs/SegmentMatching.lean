import Codemod.Proofs.AnchoredPattern

/-!
# Patterns as rows of segments

The elements of a pattern are compared with a path character by character. Where `**` stands in the pattern
as a whole segment only, the outcome is that of a comparison segment by segment: `**` covers any number of
segments, at least one where it ends the pattern, and every other segment of the pattern covers one segment
of the path, whose slashes no wildcard in it reaches.

Main statements:

* `Glob.matchesThen_ofChar` says what a segment without `**` matches;
* `Glob.normalForm_eq_joined` says what the segments of a pattern in its normal form are;
* `Glob.matchesThen_joined_iff` says what the elements of a pattern match, by induction on its segments;
* `Glob.selects_iff_selected` says what a pattern selects.
-/

namespace Codemod
namespace Glob

open Codemod.Path

/-! ### The comparison by segments -/

/-- Whether a segment of a pattern covers a text: `*` stands for any run of characters, `?` for one
character, and every other character for itself. -/
def fits : List Char → List Char → Bool
  | [], s => s.isEmpty
  | c :: p, s =>
    if c = '*' then s.tails.any (fits p)
    else match s with
      | [] => false
      | d :: s => (c == '?' || c == d) && fits p s

/-- Whether the segments of a pattern cover those of a path. -/
def covers : List String → List String → Bool
  | [], ss => ss.isEmpty
  | p :: ps, ss =>
    if p = "**" then
      if ps.isEmpty then !ss.isEmpty else ss.tails.any (covers ps)
    else match ss with
      | [] => false
      | s :: ss => fits p.toList s.toList && covers ps ss

/-- The segments of a path. -/
def segments (path : String) : List String :=
  (splitSlash path.toList).map .ofList

/-- The segments of a pattern in its normal form: it begins with no `.` and ends in no empty text. -/
def patternSegments (pattern : String) : List String :=
  ((pieces pattern).dropWhile (· == ".")).rdropWhile (· == "")

/-- Whether the last segment of a pattern has no wildcard and no dot. -/
def endsInDirectory (ps : List String) : Bool :=
  (ps.getLast?.getD "").toList.all fun c => c != '*' && c != '?' && c != '.'

/-- The segments of a pattern select those of a path: they cover the first ones of them. The rest is empty,
or it is anything where whole trees are selected. Behind the name of a directory it must not be empty. -/
def Selected (directory wholeTree : Bool) (ps ss : List String) : Prop :=
  ∃ first below, ss = first ++ below ∧ covers ps first = true ∧
    if (directory && endsInDirectory ps) = true then below ≠ []
    else below = [] ∨ wholeTree = true ∧ first ≠ []

/-- Only as a whole segment does `**` stand among the segments. -/
def StarsApart (ps : List String) : Prop :=
  ∀ p ∈ ps, ['*', '*'] <:+: p.toList → p = "**"

instance (ps : List String) : Decidable (StarsApart ps) :=
  inferInstanceAs (Decidable (∀ p ∈ ps, ['*', '*'] <:+: p.toList → p = "**"))

/-! ### Inside a segment -/

theorem fits_star (p s : List Char) : fits ('*' :: p) s = s.tails.any (fits p) := by
  cases s <;> rfl

theorem fits_nil_right {c : Char} (h : c ≠ '*') (p : List Char) : fits (c :: p) [] = false := by
  simp [fits, h]

theorem fits_cons_cons {c : Char} (h : c ≠ '*') (d : Char) (p s : List Char) :
    fits (c :: p) (d :: s) = ((c == '?' || c == d) && fits p s) := by
  simp [fits, h]

theorem bne_of_not_mem {c : Char} {s : List Char} (h : c ∉ s) : ∀ d ∈ s, (d != c) = true :=
  fun _ hd => bne_iff_ne.mpr fun e => h (e ▸ hd)

theorem afterRun_eq_tails {ok : Char → Bool} {s : List Char} (h : ∀ c ∈ s, ok c = true)
    (k : List Char → Bool) : afterRun ok k s = s.tails.any k := by
  induction s with
  | nil => simp [afterRun]
  | cons c rest ih =>
    obtain ⟨hc, hrest⟩ := List.forall_mem_cons.mp h
    rw [afterRun, hc, Bool.true_and, ih hrest, List.tails_cons, List.any_cons]

/-- What the characters of a segment without `**` match. -/
theorem matchesThen_ofChar (p : List Char) {s : List Char} (hslash : '/' ∉ s) :
    matchesThen List.isEmpty (p.map Element.ofChar) s = fits p s := by
  induction p generalizing s with
  | nil => rfl
  | cons c p ih =>
    rw [List.map_cons, Element.ofChar]
    split
    case isTrue hstar =>
      subst hstar
      rw [fits_star, matchesThen, afterRun_eq_tails (bne_of_not_mem hslash)]
      -- What is left of the segment holds no slash either.
      rw [Bool.eq_iff_iff, List.any_eq_true, List.any_eq_true]
      refine exists_congr fun t => and_congr_right fun ht => ?_
      rw [ih fun h => hslash (((List.mem_tails ..).mp ht).mem h)]
    case isFalse hstar =>
      cases s with
      | nil =>
        rw [fits_nil_right hstar]
        split <;> rfl
      | cons d rest =>
        have hd : d ≠ '/' := fun e => hslash (e ▸ List.mem_cons_self ..)
        have hrest := ih fun h => hslash (List.mem_cons_of_mem _ h)
        rw [fits_cons_cons hstar]
        split
        case isTrue hone => simp [matchesThen, hrest, hd, hone]
        case isFalse hone => rw [matchesThen, hrest, beq_false_of_ne hone, Bool.false_or]

/-! ### From one segment to the next -/

/-- The characters of segments that follow another one. -/
def following (ss : List String) : List Char :=
  ss.flatMap fun s => '/' :: s.toList

theorem joined_eq_append (s : String) (ss : List String) : joined (s :: ss) = s.toList ++ following ss := by
  induction ss generalizing s with
  | nil => rw [joined_singleton, following, List.flatMap_nil, List.append_nil]
  | cons t rest ih =>
    rw [joined_cons (List.cons_ne_nil t rest), ih, following, following, List.flatMap_cons]
    rfl

theorem following_eq {ss : List String} (h : ss ≠ []) : following ss = '/' :: joined ss := by
  obtain ⟨s, rest, rfl⟩ := List.exists_cons_of_ne_nil h
  rw [joined_eq_append]
  rfl

theorem following_head (ss : List String) : following ss = [] ∨ (following ss).head? = some '/' := by
  by_cases h : ss = []
  · exact .inl (h ▸ rfl)
  · exact .inr (following_eq h ▸ rfl)

/-- The texts hold no slash and break no line. -/
def Unbroken (ss : List String) : Prop :=
  ∀ s ∈ ss, '/' ∉ s.toList ∧ '\n' ∉ s.toList

theorem Unbroken.one_line_following {ss : List String} (h : Unbroken ss) : '\n' ∉ following ss := by
  intro hmem
  obtain ⟨s, hs, hmem⟩ := List.mem_flatMap.mp hmem
  exact (h s hs).2 ((List.mem_cons.mp hmem).resolve_left (by decide))

theorem Unbroken.one_line {ss : List String} (h : Unbroken ss) : '\n' ∉ joined ss := by
  by_cases hne : ss = []
  · subst hne
    exact List.not_mem_nil
  · have hfollowing := h.one_line_following
    rw [following_eq hne] at hfollowing
    exact fun hmem => hfollowing (List.mem_cons_of_mem _ hmem)

theorem afterSlash_append {n : List Char} (hslash : '/' ∉ n) (hline : '\n' ∉ n) (k : List Char → Bool)
    (rest : List Char) : afterSlash k (n ++ rest) = afterSlash k rest := by
  induction n with
  | nil => rfl
  | cons c more ih =>
    have hc : c ≠ '/' ∧ c ≠ '\n' :=
      ⟨fun e => hslash (e ▸ List.mem_cons_self ..), fun e => hline (e ▸ List.mem_cons_self ..)⟩
    rw [List.cons_append, afterSlash, ih (fun h => hslash (List.mem_cons_of_mem _ h))
      fun h => hline (List.mem_cons_of_mem _ h), beq_false_of_ne hc.1, bne_iff_ne.mpr hc.2]
    rfl

/-- A run of whole segments can be dropped from the beginning of a path, but never the last one. -/
theorem afterSlash_joined_iff {k : List Char → Bool} {ss : List String} (hne : ss ≠ []) (h : Unbroken ss) :
    (k (joined ss) || afterSlash k (joined ss)) = true ↔ ∃ t, t <:+ ss ∧ t ≠ [] ∧ k (joined t) = true := by
  induction ss with
  | nil => exact absurd rfl hne
  | cons s rest ih =>
    obtain ⟨⟨hslash, hline⟩, hrest⟩ := List.forall_mem_cons.mp h
    have hdrop : afterSlash k (joined (s :: rest)) = true ↔
        ∃ t, t <:+ rest ∧ t ≠ [] ∧ k (joined t) = true := by
      rw [joined_eq_append, afterSlash_append hslash hline]
      by_cases hnil : rest = []
      · subst hnil
        refine iff_of_false (by simp [following, afterSlash]) ?_
        rintro ⟨t, ht, hne, -⟩
        exact hne (List.suffix_nil.mp ht)
      · rw [following_eq hnil, ← ih hnil hrest]
        simp [afterSlash]
    rw [Bool.or_eq_true, hdrop]
    constructor
    · rintro (hall | ⟨t, ht, hrun⟩)
      · exact ⟨s :: rest, List.suffix_rfl, hne, hall⟩
      · exact ⟨t, ht.trans (List.suffix_cons s rest), hrun⟩
    · rintro ⟨t, ht, htne, hk⟩
      rcases List.suffix_cons_iff.mp ht with rfl | ht
      · exact .inl hk
      · exact .inr ⟨t, ht, htne, hk⟩

/-! ### The segments of a pattern -/

/-- What may follow the match of a pattern. -/
def ends (wholeTree : Bool) : List Char → Bool :=
  if wholeTree then isBelow else List.isEmpty

theorem ends_of_ne {wholeTree : Bool} (d : Char) (ds : List Char) (h : d ≠ '/') :
    ends wholeTree (d :: ds) = false := by
  cases wholeTree with
  | true => simp [ends, isBelow, h]
  | false => rfl

theorem ends_following_iff {wholeTree : Bool} {below : List String} (h : Unbroken below) :
    ends wholeTree (following below) = true ↔ below = [] ∨ wholeTree = true := by
  by_cases hne : below = []
  · subst hne
    exact iff_of_true (by cases wholeTree <;> rfl) (.inl rfl)
  · rw [following_eq hne]
    cases wholeTree with
    | true =>
      have hline : (joined below).all (· != '\n') = true :=
        List.all_eq_true.mpr (bne_of_not_mem h.one_line)
      exact iff_of_true hline (.inr rfl)
    | false => exact iff_of_false (by simp [ends]) (by simpa using hne)

theorem covers_single_iff {p : String} (hp : p ≠ "**") (ps ss : List String) :
    covers (p :: ps) ss = true ↔
      ∃ s rest, ss = s :: rest ∧ fits p.toList s.toList = true ∧ covers ps rest = true := by
  cases ss <;> simp [covers, hp]

theorem covers_stars_iff {ps : List String} (hps : ps ≠ []) (ss : List String) :
    covers ("**" :: ps) ss = true ↔ ∃ skipped rest, ss = skipped ++ rest ∧ covers ps rest = true := by
  have htails : covers ("**" :: ps) ss = ss.tails.any (covers ps) := by
    cases ss <;> simp [covers, hps]
  rw [htails, List.any_eq_true]
  constructor
  · rintro ⟨t, ht, hcovers⟩
    obtain ⟨skipped, rfl⟩ := (List.mem_tails ..).mp ht
    exact ⟨skipped, t, rfl, hcovers⟩
  · rintro ⟨skipped, rest, rfl, hcovers⟩
    exact ⟨rest, (List.mem_tails ..).mpr (List.suffix_append ..), hcovers⟩

theorem covers_nil_right {ps : List String} (hne : ps ≠ []) : ¬ covers ps [] = true := by
  induction ps with
  | nil => exact absurd rfl hne
  | cons p ps ih =>
    intro h
    by_cases hp : p = "**"
    · subst hp
      by_cases hps : ps = []
      · subst hps
        cases h
      · obtain ⟨skipped, rest, hsplit, hrest⟩ := (covers_stars_iff hps []).mp h
        obtain ⟨rfl, rfl⟩ := List.append_eq_nil_iff.mp hsplit.symm
        exact ih hps hrest
    · obtain ⟨s, rest, hsplit, -⟩ := (covers_single_iff hp ps []).mp h
      cases hsplit

/-- A row of segments covers what its parts cover, one after the other. A `**` at the end of the first part
would cover fewer segments there than before the second one. -/
theorem covers_append_iff {ps qs ss : List String} (h : ps.getLast? ≠ some "**") :
    covers (ps ++ qs) ss = true ↔
      ∃ first second, ss = first ++ second ∧ covers ps first = true ∧ covers qs second = true := by
  induction ps generalizing ss with
  | nil => simp [covers]
  | cons p ps ih =>
    -- The condition is on the last segment, and goes over to the rest of the row.
    have hlast : ps.getLast? ≠ some "**" := by
      intro hps
      rw [List.getLast?_cons, hps] at h
      exact h rfl
    by_cases hp : p = "**"
    · subst hp
      have hps : ps ≠ [] := by
        rintro rfl
        exact h rfl
      rw [List.cons_append, covers_stars_iff (List.append_ne_nil_of_left_ne_nil hps qs)]
      simp only [covers_stars_iff hps]
      constructor
      · rintro ⟨skipped, rest, rfl, hrest⟩
        obtain ⟨first, second, rfl, hfirst, hsecond⟩ := (ih hlast).mp hrest
        exact ⟨skipped ++ first, second, (List.append_assoc ..).symm, ⟨skipped, first, rfl, hfirst⟩, hsecond⟩
      · rintro ⟨-, second, rfl, ⟨skipped, first, rfl, hfirst⟩, hsecond⟩
        exact ⟨skipped, first ++ second, List.append_assoc .., (ih hlast).mpr ⟨first, second, rfl, hfirst, hsecond⟩⟩
    · rw [List.cons_append, covers_single_iff hp]
      simp only [covers_single_iff hp]
      constructor
      · rintro ⟨s, rest, rfl, hs, hrest⟩
        obtain ⟨first, second, rfl, hfirst, hsecond⟩ := (ih hlast).mp hrest
        exact ⟨s :: first, second, rfl, ⟨s, first, rfl, hs, hfirst⟩, hsecond⟩
      · rintro ⟨-, second, rfl, ⟨s, first, rfl, hs, hfirst⟩, hsecond⟩
        exact ⟨s, first ++ second, rfl, hs, (ih hlast).mpr ⟨first, second, rfl, hfirst, hsecond⟩⟩

/-- The segments of a pattern cover the first ones of a path, and the path goes on as `ends` allows. -/
def CoversFirst (wholeTree : Bool) (ps ss : List String) : Prop :=
  ∃ first below, ss = first ++ below ∧ covers ps first = true ∧ (below = [] ∨ wholeTree = true)

section

variable {wholeTree : Bool} {p s : String} {ps ss rest : List String}

theorem not_coversFirst_nil (hps : ps ≠ []) : ¬ CoversFirst wholeTree ps [] := by
  rintro ⟨first, below, heq, hcovers, -⟩
  obtain ⟨rfl, -⟩ := List.append_eq_nil_iff.mp heq.symm
  exact covers_nil_right hps hcovers

theorem coversFirst_nil_iff : CoversFirst wholeTree [] rest ↔ rest = [] ∨ wholeTree = true := by
  constructor
  · rintro ⟨first, below, rfl, hcovers, hbelow⟩
    obtain rfl : first = [] := List.isEmpty_iff.mp hcovers
    exact hbelow
  · exact fun h => ⟨[], rest, rfl, rfl, h⟩

theorem coversFirst_single_iff (hp : p ≠ "**") :
    CoversFirst wholeTree (p :: ps) (s :: rest) ↔
      fits p.toList s.toList = true ∧ CoversFirst wholeTree ps rest := by
  constructor
  · rintro ⟨first, below, heq, hcovers, hbelow⟩
    obtain ⟨t, more, rfl, ht, hmore⟩ := (covers_single_iff hp ..).mp hcovers
    cases heq
    exact ⟨ht, more, below, rfl, hmore, hbelow⟩
  · rintro ⟨hs, first, below, rfl, hcovers, hbelow⟩
    exact ⟨s :: first, below, rfl, (covers_single_iff hp ..).mpr ⟨s, first, rfl, hs, hcovers⟩, hbelow⟩

theorem coversFirst_stars_iff (hps : ps ≠ []) :
    CoversFirst wholeTree ("**" :: ps) ss ↔ ∃ t, t <:+ ss ∧ t ≠ [] ∧ CoversFirst wholeTree ps t := by
  constructor
  · rintro ⟨first, below, rfl, hcovers, hbelow⟩
    obtain ⟨skipped, own, rfl, hown⟩ := (covers_stars_iff hps _).mp hcovers
    have hne : own ≠ [] := by
      rintro rfl
      exact covers_nil_right hps hown
    exact ⟨own ++ below, ⟨skipped, (List.append_assoc ..).symm⟩, List.append_ne_nil_of_left_ne_nil hne _,
      own, below, rfl, hown, hbelow⟩
  · rintro ⟨-, ⟨skipped, rfl⟩, -, own, below, rfl, hown, hbelow⟩
    exact ⟨skipped ++ own, below, (List.append_assoc ..).symm,
      (covers_stars_iff hps _).mpr ⟨skipped, own, rfl, hown⟩, hbelow⟩

theorem matchesThen_last_stars (h : Unbroken ss) :
    matchesThen (ends wholeTree) (elementsOf (joined ["**"])) (joined ss) = true := by
  show afterRun (· != '\n') (ends wholeTree) (joined ss) = true
  rw [afterRun_eq_tails (bne_of_not_mem h.one_line)]
  have hend : ends wholeTree [] = true := by cases wholeTree <;> rfl
  exact List.any_eq_true.mpr ⟨[], (List.mem_tails ..).mpr List.nil_suffix, hend⟩

/-- A segment that is not `**` is compared with the first segment of the path. What stands behind it is
compared with the slash that follows there. -/
theorem matchesThen_single (hslash : '/' ∉ p.toList) (hstars : ¬ ['*', '*'] <:+: p.toList)
    (hs : '/' ∉ s.toList) :
    matchesThen (ends wholeTree) (elementsOf (joined (p :: ps))) (joined (s :: rest)) =
      (fits p.toList s.toList &&
        matchesThen (ends wholeTree) (elementsOf (following ps)) (following rest)) := by
  have hinside : ∀ e ∈ p.toList.map Element.ofChar, e.inside = true := by
    intro e he
    obtain ⟨c, hc, rfl⟩ := List.mem_map.mp he
    exact Element.inside_ofChar fun e => hslash (e ▸ hc)
  have hhead : (following ps).head? ≠ some '*' := by
    rcases following_head ps with h | h <;> simp [h]
  rw [joined_eq_append, joined_eq_append, elementsOf_append hstars hhead, matchesThen_append,
    matchesThen_segment ?_ hinside hs (following_head rest), matchesThen_ofChar _ hs]
  intro d ds hd
  -- Behind the segment stands the end of the pattern, or a slash.
  by_cases hps : ps = []
  · subst hps
    exact ends_of_ne d ds hd
  · rw [following_eq hps, elementsOf_slash, matchesThen, beq_false_of_ne hd.symm, Bool.false_and]

/-- What the elements of a pattern match, when the path goes on as a pattern of this kind allows. -/
theorem matchesThen_joined_iff (hps : ps ≠ []) (hss : ss ≠ []) (hslash : ∀ p ∈ ps, '/' ∉ p.toList)
    (hstars : StarsApart ps) (h : Unbroken ss) :
    matchesThen (ends wholeTree) (elementsOf (joined ps)) (joined ss) = true ↔
      CoversFirst wholeTree ps ss := by
  -- The induction is on the segments of the pattern. A `**` leaves any run of segments of the path behind, any
  -- other segment the first one, and the rest of the pattern goes on at what is left.
  induction ps generalizing ss with
  | nil => exact absurd rfl hps
  | cons p ps ih =>
    obtain ⟨hpslash, hpsslash⟩ := List.forall_mem_cons.mp hslash
    obtain ⟨hpstars, hpsstars⟩ := List.forall_mem_cons.mp hstars
    by_cases hp : p = "**"
    · subst hp
      by_cases hnil : ps = []
      · -- The last `**` takes all that there is.
        subst hnil
        have hcovers : covers ["**"] ss = true := by simp [covers, hss]
        exact iff_of_true (matchesThen_last_stars h) ⟨ss, [], (List.append_nil ss).symm, hcovers, .inl rfl⟩
      · have helements : elementsOf (joined ("**" :: ps)) = .directories :: elementsOf (joined ps) := by
          rw [joined_cons hnil]
          rfl
        rw [helements, matchesThen, afterSlash_joined_iff hss h, coversFirst_stars_iff hnil]
        refine exists_congr fun t => and_congr_right fun ht => and_congr_right fun hne => ?_
        exact ih hnil hne hpsslash hpsstars fun s hs => h s (ht.mem hs)
    · obtain ⟨s, rest, rfl⟩ := List.exists_cons_of_ne_nil hss
      obtain ⟨⟨hs, -⟩, hrest⟩ := List.forall_mem_cons.mp h
      rw [matchesThen_single hpslash (fun hin => hp (hpstars hin)) hs, Bool.and_eq_true,
        coversFirst_single_iff hp]
      refine and_congr_right fun _ => ?_
      by_cases hnil : ps = []
      · subst hnil
        exact (ends_following_iff hrest).trans coversFirst_nil_iff.symm
      · rw [following_eq hnil, elementsOf_slash]
        by_cases hrestnil : rest = []
        · -- The pattern goes on, and the path does not.
          subst hrestnil
          exact iff_of_false (by simp [following, matchesThen]) (not_coversFirst_nil hnil)
        · rw [following_eq hrestnil, ← ih hnil hrestnil hpsslash hpsstars hrest]
          simp [matchesThen]

end

/-! ### The normal form of a pattern -/

theorem joined_ne_nil_of_last {ps : List String} (h : ps.getLast? ≠ some "") (hne : ps ≠ []) :
    joined ps ≠ [] := by
  obtain ⟨p, rest, rfl⟩ := List.exists_cons_of_ne_nil hne
  by_cases hrest : rest = []
  · subst hrest
    rw [joined_singleton]
    exact fun e => h (congrArg some (String.toList_inj.mp (e.trans rfl)))
  · rw [joined_cons hrest]
    simp

theorem joined_eq_dot {ps : List String} (hslash : ∀ p ∈ ps, '/' ∉ p.toList) (h : joined ps = ['.']) :
    ps = ["."] := by
  have hne : ps ≠ [] := by
    rintro rfl
    cases h
  exact joined_inj hne (List.cons_ne_nil _ _) hslash (by decide) (h.trans rfl)

/-- The normal form drops the segments `.` at the beginning of a pattern and the empty ones at its end. -/
theorem normalForm_joined {qs : List String} (hslash : ∀ q ∈ qs, '/' ∉ q.toList) {n : Nat}
    (hn : (joined qs).length ≤ n) :
    (let cs := (dropHere n (joined qs)).rdropWhile (· == '/')
     if cs == ['.'] then [] else cs) = joined ((qs.dropWhile (· == ".")).rdropWhile (· == "")) := by
  induction qs generalizing n with
  | nil => cases n <;> rfl
  | cons q rest ih =>
    obtain ⟨hq, hrest⟩ := List.forall_mem_cons.mp hslash
    by_cases hdot : q = "."
    · subst hdot
      rw [List.dropWhile_cons_of_pos (by rfl)]
      by_cases hnil : rest = []
      · -- The pattern `.` becomes empty.
        subst hnil
        cases n <;> rfl
      · rw [joined_cons hnil] at hn ⊢
        obtain ⟨m, rfl⟩ : ∃ m, n = m + 1 := ⟨n - 1, by simp at hn; omega⟩
        have hm : (joined rest).length ≤ m := by simp at hn; omega
        exact ih hrest hm
    · -- Nothing is dropped in front, so that only empty segments at the end are.
      have hhere : ¬ ['.', '/'] <+: joined (q :: rest) := by
        have hslashed := @not_begins_here q (joined rest) hdot hq
        by_cases hnil : rest = []
        · rw [hnil, joined_singleton]
          exact fun hbegins => @not_begins_here q [] hdot hq (hbegins.trans (List.prefix_append ..))
        · rwa [joined_cons hnil]
      have hfirst : (q :: rest).dropWhile (· == ".") = q :: rest :=
        List.dropWhile_cons_of_neg (by simpa using hdot)
      have hkept : joined ((q :: rest).rdropWhile (· == "")) ≠ ['.'] := by
        intro hjoined
        have hbegins := List.rdropWhile_prefix (· == "") (q :: rest)
        rw [joined_eq_dot (fun p hp => hslash p (hbegins.mem hp)) hjoined] at hbegins
        exact hdot (List.cons_prefix_cons.mp hbegins).1.symm
      rw [dropHere_eq hhere, rdropWhile_joined hslash, hfirst]
      exact if_neg (by simpa using hkept)

theorem slash_not_mem_pieces {s : String} : ∀ q ∈ pieces s, '/' ∉ q.toList := by
  intro q hq hmem
  obtain ⟨piece, hpiece, rfl⟩ := List.mem_map.mp hq
  rw [String.toList_ofList] at hmem
  exact (mem_of_mem_splitSlash hpiece _ hmem).2 rfl

theorem mem_pieces_of_mem {s p : String} (h : p ∈ patternSegments s) : p ∈ pieces s :=
  (List.dropWhile_suffix _).mem ((List.rdropWhile_prefix _ _).mem h)

/-- The normal form of a pattern is made of its segments. -/
theorem normalForm_eq_joined (s : String) : normalForm s = joined (patternSegments s) := by
  have hjoined : joined (pieces s) = slashed s.toList := joined_splitSlash _
  rw [normalForm_eq, ← hjoined]
  exact normalForm_joined slash_not_mem_pieces le_rfl

theorem patternSegments_getLast (s : String) : (patternSegments s).getLast? ≠ some "" := by
  intro h
  have hne : patternSegments s ≠ [] := by
    intro hnil
    rw [hnil] at h
    cases h
  rw [List.getLast?_eq_some_getLast hne] at h
  exact List.rdropWhile_last_not (· == "") _ hne (beq_iff_eq.mpr (Option.some.inj h))

theorem lastSegment_of_not_mem {n : List Char} (h : '/' ∉ n) : lastSegment n = n := by
  unfold lastSegment
  rw [List.takeWhile_eq_self_iff.mpr, List.reverse_reverse]
  exact fun c hc => bne_of_not_mem h c (List.mem_reverse.mp hc)

theorem namesDirectory_joined {ps : List String} (hslash : ∀ p ∈ ps, '/' ∉ p.toList) :
    namesDirectory (joined ps) = endsInDirectory ps := by
  induction ps using List.reverseRecOn with
  | nil => rfl
  | append_singleton init p =>
    have hp := hslash p (List.mem_append_right _ (List.mem_singleton_self p))
    unfold namesDirectory endsInDirectory
    have hlast : lastSegment (joined (init ++ [p])) = p.toList := by
      by_cases hnil : init = []
      · rw [hnil, List.nil_append, joined_singleton, lastSegment_of_not_mem hp]
      · rw [joined_append hnil (List.cons_ne_nil _ _), lastSegment_append, joined_singleton,
          lastSegment_of_not_mem hp]
    rw [hlast, List.getLast?_concat]
    rfl

theorem withContents_joined {ps : List String} (h : ps.getLast? ≠ some "") :
    withContents (joined ps) = joined (ps ++ ["**", "*"]) := by
  unfold withContents
  by_cases hne : ps = []
  · subst hne
    rfl
  · rw [if_neg (by simpa using joined_ne_nil_of_last h hne), joined_append hne (List.cons_ne_nil _ _)]
    rfl

/-- The contents of a directory are what has at least one segment below it. -/
theorem covers_contents_iff (ss : List String) : covers ["**", "*"] ss = true ↔ ss ≠ [] := by
  rw [covers_stars_iff (List.cons_ne_nil _ _)]
  constructor
  · rintro ⟨skipped, rest, rfl, hrest⟩ hnil
    obtain ⟨-, rfl⟩ := List.append_eq_nil_iff.mp hnil
    exact covers_nil_right (List.cons_ne_nil _ _) hrest
  · intro hne
    have hlast : covers ["*"] [ss.getLast hne] = true := by
      refine (covers_single_iff (by decide) ..).mpr ⟨_, [], rfl, ?_, rfl⟩
      show fits ['*'] _ = true
      rw [fits_star]
      exact List.any_eq_true.mpr ⟨[], (List.mem_tails ..).mpr List.nil_suffix, rfl⟩
    exact ⟨ss.dropLast, _, (List.dropLast_append_getLast hne).symm, hlast⟩

/-- With its contents a directory is matched by what lies below it, at any depth. -/
theorem coversFirst_contents_iff {wholeTree : Bool} {ps ss : List String} (h : ps.getLast? ≠ some "**") :
    CoversFirst wholeTree (ps ++ ["**", "*"]) ss ↔
      ∃ first below, ss = first ++ below ∧ covers ps first = true ∧ below ≠ [] := by
  constructor
  · rintro ⟨first, below, heq, hcovers, -⟩
    obtain ⟨way, own, rfl, hway, hown⟩ := (covers_append_iff h).mp hcovers
    have hne : own ≠ [] := (covers_contents_iff own).mp hown
    exact ⟨way, own ++ below, by rw [heq, List.append_assoc], hway, List.append_ne_nil_of_left_ne_nil hne _⟩
  · rintro ⟨way, own, heq, hway, hne⟩
    refine ⟨way ++ own, [], by rw [heq, List.append_nil], ?_, .inl rfl⟩
    exact (covers_append_iff h).mpr ⟨way, own, rfl, hway, (covers_contents_iff own).mpr hne⟩

/-! ### What a pattern selects -/

theorem unbroken_segments {path : String} (hline : '\n' ∉ path.toList) : Unbroken (segments path) := by
  intro s hs
  obtain ⟨piece, hpiece, rfl⟩ := List.mem_map.mp hs
  rw [String.toList_ofList]
  have hchars := mem_of_mem_splitSlash hpiece
  exact ⟨fun hmem => (hchars _ hmem).2 rfl, fun hmem => hline (hchars _ hmem).1⟩

theorem selects_eq_matchesThen (pattern path : String) (directory wholeTree : Bool) :
    (ofString pattern directory wholeTree).selects path =
      matchesThen (ends wholeTree) (elementsOf (joined
        (if (directory && endsInDirectory (patternSegments pattern)) = true
          then patternSegments pattern ++ ["**", "*"] else patternSegments pattern)))
        (joined (segments path)) := by
  have hslash : ∀ p ∈ patternSegments pattern, '/' ∉ p.toList :=
    fun p hp => slash_not_mem_pieces p (mem_pieces_of_mem hp)
  have hpath : joined (segments path) = path.toList := joined_splitSlash _
  rw [hpath, apply_ite joined, ← withContents_joined (patternSegments_getLast pattern),
    ← normalForm_eq_joined, ← namesDirectory_joined hslash, ← normalForm_eq_joined]
  rfl

/-- An empty pattern selects nothing by itself. -/
theorem ends_joined_eq_false {ss : List String} (hne : ss ≠ []) (hnames : "" ∉ ss) (h : Unbroken ss)
    (wholeTree : Bool) : ends wholeTree (joined ss) = false := by
  obtain ⟨s, rest, rfl⟩ := List.exists_cons_of_ne_nil hne
  cases hs : s.toList with
  | nil =>
    obtain rfl : s = "" := String.toList_inj.mp (hs.trans rfl)
    exact absurd (List.mem_cons_self ..) hnames
  | cons c more =>
    rw [joined_eq_append, hs]
    exact ends_of_ne c _ fun e => (h s (List.mem_cons_self ..)).1 (hs ▸ e ▸ List.mem_cons_self ..)

/-- Where `**` stands in a pattern as a whole segment only, the pattern selects a path of names exactly when
its segments select those of the path. Used for whole trees it selects all that lies below as well. -/
theorem selects_iff_selected {pattern path : String} {directory wholeTree : Bool}
    (hstars : StarsApart (pieces pattern)) (hnames : "" ∉ segments path) (hline : '\n' ∉ path.toList) :
    ((ofString pattern directory wholeTree).selects path = true ↔
      Selected directory wholeTree (patternSegments pattern) (segments path)) ∧
    (wholeTree = true → (ofString pattern directory wholeTree).selects path = true →
      ∀ below : String, '\n' ∉ below.toList →
        (ofString pattern directory wholeTree).selects (path ++ "/" ++ below) = true) := by
  refine ⟨?_, fun hwhole hselects below hbelow =>
    selects_below hwhole hselects (List.all_eq_true.mpr (bne_of_not_mem hbelow))⟩
  have hss : segments path ≠ [] := fun e => splitSlash_ne_nil _ (List.map_eq_nil_iff.mp e)
  have hunbroken := unbroken_segments hline
  have hslash : ∀ p ∈ patternSegments pattern, '/' ∉ p.toList :=
    fun p hp => slash_not_mem_pieces p (mem_pieces_of_mem hp)
  have happart : StarsApart (patternSegments pattern) := fun p hp => hstars p (mem_pieces_of_mem hp)
  rw [selects_eq_matchesThen]
  unfold Selected
  split
  case isTrue hdirectory =>
    -- The name of a directory holds no star.
    have hlast : (patternSegments pattern).getLast? ≠ some "**" := by
      intro hlast
      simp [endsInDirectory, hlast] at hdirectory
    rw [matchesThen_joined_iff (by simp) hss ?_ ?_ hunbroken]
    · exact coversFirst_contents_iff hlast
    · exact List.forall_mem_append.mpr ⟨hslash, by decide⟩
    · exact List.forall_mem_append.mpr ⟨happart, by decide⟩
  case isFalse =>
    by_cases hps : patternSegments pattern = []
    · rw [hps]
      refine iff_of_false (Bool.eq_false_iff.mp (ends_joined_eq_false hss hnames hunbroken wholeTree)) ?_
      rintro ⟨first, below, heq, hcovers, hbelow⟩
      obtain rfl : first = [] := List.isEmpty_iff.mp hcovers
      rcases hbelow with rfl | ⟨-, hne⟩
      · exact hss heq
      · exact hne rfl
    · rw [matchesThen_joined_iff hps hss hslash happart hunbroken]
      refine exists_congr fun first => exists_congr fun below => and_congr_right fun _ =>
        and_congr_right fun hcovers => or_congr_right ?_
      -- What is covered by a segment at least is not empty.
      have hne : first ≠ [] := by
        rintro rfl
        exact covers_nil_right hps hcovers
      exact (and_iff_left hne).symm

/-- A pattern with backslashes, a segment `.` in front and a slash at the end that names a directory. -/
theorem nested_directory_selected :
    StarsApart (pieces ".\\src/**\\lib?/gen/") ∧ "" ∉ segments "src/a/b/lib1/gen/deep/x.ts" ∧
      Selected true true ["src", "**", "lib?", "gen"] ["src", "a", "b", "lib1", "gen", "deep", "x.ts"] ∧
      (ofString ".\\src/**\\lib?/gen/" true true).selects "src/a/b/lib1/gen/deep/x.ts" = true ∧
      (ofString ".\\src/**\\lib?/gen/" true true).selects
        ("src/a/b/lib1/gen/deep/x.ts" ++ "/" ++ "more") = true := by
  have hstars : StarsApart (pieces ".\\src/**\\lib?/gen/") := by decide +kernel
  have hnames : "" ∉ segments "src/a/b/lib1/gen/deep/x.ts" := by decide +kernel
  have hselected : Selected true true ["src", "**", "lib?", "gen"]
      ["src", "a", "b", "lib1", "gen", "deep", "x.ts"] :=
    ⟨["src", "a", "b", "lib1", "gen"], ["deep", "x.ts"], rfl, by decide +kernel, by decide⟩
  have hpattern : patternSegments ".\\src/**\\lib?/gen/" = ["src", "**", "lib?", "gen"] := by
    decide +kernel
  have hpath : segments "src/a/b/lib1/gen/deep/x.ts" =
      ["src", "a", "b", "lib1", "gen", "deep", "x.ts"] := by
    decide +kernel
  obtain ⟨hiff, hbelow⟩ := @selects_iff_selected _ _ true true hstars hnames (by decide)
  rw [hpattern, hpath] at hiff
  have hselects := hiff.mpr hselected
  exact ⟨hstars, hnames, hselected, hselects, hbelow rfl hselects "more" (by decide)⟩

end Glob
end Codemod
