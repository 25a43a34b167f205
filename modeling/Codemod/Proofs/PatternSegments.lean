import Mathlib.Data.List.DropRight
import Codemod.Proofs.CleanPath

/-!
# Patterns and the segments of paths

A pattern that begins with the name of a directory selects below this directory what the rest of the pattern
selects there. The name may hold wildcards: they match inside a segment, so that they end where the segment
ends. Only a name that holds `**`, which also matches slashes, or a backslash, which is read as a slash, is no
plain one.

Main statements:

* `Glob.normalForm_of_names` says that slashes and backslashes both separate names;
* `Glob.matchesThen_segment` says that elements that match inside a segment match a whole one;
* `Glob.selects_under` says what a pattern selects under the directories that it begins with.
-/

namespace Codemod

namespace Path

/-- The characters of segments joined by slashes. -/
def joined (ss : List String) : List Char :=
  ("/".intercalate ss).toList

theorem joined_singleton (s : String) : joined [s] = s.toList := by
  unfold joined
  rw [String.intercalate_singleton]

theorem joined_cons {s : String} {rest : List String} (h : rest ≠ []) :
    joined (s :: rest) = s.toList ++ '/' :: joined rest := by
  cases rest with
  | nil => exact absurd rfl h
  | cons t more =>
    unfold joined
    rw [String.intercalate_cons_cons, String.toList_append, String.toList_append, List.append_assoc]
    rfl

theorem joined_append {first second : List String} (hfirst : first ≠ []) (hsecond : second ≠ []) :
    joined (first ++ second) = joined first ++ '/' :: joined second := by
  induction first with
  | nil => exact absurd rfl hfirst
  | cons s rest ih =>
    cases rest with
    | nil => rw [List.singleton_append, joined_cons hsecond, joined_singleton]
    | cons t more =>
      have hrest := ih (List.cons_ne_nil t more)
      rw [List.cons_append, joined_cons (List.append_ne_nil_of_left_ne_nil (List.cons_ne_nil t more) _), hrest,
        joined_cons (List.cons_ne_nil t more), List.append_assoc, List.cons_append]

/-- Joining by slashes undoes splitting at slashes. -/
theorem joined_splitSlash (cs : List Char) : joined ((splitSlash cs).map .ofList) = cs := by
  induction cs with
  | nil => rfl
  | cons c rest ih =>
    by_cases hc : c = '/'
    · subst hc
      have hsplit : splitSlash ('/' :: rest) = [] :: splitSlash rest := rfl
      rw [hsplit, List.map_cons, joined_cons (by simpa using splitSlash_ne_nil rest), ih]
      rfl
    · obtain ⟨piece, more, hrest⟩ := List.exists_cons_of_ne_nil (splitSlash_ne_nil rest)
      rw [splitSlash_cons_of_ne hc hrest]
      rw [hrest] at ih
      cases more with
      | nil =>
        rw [List.map_singleton, joined_singleton, String.toList_ofList] at ih ⊢
        rw [ih]
      | cons next more =>
        rw [List.map_cons, joined_cons (by simp), String.toList_ofList] at ih ⊢
        rw [List.cons_append, ih]

/-- The names that are joined can be read off the characters. -/
theorem joined_inj {ss ts : List String} (hs : ss ≠ []) (ht : ts ≠ []) (hss : ∀ s ∈ ss, '/' ∉ s.toList)
    (hts : ∀ t ∈ ts, '/' ∉ t.toList) (h : joined ss = joined ts) : ss = ts := by
  have hsplit := congrArg splitSlash h
  unfold joined at hsplit
  rw [splitSlash_joined hs hss, splitSlash_joined ht hts] at hsplit
  exact List.map_injective_iff.mpr (fun _ _ => String.toList_inj.mp) hsplit

theorem toList_relativeText {ss : List String} (h : ss ≠ []) : (relativeText ss).toList = joined ss := by
  cases ss with
  | nil => exact absurd rfl h
  | cons s rest => rfl

end Path

namespace Glob

open Codemod.Path

/-! ### Names in a pattern -/

/-- The characters of a pattern with slashes for backslashes. -/
def slashed (cs : List Char) : List Char :=
  cs.map fun c => if c == '\\' then '/' else c

theorem dropHere_eq {n : Nat} {cs : List Char} (h : ¬ ['.', '/'] <+: cs) : dropHere n cs = cs := by
  cases n with
  | zero => rfl
  | succ n =>
    unfold dropHere
    split
    case h_1 rest => exact absurd ⟨rest, rfl⟩ h
    case h_2 => rfl

theorem not_begins_here {q : String} {tail : List Char} (hdot : q ≠ ".") (hslash : '/' ∉ q.toList) :
    ¬ ['.', '/'] <+: q.toList ++ '/' :: tail := by
  rintro ⟨rest, hrest⟩
  cases hchars : q.toList with
  | nil =>
    rw [hchars] at hrest
    cases hrest
  | cons c more =>
    rw [hchars] at hrest hslash
    cases more with
    | nil =>
      -- The name would be `.` alone.
      cases hrest
      exact hdot (String.toList_inj.mp (hchars.trans rfl))
    | cons d more =>
      cases hrest
      simp at hslash

/-- What is dropped at the end of a text does not reach over a last character that stays. -/
theorem rdropWhile_append {α : Type} {p : α → Bool} {first : List α} (h : first.rdropWhile p = first)
    (second : List α) : (first ++ second).rdropWhile p = first ++ second.rdropWhile p := by
  induction second using List.reverseRecOn with
  | nil => rw [List.append_nil, h, List.rdropWhile_nil, List.append_nil]
  | append_singleton rest x ih =>
    rw [← List.append_assoc]
    by_cases hx : p x = true
    · rw [List.rdropWhile_concat_pos _ _ _ hx, List.rdropWhile_concat_pos _ _ _ hx, ih]
    · rw [List.rdropWhile_concat_neg _ _ _ hx, List.rdropWhile_concat_neg _ _ _ hx, List.append_assoc]

/-- Slashes at the end of joined texts are empty texts at the end. -/
theorem rdropWhile_joined {qs : List String} (h : ∀ q ∈ qs, '/' ∉ q.toList) :
    (joined qs).rdropWhile (· == '/') = joined (qs.rdropWhile (· == "")) := by
  induction qs using List.reverseRecOn with
  | nil => rfl
  | append_singleton init q ih =>
    have hinit := ih fun r hr => h r (List.mem_append_left _ hr)
    by_cases hq : q = ""
    · subst hq
      rw [List.rdropWhile_concat_pos (· == "") _ _ (beq_self_eq_true ""), ← hinit]
      by_cases hnil : init = []
      · rw [hnil]
        rfl
      · rw [joined_append hnil (List.cons_ne_nil _ _), joined_singleton]
        exact List.rdropWhile_concat_pos (· == '/') _ _ (beq_self_eq_true '/')
    · have hchars : q.toList ≠ [] := fun e => hq (String.toList_inj.mp (e.trans rfl))
      obtain ⟨front, hfront⟩ : ∃ front, joined (init ++ [q]) = front ++ q.toList := by
        by_cases hnil : init = []
        · exact ⟨[], by rw [hnil, List.nil_append, joined_singleton, List.nil_append]⟩
        · exact ⟨joined init ++ ['/'], by
            rw [joined_append hnil (List.cons_ne_nil _ _), joined_singleton, List.append_assoc]; rfl⟩
      rw [List.rdropWhile_concat_neg _ _ _ (by simpa using hq), hfront]
      -- The last character is that of the last text, which holds no slash.
      refine List.rdropWhile_eq_self_iff.mpr fun hl hmem => h q (by simp) ?_
      rw [List.getLast_append_of_ne_nil _ hchars, beq_iff_eq] at hmem
      exact hmem ▸ List.getLast_mem hchars

theorem rdropWhile_names {qs : List String} (h : ∀ q ∈ qs, IsName q) : qs.rdropWhile (· == "") = qs :=
  List.rdropWhile_eq_self_iff.mpr fun hl hmem => (h _ (List.getLast_mem hl)).1 (beq_iff_eq.mp hmem)

theorem normalForm_eq (s : String) : normalForm s =
    (let cs := (dropHere (slashed s.toList).length (slashed s.toList)).rdropWhile (· == '/')
     if cs == ['.'] then [] else cs) :=
  rfl

/-- The normal form of a pattern that is made of names, with slashes or backslashes between them and perhaps
one at the end. -/
theorem normalForm_of_names {s : String} {qs : List String} (hne : qs ≠ []) (h : ∀ q ∈ qs, IsName q)
    (hs : slashed s.toList = joined qs ∨ slashed s.toList = joined qs ++ ['/']) :
    normalForm s = joined qs := by
  have hhere : ¬ ['.', '/'] <+: joined qs ++ ['/'] := by
    obtain ⟨q, rest, rfl⟩ := List.exists_cons_of_ne_nil hne
    have hq := h q (List.mem_cons_self ..)
    by_cases hrest : rest = []
    · rw [hrest, joined_singleton]
      exact not_begins_here hq.2.1 hq.2.2.2
    · rw [joined_cons hrest, List.append_assoc]
      exact not_begins_here hq.2.1 hq.2.2.2
  have hdot : joined qs ≠ ['.'] := by
    intro hdot
    have hqs : qs = ["."] := joined_inj hne (by simp) (fun q hq => (h q hq).2.2.2) (by simp)
      (hdot.trans rfl)
    exact (h "." (by simp [hqs])).2.1 rfl
  have hdrop : ∀ n, (dropHere n (slashed s.toList)).rdropWhile (· == '/') = joined qs := by
    intro n
    have hnames : (joined qs).rdropWhile (· == '/') = joined qs := by
      rw [rdropWhile_joined fun q hq => (h q hq).2.2.2, rdropWhile_names h]
    have hlast := rdropWhile_append hnames
    rcases hs with hs | hs
    · rw [hs, dropHere_eq fun hbegins => hhere (hbegins.trans (List.prefix_append ..)), hnames]
    · -- Only the slash at the end is dropped: no name ends with one.
      rw [hs, dropHere_eq hhere, hlast]
      exact List.append_nil _
  rw [normalForm_eq, hdrop]
  exact if_neg (by simpa using hdot)

/-! ### Elements that match inside a segment -/

/-- Whether an element matches nothing that holds a slash. -/
def Element.inside : Element → Bool
  | .literal c => c != '/'
  | .star | .one => true
  | .anything | .directories => false

/-- What a character of a name stands for, where it is not one of two stars. -/
def Element.ofChar (c : Char) : Element :=
  if c = '*' then .star else if c = '?' then .one else .literal c

theorem Element.inside_ofChar {c : Char} (h : c ≠ '/') : (Element.ofChar c).inside = true := by
  unfold Element.ofChar
  split
  · rfl
  · split
    · rfl
    · exact bne_iff_ne.mpr h

theorem elementsOf_cons {c : Char} {cs : List Char} (h : c = '*' → cs.head? ≠ some '*') :
    elementsOf (c :: cs) = Element.ofChar c :: elementsOf cs := by
  unfold Element.ofChar
  split
  case isTrue hstar =>
    subst hstar
    cases cs with
    | nil => rfl
    | cons d rest =>
      have hd : d ≠ '*' := fun e => h rfl (e ▸ rfl)
      simp [elementsOf, hd]
  case isFalse hstar =>
    split
    case isTrue hone =>
      subst hone
      rfl
    case isFalse => simp [elementsOf, hstar]

/-- The elements of a text without `**` are those of its characters, where no star follows. -/
theorem elementsOf_append {n rest : List Char} (hstars : ¬ ['*', '*'] <:+: n) (hrest : rest.head? ≠ some '*') :
    elementsOf (n ++ rest) = n.map Element.ofChar ++ elementsOf rest := by
  induction n with
  | nil => rfl
  | cons c more ih =>
    -- Two stars in a row would be read as one element.
    have hnext : c = '*' → (more ++ rest).head? ≠ some '*' := by
      rintro rfl hhead
      cases more with
      | nil => exact hrest hhead
      | cons d tail =>
        obtain rfl : d = '*' := Option.some.inj hhead
        exact hstars ⟨[], tail, rfl⟩
    rw [List.cons_append, elementsOf_cons hnext,
      ih fun hinside => hstars (hinside.trans (List.suffix_cons ..).isInfix)]
    rfl

theorem elementsOf_slash (rest : List Char) : elementsOf ('/' :: rest) = .literal '/' :: elementsOf rest :=
  elementsOf_cons (by simp)

theorem matchesThen_append (k : List Char → Bool) (es es' : List Element) :
    matchesThen k (es ++ es') = matchesThen (matchesThen k es') es := by
  funext cs
  induction es generalizing cs with
  | nil => rfl
  | cons e es ih =>
    have ih' : matchesThen k (es ++ es') = matchesThen (matchesThen k es') es := funext ih
    cases e with
    | literal | one => cases cs <;> simp [matchesThen, ih']
    | star | anything | directories => simp [matchesThen, ih']

/-- Elements that match inside a segment match a whole one, where nothing but a slash may follow. -/
theorem matchesThen_segment {k : List Char → Bool} (hk : ∀ d ds, d ≠ '/' → k (d :: ds) = false)
    {es : List Element} (hes : ∀ e ∈ es, e.inside = true) {n : List Char} (hslash : '/' ∉ n)
    {rest : List Char} (hrest : rest = [] ∨ rest.head? = some '/') :
    matchesThen k es (n ++ rest) = (matchesThen List.isEmpty es n && k rest) := by
  induction es generalizing n with
  | nil =>
    cases n with
    | nil => simp [matchesThen]
    | cons d ds =>
      have hd : d ≠ '/' := fun e => hslash (e ▸ List.mem_cons_self ..)
      simp [matchesThen, hk d _ hd]
  | cons e es ih =>
    have ih' := fun {n} => @ih (fun e he => hes e (List.mem_cons_of_mem _ he)) n
    cases e with
    | literal c =>
      have hc : c ≠ '/' := by simpa [Element.inside] using hes _ (List.mem_cons_self ..)
      cases n with
      | nil =>
        cases rest with
        | nil => rfl
        | cons d more =>
          obtain rfl : d = '/' := Option.some.inj (hrest.resolve_left (List.cons_ne_nil _ _))
          simp [matchesThen, hc]
      | cons d ds =>
        simp only [List.cons_append, matchesThen, ih' (fun h => hslash (List.mem_cons_of_mem _ h)),
          Bool.and_assoc]
    | one =>
      cases n with
      | nil =>
        cases rest with
        | nil => rfl
        | cons d more =>
          obtain rfl : d = '/' := Option.some.inj (hrest.resolve_left (List.cons_ne_nil _ _))
          simp [matchesThen]
      | cons d ds =>
        simp only [List.cons_append, matchesThen, ih' (fun h => hslash (List.mem_cons_of_mem _ h)),
          Bool.and_assoc]
    | star =>
      simp only [matchesThen]
      -- The run ends before the slash at the latest.
      induction n with
      | nil =>
        have hempty := ih' (n := []) (by simp)
        cases rest with
        | nil => simpa [afterRun] using hempty
        | cons d more =>
          obtain rfl : d = '/' := Option.some.inj (hrest.resolve_left (List.cons_ne_nil _ _))
          simpa [afterRun] using hempty
      | cons d ds ihn =>
        have hrest := ih' hslash
        rw [List.cons_append] at hrest ⊢
        rw [afterRun, afterRun, hrest, ihn fun h => hslash (List.mem_cons_of_mem _ h)]
        simp only [Bool.and_or_distrib_right, Bool.and_assoc]
    | anything | directories => cases hes _ (List.mem_cons_self ..)

/-- A name matches itself. -/
theorem matchesThen_self {n : List Char} (hslash : '/' ∉ n) :
    matchesThen List.isEmpty (n.map Element.ofChar) n = true := by
  induction n with
  | nil => rfl
  | cons c more ih =>
    have hmore := ih fun h => hslash (List.mem_cons_of_mem _ h)
    have hc : c ≠ '/' := fun e => hslash (e ▸ List.mem_cons_self ..)
    rw [List.map_cons, Element.ofChar]
    split
    case isTrue =>
      -- The run takes the star itself and nothing more.
      have hrun : afterRun (· != '/') (matchesThen List.isEmpty (more.map Element.ofChar)) more = true := by
        cases more with
        | nil => exact hmore
        | cons d rest => rw [afterRun, hmore, Bool.true_or]
      rw [matchesThen, afterRun, hrun, bne_iff_ne.mpr hc, Bool.and_true, Bool.or_true]
    case isFalse =>
      split
      · rw [matchesThen, hmore, bne_iff_ne.mpr hc, Bool.and_true]
      · rw [matchesThen, hmore, beq_self_eq_true, Bool.and_true]

/-- A plain name: in a pattern it stands for itself, wildcards in it aside. -/
def Plain (n : String) : Prop :=
  '/' ∉ n.toList ∧ ¬ ['*', '*'] <:+: n.toList ∧ '\\' ∉ n.toList

instance (n : String) : Decidable (Plain n) :=
  inferInstanceAs (Decidable ('/' ∉ n.toList ∧ ¬ ['*', '*'] <:+: n.toList ∧ '\\' ∉ n.toList))

/-- Below the directories that a pattern begins with, it matches what the rest of it matches there. -/
theorem matchesThen_under {way : List String} (hne : way ≠ []) (hway : ∀ n ∈ way, Plain n)
    (k : List Char → Bool) (pattern cs : List Char) :
    matchesThen k (elementsOf (joined way ++ '/' :: pattern)) (joined way ++ '/' :: cs) =
      matchesThen k (elementsOf pattern) cs := by
  induction way with
  | nil => exact absurd rfl hne
  | cons n rest ih =>
    obtain ⟨hslash, hstars, -⟩ := hway n (List.mem_cons_self ..)
    have step : ∀ pattern cs : List Char, matchesThen k (elementsOf (n.toList ++ '/' :: pattern))
        (n.toList ++ '/' :: cs) = matchesThen k (elementsOf pattern) cs := by
      intro pattern cs
      have hinside : ∀ e ∈ n.toList.map Element.ofChar, e.inside = true := by
        intro e he
        obtain ⟨c, hc, rfl⟩ := List.mem_map.mp he
        exact Element.inside_ofChar fun h => hslash (h ▸ hc)
      rw [elementsOf_append hstars (by simp), elementsOf_slash, matchesThen_append,
        matchesThen_segment ?_ hinside hslash (.inr rfl), matchesThen_self hslash, Bool.true_and]
      · simp [matchesThen]
      · intro d ds hd
        simp [matchesThen, Ne.symm hd]
    by_cases hrest : rest = []
    · rw [hrest, joined_singleton]
      exact step pattern cs
    · rw [joined_cons hrest, List.append_assoc, List.append_assoc, List.cons_append, List.cons_append, step]
      exact ih hrest fun m hm => hway m (List.mem_cons_of_mem _ hm)

/-! ### Patterns below directories -/

/-- The characters of a pattern that is read with its normal form. -/
def expanded (directory : Bool) (cs : List Char) : List Char :=
  if directory && namesDirectory cs then withContents cs else cs

theorem lastSegment_append {a b : List Char} : lastSegment (a ++ '/' :: b) = lastSegment b := by
  unfold lastSegment
  rw [List.reverse_append, List.reverse_cons, List.append_assoc, List.takeWhile_append]
  split
  case isTrue h =>
    have hall : (b.reverse.takeWhile (· != '/')) = b.reverse :=
      (List.takeWhile_prefix _).eq_of_length h
    simp [hall]
  case isFalse => rfl

theorem expanded_append {directory : Bool} {a b : List Char} (hb : b ≠ []) :
    expanded directory (a ++ '/' :: b) = a ++ '/' :: expanded directory b := by
  unfold expanded namesDirectory
  rw [lastSegment_append]
  split
  · unfold withContents
    rw [if_neg (by simp), if_neg (by simpa using hb), List.append_assoc]
    rfl
  · rfl

theorem joined_ne_nil {qs : List String} (hne : qs ≠ []) (h : ∀ q ∈ qs, IsName q) : joined qs ≠ [] := by
  obtain ⟨q, rest, rfl⟩ := List.exists_cons_of_ne_nil hne
  have hq : q.toList ≠ [] := fun e => (h q (List.mem_cons_self ..)).1 (String.toList_inj.mp (e.trans rfl))
  by_cases hrest : rest = []
  · rwa [hrest, joined_singleton]
  · rw [joined_cons hrest]
    simp

theorem selects_eq {s : String} {directory wholeTree : Bool} {path : List String} (h : path ≠ []) :
    (ofString s directory wholeTree).selects (relativeText path) =
      matchesThen (if wholeTree then isBelow else List.isEmpty)
        (elementsOf (expanded directory (normalForm s))) (joined path) := by
  rw [← toList_relativeText h]
  rfl

/-- What a pattern selects under the directories that it begins with. -/
theorem selects_under {s t : String} {way qs own : List String} {directory wholeTree : Bool}
    (hway : ∀ n ∈ way, Plain n) (hqs : qs ≠ []) (hnames : ∀ q ∈ qs, IsName q) (hown : own ≠ [])
    (hs : normalForm s = joined qs) (ht : normalForm t = joined (way ++ qs)) :
    (ofString t directory wholeTree).selects (relativeText (way ++ own)) =
      (ofString s directory wholeTree).selects (relativeText own) := by
  by_cases hne : way = []
  · subst hne
    rw [List.nil_append, selects_eq hown, selects_eq hown, hs, ht]
    rfl
  · rw [selects_eq hown, selects_eq (List.append_ne_nil_of_right_ne_nil _ hown), hs, ht,
      joined_append hne hqs, joined_append hne hown, expanded_append (joined_ne_nil hqs hnames),
      matchesThen_under hne hway]

/-! ### Patterns that lead up -/

/-- Characters that begin with the segment `..`. -/
def LeadsUp (cs : List Char) : Prop :=
  ∃ rest, cs = '.' :: '.' :: rest ∧ (rest = [] ∨ rest.head? = some '/')

/-- No path of names begins with `..`. -/
theorem not_leadsUp_joined {ss : List String} (hne : ss ≠ []) (h : ∀ s ∈ ss, IsName s) :
    ¬ LeadsUp (joined ss) := by
  rintro ⟨rest, hrest, hend⟩
  have hsplit : ∃ more, splitSlash (joined ss) = ['.', '.'] :: more := by
    rw [hrest]
    rcases hend with rfl | hslash
    · exact ⟨[], rfl⟩
    · obtain ⟨tail, rfl⟩ := List.head?_eq_some_iff.mp hslash
      have hup : '/' ∉ ['.', '.'] := by decide
      exact ⟨splitSlash tail, splitSlash_append tail hup⟩
  obtain ⟨more, hmore⟩ := hsplit
  unfold joined at hmore
  rw [splitSlash_joined hne fun s hs => (h s hs).2.2.2] at hmore
  obtain ⟨s, tail, rfl⟩ := List.exists_cons_of_ne_nil hne
  have hs : s.toList = "..".toList := (List.cons.inj hmore).1
  exact (h s (List.mem_cons_self ..)).2.2.1 (String.toList_inj.mp hs)

/-- A pattern that leads up still does in its normal form. -/
theorem leadsUp_normalForm {s : String} (h : LeadsUp s.toList) : LeadsUp (normalForm s) := by
  obtain ⟨rest, hrest, hend⟩ := h
  have hslashed : slashed s.toList = ['.', '.'] ++ slashed rest := by
    rw [hrest]
    rfl
  have hhere : ¬ ['.', '/'] <+: slashed s.toList := by
    rw [hslashed]
    rintro ⟨tail, htail⟩
    simp at htail
  have hup : (['.', '.'] : List Char).rdropWhile (· == '/') = ['.', '.'] := rfl
  rw [normalForm_eq, dropHere_eq hhere, hslashed, rdropWhile_append hup]
  refine ⟨(slashed rest).rdropWhile (· == '/'), if_neg (by simp), ?_⟩
  by_cases hnil : (slashed rest).rdropWhile (· == '/') = []
  · exact .inl hnil
  · right
    -- What is left begins as the text does.
    have hbegins := List.rdropWhile_prefix (· == '/') (slashed rest)
    obtain ⟨c, more, hmore⟩ := List.exists_cons_of_ne_nil hnil
    rw [hmore] at hbegins ⊢
    rcases hend with rfl | hslash
    · exact absurd (List.prefix_nil.mp hbegins) (List.cons_ne_nil _ _)
    · obtain ⟨tail, rfl⟩ := List.head?_eq_some_iff.mp hslash
      exact congrArg some (List.cons_prefix_cons.mp hbegins).1

theorem eq_cons_of_literal {k : List Char → Bool} {c : Char} {es : List Element} {cs : List Char}
    (h : matchesThen k (.literal c :: es) cs = true) :
    ∃ tail, cs = c :: tail ∧ matchesThen k es tail = true := by
  cases cs with
  | nil => cases h
  | cons d tail =>
    obtain ⟨hd, htail⟩ := (Bool.and_eq_true _ _).mp h
    exact ⟨tail, by rw [beq_iff_eq.mp hd], htail⟩

/-- What matches a text that leads up leads up itself. -/
theorem leadsUp_of_matchesThen {wholeTree : Bool} {pattern cs : List Char} (h : LeadsUp pattern)
    (hmatches : matchesThen (if wholeTree then isBelow else List.isEmpty) (elementsOf pattern) cs = true) :
    LeadsUp cs := by
  obtain ⟨rest, rfl, hend⟩ := h
  have hdots : elementsOf ('.' :: '.' :: rest) = .literal '.' :: .literal '.' :: elementsOf rest := by
    rw [elementsOf_cons (by simp), elementsOf_cons (by simp)]
    rfl
  rw [hdots] at hmatches
  obtain ⟨more, rfl, hmore⟩ := eq_cons_of_literal hmatches
  obtain ⟨tail, rfl, htail⟩ := eq_cons_of_literal hmore
  refine ⟨tail, rfl, ?_⟩
  rcases hend with rfl | hslash
  · -- Behind the whole pattern stands nothing, or a slash.
    cases tail with
    | nil => exact .inl rfl
    | cons c more =>
      cases wholeTree with
      | true => exact .inr (congrArg some (beq_iff_eq.mp ((Bool.and_eq_true _ _).mp htail).1))
      | false => cases htail
  · obtain ⟨more, rfl⟩ := List.head?_eq_some_iff.mp hslash
    have hslash : elementsOf ('/' :: more) = .literal '/' :: elementsOf more := elementsOf_cons (by simp)
    rw [hslash] at htail
    obtain ⟨tail, rfl, -⟩ := eq_cons_of_literal htail
    exact .inr rfl

/-- A pattern that leads up selects nothing. -/
theorem not_selects_of_leadsUp {s : String} {directory wholeTree : Bool} {path : List String}
    (h : LeadsUp s.toList) (hne : path ≠ []) (hnames : ∀ n ∈ path, IsName n) :
    (ofString s directory wholeTree).selects (relativeText path) = false := by
  rw [selects_eq hne]
  obtain ⟨rest, hrest, hend⟩ := leadsUp_normalForm h
  have hexpanded : LeadsUp (expanded directory (normalForm s)) := by
    rw [hrest]
    unfold expanded
    split
    case isFalse => exact ⟨rest, rfl, hend⟩
    case isTrue hnames =>
      cases rest with
      | nil => simp [namesDirectory, lastSegment] at hnames
      | cons c tail => exact ⟨c :: tail ++ "/**/*".toList, rfl, .inr (hend.resolve_left (List.cons_ne_nil _ _))⟩
  exact Bool.eq_false_iff.mpr fun hmatches =>
    not_leadsUp_joined hne hnames (leadsUp_of_matchesThen hexpanded hmatches)

end Glob
end Codemod
