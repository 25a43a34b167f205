import Mathlib.Data.List.TakeWhile
import Codemod.Proofs.CleanPath
import Codemod.RootedImport

/-!
# What a rooted specifier resolves to

A rooted specifier leaves out the extension of its target and a final `/index`. Resolution puts them back
by trying candidates in a fixed order, so that another file of the project can be found first: one of the
same name with an extension that is tried earlier, the source of an emitted file of that name, or a file
beside the directory that an index file stands for.

Main statements:

* `RootedSpecifier.ofParts_joined` says what text stands for the parts of a target;
* `RootedSpecifier.candidates_eq` says which candidates are tried before the target;
* `rooted_specifier_resolves_iff` says when a specifier means the same file after it was rewritten.
-/

namespace Codemod

open Resolution

namespace Text

/-- An end without a slash is an end of what follows the last slash. -/
theorem dropSuffix?_joined {tail name : String} (pre : String) (h : '/' ∉ tail.toList) :
    dropSuffix? tail (pre ++ "/" ++ name) = (dropSuffix? tail name).map (pre ++ "/" ++ ·) := by
  cases hname : dropSuffix? tail name with
  | some r =>
    rw [Option.map_some, dropSuffix?_eq_some_iff, dropSuffix?_eq_some_iff.mp hname]
    exact String.append_assoc.symm
  | none =>
    rw [Option.map_none]
    refine Option.eq_none_iff_forall_ne_some.mpr fun r hr => ?_
    have heq := congrArg String.toList (dropSuffix?_eq_some_iff.mp hr)
    simp only [String.toList_append] at heq
    rcases List.append_eq_append_iff.mp heq with ⟨c, -, hc⟩ | ⟨c, hc, htail⟩
    · have : dropSuffix? tail name = some (String.ofList c) := by
        rw [dropSuffix?_eq_some_iff, ← String.toList_inj, hc]
        simp
      rw [this] at hname
      cases hname
    · cases hlast : c.reverse with
      | nil =>
        obtain rfl : c = [] := by simpa using hlast
        have : dropSuffix? tail name = some "" := by
          rw [dropSuffix?_eq_some_iff, ← String.toList_inj, String.toList_append, htail]
          simp
        rw [this] at hname
        cases hname
      | cons d more =>
        obtain rfl : c = more.reverse ++ [d] := by simpa using congrArg List.reverse hlast
        have hd : d = '/' := by
          have hends := congrArg List.getLast? hc
          rw [← List.append_assoc, List.getLast?_concat] at hends
          simpa using hends.symm
        refine h ?_
        rw [htail, hd]
        simp

/-- What follows the last slash is determined by the whole. -/
theorem joined_inj {p q s t : String} (hs : '/' ∉ s.toList) (ht : '/' ∉ t.toList)
    (h : p ++ "/" ++ s = q ++ "/" ++ t) : p = q ∧ s = t := by
  have key : ∀ a b c d : List Char, '/' ∉ b → '/' ∉ d → a ++ '/' :: b = c ++ '/' :: d →
      a = c ∧ b = d := by
    intro a b c d hb hd heq
    rcases List.append_eq_append_iff.mp heq with ⟨e, rfl, he⟩ | ⟨e, rfl, he⟩
    · cases e with
      | nil => simpa using he
      | cons x more =>
        rw [List.cons_append, List.cons.injEq] at he
        exact absurd (by rw [he.2]; simp) hb
    · cases e with
      | nil => simpa using he.symm
      | cons x more =>
        rw [List.cons_append, List.cons.injEq] at he
        exact absurd (by rw [he.2]; simp) hd
  have heq := congrArg String.toList h
  simp only [String.toList_append, List.append_assoc] at heq
  obtain ⟨hpq, hst⟩ := key _ _ _ _ hs ht heq
  exact ⟨String.toList_inj.mp hpq, String.toList_inj.mp hst⟩

end Text

namespace RootedSpecifier

theorem dropFirstSuffix_joined {name : String} (pre : String) {ends : List String}
    (h : ∀ e ∈ ends, '/' ∉ e.toList) :
    dropFirstSuffix (pre ++ "/" ++ name) ends = pre ++ "/" ++ dropFirstSuffix name ends := by
  induction ends with
  | nil => rfl
  | cons e rest ih =>
    unfold dropFirstSuffix
    rw [Text.dropSuffix?_joined pre (h e (by simp))]
    cases Text.dropSuffix? e name with
    | some r => rfl
    | none => exact ih fun x hx => h x (List.mem_cons_of_mem _ hx)

/-- A text that has one of the given ends is what is left of it with one of them behind. -/
theorem exists_dropped {s : String} {ends : List String} (h : ∃ e ∈ ends, ∃ r, s = r ++ e) :
    ∃ e ∈ ends, s = dropFirstSuffix s ends ++ e := by
  induction ends with
  | nil =>
    obtain ⟨e, he, -⟩ := h
    cases he
  | cons e rest ih =>
    unfold dropFirstSuffix
    cases hd : Text.dropSuffix? e s with
    | some r => exact ⟨e, by simp, Text.dropSuffix?_eq_some_iff.mp hd⟩
    | none =>
      obtain ⟨e', he', r, hr⟩ := h
      rcases List.mem_cons.mp he' with rfl | he'
      · rw [Text.dropSuffix?_eq_some_iff.mpr hr] at hd
        cases hd
      · obtain ⟨x, hx, heq⟩ := ih ⟨e', he', r, hr⟩
        exact ⟨x, List.mem_cons_of_mem _ hx, heq⟩

theorem toList_dropFirstSuffix_subset (s : String) (ends : List String) :
    ∀ c ∈ (dropFirstSuffix s ends).toList, c ∈ s.toList := by
  induction ends with
  | nil => exact fun c hc => hc
  | cons e rest ih =>
    unfold dropFirstSuffix
    cases hd : Text.dropSuffix? e s with
    | some r =>
      intro c hc
      rw [Text.dropSuffix?_eq_some_iff.mp hd, String.toList_append]
      exact List.mem_append_left _ hc
    | none => exact ih

/-- The name of a file without its extension. -/
def shortName (name : String) : String :=
  dropFirstSuffix name droppedExtensions

/-- Whether the specifier of a target names the directory that the target stands for. -/
def NamesDirectory (folders : List String) (name : String) : Prop :=
  shortName name = indexName ∧ folders ≠ []

instance (folders : List String) (name : String) : Decidable (NamesDirectory folders name) :=
  inferInstanceAs (Decidable (_ ∧ _))

/-- The parts that the specifier of a target is made of: an index file is left out when there is a
directory that it stands for. -/
def shortParts (folders : List String) (name : String) : List String :=
  if NamesDirectory folders name then folders else folders ++ [shortName name]

/-- The text that stands for the parts of a target. -/
theorem ofParts_joined {folders : List String} {name : String} (h : '/' ∉ name.toList) :
    ofParts (folders ++ [name]) = "/".intercalate (shortParts folders name) := by
  have hends : ∀ e ∈ droppedExtensions, '/' ∉ e.toList := by decide
  have hshort : '/' ∉ (shortName name).toList :=
    fun hmem => h (toList_dropFirstSuffix_subset _ _ _ hmem)
  unfold ofParts shortParts
  dsimp only
  by_cases hfolders : folders = []
  · subst hfolders
    rw [List.nil_append, String.intercalate_singleton, if_neg (fun hc : NamesDirectory [] name => hc.2 rfl),
      List.nil_append, String.intercalate_singleton]
    show (Text.dropSuffix? ("/" ++ indexName) (shortName name)).getD _ = _
    cases hd : Text.dropSuffix? ("/" ++ indexName) (shortName name) with
    | none => rfl
    | some r =>
      refine absurd ?_ hshort
      rw [Text.dropSuffix?_eq_some_iff.mp hd]
      simp
  · rw [String.intercalate_append_of_ne_nil hfolders (by simp), String.intercalate_singleton,
      dropFirstSuffix_joined _ hends]
    show (Text.dropSuffix? ("/" ++ indexName) ("/".intercalate folders ++ "/" ++
      shortName name)).getD _ = _
    by_cases hindex : shortName name = indexName
    · rw [if_pos (show NamesDirectory folders name from ⟨hindex, hfolders⟩), hindex, Text.dropSuffix?_eq_some_iff.mpr
        String.append_assoc, Option.getD_some]
    · rw [if_neg fun hc : NamesDirectory folders name => hindex hc.1,
        String.intercalate_append_of_ne_nil hfolders (by simp), String.intercalate_singleton]
      cases hd : Text.dropSuffix? ("/" ++ indexName) ("/".intercalate folders ++ "/" ++
        shortName name) with
      | none => rfl
      | some r =>
        have heq := Text.dropSuffix?_eq_some_iff.mp hd
        rw [← String.append_assoc] at heq
        exact absurd (Text.joined_inj hshort (by decide) heq).2 hindex

end RootedSpecifier

/-! ### The candidates of a place -/

namespace Resolution

variable {p q : Path} {n : String}

theorem renamed_eq_ok (h : renamed p n = .ok q) :
    p.name ≠ "" ∧ n ≠ "" ∧ n ≠ "." ∧ q = p.replaceName n := by
  unfold renamed at h
  split at h
  · cases h
  · split at h
    · cases h
    · rename_i hp hn
      cases h
      simp only [Bool.or_eq_true, decide_eq_true_eq, not_or] at hn
      exact ⟨hp, hn.1, hn.2, rfl⟩

theorem renamed_of_name (hp : p.name ≠ "") (hn : n ≠ "") (hdot : n ≠ ".") :
    renamed p n = .ok (p.replaceName n) := by
  unfold renamed
  rw [if_neg hp, if_neg (by simp [hn, hdot])]

/-- A source candidate has the name of the place with the end of an emitted file replaced by that of a
source. -/
theorem mem_sourceCandidates (h : .ok q ∈ sourceCandidates p) :
    ∃ e ∈ emitted, ∃ r, p.name = r ++ e.1 ∧ ∃ ext ∈ e.2, q = p.replaceName (r ++ ext) := by
  unfold sourceCandidates at h
  obtain ⟨e, he, hq⟩ := List.mem_flatMap.mp h
  cases hd : Text.dropSuffix? e.1 p.name with
  | none => rw [hd] at hq; cases hq
  | some r =>
    rw [hd] at hq
    dsimp only at hq
    cases hr : renamed p r with
    | error f =>
      rw [hr] at hq
      simp at hq
    | ok stem =>
      rw [hr] at hq
      obtain ⟨ext, hext, hq⟩ := List.mem_map.mp hq
      obtain ⟨-, -, -, rfl⟩ := renamed_eq_ok hr
      obtain ⟨-, -, -, rfl⟩ := renamed_eq_ok hq
      rw [Path.name_replaceName, Path.replaceName_replaceName]
      exact ⟨e, he, r, Text.dropSuffix?_eq_some_iff.mp hd, ext, hext, rfl⟩

theorem emitted_sources (c : Config) : ∀ e ∈ emitted, ∀ ext ∈ e.2, ext ∈ extensions c := by
  have hbasic : ∀ e ∈ emitted, ∀ ext ∈ e.2, ext ∈ [".ts", ".tsx", ".d.ts", ".mts", ".cts"] := by
    decide
  exact fun e he ext hext => List.mem_append_left _ (hbasic e he ext hext)

/-- Every candidate ends with an extension that may be left out. -/
theorem candidate_name {c : Config} {t : Path} (h : .ok t ∈ placeCandidates (extensions c) p) :
    ∃ ext ∈ extensions c, ∃ base, t.name = base ++ ext := by
  unfold placeCandidates at h
  simp only [List.mem_append] at h
  rcases h with ((h | h) | h) | h
  · split at h
    · rename_i hext
      obtain rfl : t = p := by simpa using h
      exact ⟨t.extension, by simpa using hext, t.stem, (Path.stem_append_extension t).symm⟩
    · cases h
  · obtain ⟨e, he, r, -, ext, hext, rfl⟩ := mem_sourceCandidates h
    exact ⟨ext, emitted_sources c e he ext hext, r, Path.name_replaceName ..⟩
  · obtain ⟨ext, hext, hq⟩ := List.mem_map.mp h
    obtain ⟨-, -, -, rfl⟩ := renamed_eq_ok hq
    exact ⟨ext, hext, p.name, Path.name_replaceName ..⟩
  · obtain ⟨ext, hext, hq⟩ := List.mem_map.mp h
    cases hq
    exact ⟨ext, hext, indexName, by simp [Path.child, Path.name]⟩

/-- A candidate is as deep as its place, or an index file one level below. -/
theorem candidate_depth {exts : List String} {t : Path} (h : .ok t ∈ placeCandidates exts p) :
    t.segments.length = p.segments.length ∨ ∃ ext ∈ exts, t = p.child (indexName ++ ext) := by
  have hrenamed : ∀ n, p.name ≠ "" → t = p.replaceName n →
      t.segments.length = p.segments.length := by
    rintro n hp rfl
    exact Path.length_replaceName (fun e => hp (by simp [Path.name, e])) n
  unfold placeCandidates at h
  simp only [List.mem_append] at h
  rcases h with ((h | h) | h) | h
  · split at h
    · obtain rfl : t = p := by simpa using h
      exact .inl rfl
    · cases h
  · obtain ⟨e, he, r, hp, ext, -, ht⟩ := mem_sourceCandidates h
    refine .inl (hrenamed _ (fun hempty => ?_) ht)
    have hne : ∀ e ∈ emitted, e.1 ≠ "" := by decide
    rw [hempty] at hp
    exact hne e he (String.append_eq_empty_iff.mp hp.symm).2
  · obtain ⟨ext, -, hq⟩ := List.mem_map.mp h
    obtain ⟨hp, -, -, ht⟩ := renamed_eq_ok hq
    exact .inl (hrenamed _ hp ht)
  · obtain ⟨ext, hext, hq⟩ := List.mem_map.mp h
    cases hq
    exact .inr ⟨ext, hext, rfl⟩

/-- A known candidate is found exactly when all those before it can be formed and none of them is
known. -/
theorem firstKnown_append_iff {known : Path → Bool} {before after : List Candidate} {t : Path}
    (ht : known t = true) (hfresh : .ok t ∉ before) :
    firstKnown known (before ++ .ok t :: after) = .ok (some t) ↔
      ∀ x ∈ before, ∃ q, x = .ok q ∧ known q = false := by
  induction before with
  | nil => simp [firstKnown, ht]
  | cons x rest ih =>
    obtain ⟨hx, hrest⟩ := not_or.mp (List.mem_cons.not.mp hfresh)
    rw [List.cons_append]
    cases x with
    | error f => simp [firstKnown]
    | ok q =>
      unfold firstKnown
      by_cases hq : known q = true
      · rw [if_pos hq]
        constructor
        · intro h
          exact absurd (by rw [Option.some.inj (Except.ok.inj h)]) hx
        · intro h
          obtain ⟨q', heq, hq'⟩ := h (.ok q) (by simp)
          cases heq
          rw [hq] at hq'
          cases hq'
      · rw [if_neg hq, ih hrest]
        simp [Bool.eq_false_iff.mpr hq]

end Resolution

/-! ### What is tried before a target -/

namespace RootedSpecifier

/-- The extensions that are tried before that of a target. -/
def earlierExtensions (exts : List String) (t : Path) : List String :=
  exts.takeWhile fun ext => shortName t.name ++ ext != t.name

/-- The place that the specifier of a target leads to. -/
def shortPlace (folders : List String) (t : Path) : Path :=
  if NamesDirectory folders t.name then t.parent else t.replaceName (shortName t.name)

/-- The candidates that are tried before a target when its specifier is resolved: the place itself, the
sources that it may be emitted from, and the same name with an extension that is tried earlier. Before an
index file also all files beside its directory are tried that have the name of the directory. -/
def rivals (exts folders : List String) (t : Path) : List Candidate :=
  let p := shortPlace folders t
  (if exts.contains p.extension then [.ok p] else []) ++ sourceCandidates p ++
    if NamesDirectory folders t.name then
      exts.map (fun ext => renamed p (p.name ++ ext)) ++
        (earlierExtensions exts t).map fun ext => .ok (t.replaceName (shortName t.name ++ ext))
    else (earlierExtensions exts t).map fun ext => .ok (t.replaceName (shortName t.name ++ ext))

theorem extensions_long (c : Config) : ∀ e ∈ extensions c, 3 ≤ e.length := by
  unfold extensions
  cases c.allowJs <;> decide

/-- What is left out of the name of a target is an extension that is tried. -/
theorem exists_extension {c : Config} {name : String} (h : ∃ e ∈ extensions c, ∃ r, name = r ++ e) :
    ∃ e ∈ extensions c, name = shortName name ++ e := by
  obtain ⟨ext, hext, r, hr⟩ := h
  have hall : ext ∈ droppedExtensions := by
    have hsub : ∀ e ∈ extensions c, e ∈ droppedExtensions := by
      unfold extensions
      cases c.allowJs <;> decide
    exact hsub ext hext
  obtain ⟨e, he, heq⟩ : ∃ e ∈ droppedExtensions, name = shortName name ++ e :=
    exists_dropped ⟨ext, hall, r, hr⟩
  refine ⟨e, ?_, heq⟩
  cases hjs : c.allowJs with
  | true =>
    have hsub : ∀ e ∈ droppedExtensions, e ∈ [".ts", ".tsx", ".d.ts", ".mts", ".cts"] ++
        [".js", ".jsx", ".mjs", ".cjs"] := by decide
    unfold extensions
    rw [hjs]
    exact hsub e he
  | false =>
    -- No text ends both with the extension of a script and with one that is tried.
    have hends : ∀ e ∈ droppedExtensions, ∀ x ∈ [".ts", ".tsx", ".d.ts", ".mts", ".cts"],
        e ∈ [".ts", ".tsx", ".d.ts", ".mts", ".cts"] ∨
          e.toList.reverse.take 3 ≠ x.toList.reverse.take 3 := by decide
    unfold extensions at hext ⊢
    rw [hjs] at hext ⊢
    simp only [Bool.false_eq_true, if_false, List.append_nil] at hext ⊢
    rcases hends e he ext hext with hmem | hne
    · exact hmem
    · have htail := congrArg (fun s => s.toList.reverse.take 3) (heq.symm.trans hr)
      have hlong : ∀ x ∈ droppedExtensions, 3 ≤ x.toList.reverse.length := by decide
      simp only [String.toList_append, List.reverse_append] at htail
      rw [List.take_append_of_le_length (hlong e he),
        List.take_append_of_le_length (hlong ext hall)] at htail
      exact absurd htail hne

theorem exists_takeWhile_append {α : Type} {f : α → Bool} {l : List α} (h : ∃ a ∈ l, f a = false) :
    ∃ a rest, l = l.takeWhile f ++ a :: rest ∧ f a = false := by
  have hhead := List.head?_dropWhile_not f l
  have hall := List.takeWhile_append_dropWhile (p := f) (l := l)
  cases hdrop : l.dropWhile f with
  | nil =>
    obtain ⟨a, ha, hf⟩ := h
    rw [List.dropWhile_eq_nil_iff.mp hdrop a ha] at hf
    cases hf
  | cons a rest =>
    rw [hdrop] at hhead hall
    exact ⟨a, rest, hall.symm, hhead⟩

variable {c : Config} {folders : List String} {t : Path}

/-- Resolving the specifier of a target tries its rivals and then the target. -/
theorem candidates_eq (hne : t.segments ≠ []) (hshort : IsName (shortName t.name))
    (hext : ∃ e ∈ extensions c, t.name = shortName t.name ++ e) :
    ∃ more, placeCandidates (extensions c) (shortPlace folders t) =
      rivals (extensions c) folders t ++ .ok t :: more := by
  obtain ⟨e, rest, hsplit, he⟩ := exists_takeWhile_append
    (f := fun ext => shortName t.name ++ ext != t.name) (l := extensions c) (by
      obtain ⟨e, he, heq⟩ := hext
      exact ⟨e, he, by simp [← heq]⟩)
  have hname : shortName t.name ++ e = t.name := by simpa using he
  have htarget : t.replaceName (shortName t.name ++ e) = t := by
    rw [hname, Path.replaceName_name hne]
  have hlast : (extensions c).map (fun ext => (.ok (t.replaceName (shortName t.name ++ ext)) :
      Candidate)) = (earlierExtensions (extensions c) t).map
        (fun ext => .ok (t.replaceName (shortName t.name ++ ext))) ++ .ok t ::
          rest.map fun ext => .ok (t.replaceName (shortName t.name ++ ext)) := by
    conv => lhs; rw [hsplit]
    rw [List.map_append, List.map_cons, htarget]
    rfl
  unfold rivals placeCandidates shortPlace
  by_cases hdir : NamesDirectory folders t.name
  · have hchild : ∀ ext, t.parent.child (indexName ++ ext) =
        t.replaceName (shortName t.name ++ ext) := fun ext => by rw [hdir.1]; rfl
    simp only [if_pos hdir, hchild, hlast]
    exact ⟨_, by simp only [List.append_assoc]; rfl⟩
  · have hplain : ∀ ext ∈ extensions c, renamed (t.replaceName (shortName t.name))
        ((t.replaceName (shortName t.name)).name ++ ext) =
          .ok (t.replaceName (shortName t.name ++ ext)) := by
      intro ext hmem
      rw [Path.name_replaceName, renamed_of_name, Path.replaceName_replaceName]
      · rw [Path.name_replaceName]
        exact hshort.1
      · intro hempty
        exact hshort.1 (String.append_eq_empty_iff.mp hempty).1
      · intro hdot
        have hlong := extensions_long c ext hmem
        have hlen := congrArg String.length hdot
        rw [String.length_append] at hlen
        have : (".").length = 1 := rfl
        omega
    simp only [if_neg hdir, List.map_congr_left hplain, hlast]
    exact ⟨_, by simp only [List.append_assoc]; rfl⟩

/-- A target is none of its rivals. -/
theorem target_not_mem_rivals (hne : t.segments ≠ [])
    (hext : ∃ e ∈ extensions c, t.name = shortName t.name ++ e) :
    .ok t ∉ rivals (extensions c) folders t := by
  obtain ⟨e, he, heq⟩ := hext
  have hlong := extensions_long c e he
  have hlen : t.name.length = (shortName t.name).length + e.length := by
    conv => lhs; rw [heq]
    rw [String.length_append]
  have hearlier : (.ok t : Candidate) ∉ (earlierExtensions (extensions c) t).map
      (fun ext => .ok (t.replaceName (shortName t.name ++ ext))) := by
    intro hmem
    obtain ⟨ext, hext, hq⟩ := List.mem_map.mp hmem
    have hne := SourceFile.mem_takeWhile hext
    have hname := congrArg Path.name (Except.ok.inj hq)
    rw [Path.name_replaceName] at hname
    simp [hname] at hne
  -- Neither the place itself nor a file with another name at its depth is the target.
  have hplace : t ≠ shortPlace folders t ∧ .ok t ∉ sourceCandidates (shortPlace folders t) := by
    unfold shortPlace
    by_cases hdir : NamesDirectory folders t.name
    · rw [if_pos hdir]
      have hdepth : t.parent.segments.length < t.segments.length := by
        have hpos := List.length_pos_iff.mpr hne
        rw [Path.parent, List.length_dropLast]
        omega
      refine ⟨fun heq => by rw [← heq] at hdepth; omega, fun hmem => ?_⟩
      have hcandidate : .ok t ∈ placeCandidates [] t.parent := by
        unfold placeCandidates
        simp [hmem]
      rcases candidate_depth hcandidate with h | ⟨ext, hmem, -⟩
      · omega
      · cases hmem
    · rw [if_neg hdir]
      refine ⟨fun heq => ?_, fun hmem => ?_⟩
      · have hname := congrArg (fun p => p.name.length) heq
        simp only [Path.name_replaceName] at hname
        omega
      · obtain ⟨x, hx, r, hr, ext, hext, hq⟩ := mem_sourceCandidates hmem
        have hshort : ∀ x ∈ emitted, 3 ≤ x.1.length ∧ ∀ ext ∈ x.2, ext.length ≤ 4 := by decide
        have hrlen := congrArg String.length hr
        have hqlen := congrArg (fun p => p.name.length) hq
        simp only [Path.name_replaceName, String.length_append] at hrlen hqlen
        have := (hshort x hx).1
        have := (hshort x hx).2 ext hext
        omega
  unfold rivals
  simp only [List.mem_append, not_or]
  refine ⟨⟨fun hmem => ?_, hplace.2⟩, ?_⟩
  · split at hmem
    · exact hplace.1 (Except.ok.inj (List.mem_singleton.mp hmem))
    · cases hmem
  · split
    · rename_i hdir
      rw [List.mem_append, not_or]
      refine ⟨fun hmem => ?_, hearlier⟩
      obtain ⟨ext, -, hq⟩ := List.mem_map.mp hmem
      obtain ⟨hp, -, -, ht⟩ := renamed_eq_ok hq
      have hnonempty : (shortPlace folders t).segments ≠ [] :=
        fun e => hp (by simp [Path.name, e])
      have hdepth := congrArg (fun p => p.segments.length) ht
      simp only [Path.length_replaceName hnonempty] at hdepth
      have hpos := List.length_pos_iff.mpr hne
      rw [shortPlace, if_pos hdir, Path.parent, List.length_dropLast] at hdepth
      omega
    · exact hearlier

end RootedSpecifier

/-! ### From the base directory to the target -/

namespace Resolution

/-- A text that begins with a name is read from the base directory. -/
theorem places_joined {c : Config} {base : Path} (ha : c.aliases = []) (hb : c.baseUrl = some base)
    (importer : Path) {a : String} {rest : List String} (hname : IsName a)
    (hslash : ∀ s ∈ a :: rest, '/' ∉ s.toList) :
    places c importer ("/".intercalate (a :: rest)) =
      .ok [base.joinText ("/".intercalate (a :: rest))] := by
  generalize hs : "/".intercalate (a :: rest) = s
  -- The first piece between slashes is the name.
  have hfirst : ∀ x more, Path.splitSlash s.toList = x :: more → a.toList = x := by
    intro x more h
    rw [← hs, Path.splitSlash_joined (by simp) hslash] at h
    exact (List.cons.inj h).1
  have hprefix : ∀ x : List Char, '/' ∉ x → String.ofList x ≠ a → ∀ more, s.toList ≠ x ++ '/' :: more := by
    intro x hx hne more heq
    refine hne ?_
    rw [hfirst x _ (by rw [heq, Path.splitSlash_append _ hx]) |>.symm, String.ofList_toList]
  have hwhole : ∀ x : List Char, '/' ∉ x → String.ofList x ≠ a → s ≠ String.ofList x := by
    intro x hx hne heq
    refine hne ?_
    rw [hfirst x [] (by rw [heq, String.toList_ofList, Path.splitSlash_of_not_mem hx]) |>.symm,
      String.ofList_toList]
  obtain ⟨hempty, hdot, hdots, -⟩ := hname
  have hrel : isRelative s = false := by
    rw [Bool.eq_false_iff]
    intro h
    simp only [isRelative, Text.hasPrefix, Bool.or_eq_true, List.isPrefixOf_iff_prefix] at h
    rcases h with ⟨more, h⟩ | ⟨more, h⟩
    · exact hprefix ['.'] (by decide) (fun e => hdot e.symm) more h.symm
    · exact hprefix ['.', '.'] (by decide) (fun e => hdots e.symm) more h.symm
  have hroot : Text.hasPrefix "/" s = false := by
    rw [Bool.eq_false_iff]
    intro h
    obtain ⟨more, h⟩ := List.isPrefixOf_iff_prefix.mp h
    exact hprefix [] (by simp) (fun e => hempty e.symm) more h.symm
  have hone : s ≠ "." := hwhole ['.'] (by decide) fun e => hdot e.symm
  have htwo : s ≠ ".." := hwhole ['.', '.'] (by decide) fun e => hdots e.symm
  unfold places aliasPlaces
  simp only [hrel, hone, htwo, hroot, ha, hb]
  rfl

theorem places_empty {c : Config} {base : Path} (ha : c.aliases = []) (hb : c.baseUrl = some base)
    (importer : Path) : places c importer "" = .ok [base.joinText ""] := by
  unfold places aliasPlaces
  simp only [ha, hb]
  rfl

theorem resolve_of_places {c : Config} {known : Path → Bool} {importer p : Path} {spec : String}
    (h : places c importer spec = .ok [p]) :
    resolve c known importer spec = firstKnown known (placeCandidates (extensions c) p.normalize) := by
  unfold resolve candidates
  simp only [h, bind, Except.bind, pure, Except.pure, List.flatMap_singleton]

end Resolution

/-- Bare specifiers are read from the directory directly above the first segment that is the marker, on
the way from the root of the project down to a target. -/
structure BasedAbove (c : Config) (marker : String) (t : Path) (above below : List String) : Prop where
  way : c.root.below? t = some (above ++ marker :: below)
  first : marker ∉ above
  base : c.baseUrl = some ⟨c.root.anchor, c.root.segments ++ above⟩

namespace BasedAbove

variable {c : Config} {marker : String} {t : Path} {above below : List String}

theorem anchor_eq (h : BasedAbove c marker t above below) : t.anchor = c.root.anchor := by
  have hway := h.way
  unfold Path.below? at hway
  split at hway
  · rename_i hand
    simp only [Bool.and_eq_true, decide_eq_true_eq] at hand
    exact hand.1.symm
  · cases hway

theorem segments_eq (h : BasedAbove c marker t above below) :
    t.segments = c.root.segments ++ above ++ marker :: below := by
  have hway := h.way
  unfold Path.below? at hway
  split at hway
  · rename_i hand
    simp only [Bool.and_eq_true, decide_eq_true_eq, List.isPrefixOf_iff_prefix] at hand
    obtain ⟨rest, hrest⟩ := hand.2
    rw [← hrest, List.drop_left] at hway
    rw [← hrest, Option.some.inj hway, List.append_assoc]
  · cases hway

theorem segments_ne_nil (h : BasedAbove c marker t above below) : t.segments ≠ [] := by
  rw [h.segments_eq]
  simp

/-- The directories from the marker down to the target. -/
def folders (marker : String) (below : List String) : List String := (marker :: below).dropLast

theorem folders_append_name (h : BasedAbove c marker t above below) :
    folders marker below ++ [t.name] = marker :: below := by
  have hname : t.name = (marker :: below).getLast (by simp) := by
    unfold Path.name
    rw [h.segments_eq, List.getLast?_append_of_ne_nil _ (by simp),
      List.getLast?_eq_getLast_of_ne_nil (by simp), Option.getD_some]
  rw [hname]
  exact List.dropLast_append_getLast _

/-- The specifier of the target. -/
theorem rooted_eq (h : BasedAbove c marker t above below) :
    rootedSpecifier t marker (some c.root) = .ok (RootedSpecifier.ofParts (marker :: below)) := by
  have hskip : (above ++ marker :: below).dropWhile (· != marker) = marker :: below := by
    rw [List.dropWhile_append_of_pos]
    · simp
    · intro a ha
      have hne : a ≠ marker := fun e => h.first (e ▸ ha)
      simpa using hne
  unfold rootedSpecifier RootedSpecifier.fromMarker? RootedSpecifier.searched
  rw [Option.bind_some, h.way]
  simp [hskip]

open RootedSpecifier in
/-- Where the specifier of the target leads, when its short name is a name. -/
theorem place_of_name (h : BasedAbove c marker t above below) (ht : t.Clean) (ha : c.aliases = [])
    (importer : Path) (hname : IsName (shortName t.name)) :
    ∃ p, places c importer (ofParts (marker :: below)) = .ok [p] ∧
      p.normalize = shortPlace (folders marker below) t := by
  have hfolders : ∀ s ∈ folders marker below, IsName s := by
    intro s hs
    refine ht s ?_
    rw [h.segments_eq, ← h.folders_append_name]
    simp [hs]
  have htname : IsName t.name := ht _ (Path.name_mem h.segments_ne_nil)
  have hparts : ∀ s ∈ shortParts (folders marker below) t.name, IsName s := by
    intro s hs
    unfold shortParts at hs
    split at hs
    · exact hfolders s hs
    · rcases List.mem_append.mp hs with hs | hs
      · exact hfolders s hs
      · rw [List.mem_singleton.mp hs]
        exact hname
  have hplace : (⟨c.root.anchor, c.root.segments ++ above ++ shortParts (folders marker below) t.name⟩ :
      Path) = shortPlace (folders marker below) t := by
    have hsegments := h.segments_eq
    rw [← h.folders_append_name, ← List.append_assoc] at hsegments
    unfold shortPlace shortParts
    by_cases hdir : NamesDirectory (folders marker below) t.name
    · rw [if_pos hdir, if_pos hdir, Path.parent, hsegments, List.dropLast_concat, h.anchor_eq]
    · rw [if_neg hdir, if_neg hdir, Path.replaceName, Path.child, Path.parent, hsegments,
        List.dropLast_concat, h.anchor_eq, List.append_assoc _ (folders marker below)]
  rw [← h.folders_append_name, ofParts_joined htname.2.2.2]
  cases hl : shortParts (folders marker below) t.name with
  | nil =>
    unfold shortParts at hl
    split at hl
    · rename_i hdir
      exact absurd hl hdir.2
    · simp at hl
  | cons a rest =>
    rw [hl] at hparts hplace
    refine ⟨_, places_joined ha h.base importer (hparts a (by simp)) fun s hs => (hparts s hs).2.2.2, ?_⟩
    have hread := Path.ofString_joined (hparts a (by simp)).1 fun s hs => (hparts s hs).2.2.2
    rw [Path.filter_names hparts] at hread
    unfold Path.joinText Path.join
    rw [hread]
    show Path.normalize ⟨_, c.root.segments ++ above ++ a :: rest⟩ = _
    rw [hplace]
    refine Path.Clean.normalize fun s hs => ?_
    rw [← hplace] at hs
    rcases List.mem_append.mp hs with hs | hs
    · refine ht s ?_
      rw [h.segments_eq]
      exact List.mem_append_left _ hs
    · exact hparts s hs

open RootedSpecifier in
/-- Where the specifier of the target leads, when its short name is no name: no deeper than the directory
of the target. -/
theorem place_of_no_name (h : BasedAbove c marker t above below) (ht : t.Clean) (ha : c.aliases = [])
    (importer : Path) (hname : ¬ IsName (shortName t.name))
    (hdot : ofParts (marker :: below) ≠ ".") (hdots : ofParts (marker :: below) ≠ "..") :
    ∃ p, places c importer (ofParts (marker :: below)) = .ok [p] ∧
      p.normalize.segments.length < t.segments.length := by
  have htname : IsName t.name := ht _ (Path.name_mem h.segments_ne_nil)
  have hslash : '/' ∉ (shortName t.name).toList :=
    fun hmem => htname.2.2.2 (toList_dropFirstSuffix_subset _ _ _ hmem)
  have hcases : shortName t.name = "" ∨ shortName t.name = "." ∨ shortName t.name = ".." := by
    by_contra hno
    push Not at hno
    exact hname ⟨hno.1, hno.2.1, hno.2.2, hslash⟩
  have hnotdir : ¬ NamesDirectory (folders marker below) t.name := by
    rintro ⟨hindex, -⟩
    rw [hindex] at hcases
    revert hcases
    decide
  have hsegments := h.segments_eq
  rw [← h.folders_append_name, ← List.append_assoc] at hsegments
  have hdepth : t.segments.length = (c.root.segments ++ above ++ folders marker below).length + 1 := by
    rw [hsegments, List.length_append, List.length_singleton]
  have hclean : Path.Clean ⟨c.root.anchor, c.root.segments ++ above ++ folders marker below⟩ :=
    ht.of_subset fun s hs => by rw [hsegments]; exact List.mem_append_left _ hs
  rw [← h.folders_append_name, ofParts_joined htname.2.2.2] at hdot hdots ⊢
  unfold shortParts at hdot hdots ⊢
  rw [if_neg hnotdir] at hdot hdots ⊢
  cases hf : folders marker below with
  | nil =>
    rw [hf] at hdot hdots
    rw [List.nil_append, String.intercalate_singleton] at hdot hdots ⊢
    have hempty : shortName t.name = "" := by
      rcases hcases with hc | hc | hc
      · exact hc
      · exact absurd hc hdot
      · exact absurd hc hdots
    rw [hempty]
    refine ⟨_, places_empty ha h.base importer, ?_⟩
    rw [hf, List.append_nil] at hclean hdepth
    have hjoin : Path.joinText ⟨c.root.anchor, c.root.segments ++ above⟩ "" =
        ⟨c.root.anchor, c.root.segments ++ above⟩ := by
      show (⟨c.root.anchor, c.root.segments ++ above ++ []⟩ : Path) = _
      rw [List.append_nil]
    rw [hjoin, hclean.normalize]
    show (c.root.segments ++ above).length < _
    omega
  | cons a rest =>
    have hfolder : ∀ s ∈ a :: rest, IsName s := by
      intro s hs
      refine hclean s ?_
      show s ∈ c.root.segments ++ above ++ folders marker below
      rw [hf]
      exact List.mem_append_right _ hs
    have hall : ∀ s ∈ a :: (rest ++ [shortName t.name]), '/' ∉ s.toList := by
      intro s hs
      rcases List.mem_append.mp (show s ∈ (a :: rest) ++ [shortName t.name] from hs) with hs | hs
      · exact (hfolder s hs).2.2.2
      · rw [List.mem_singleton.mp hs]
        exact hslash
    have ha' := hfolder a (by simp)
    have hjoin : Path.joinText ⟨c.root.anchor, c.root.segments ++ above⟩
        ("/".intercalate (a :: (rest ++ [shortName t.name]))) =
          ⟨c.root.anchor, c.root.segments ++ above ++ a :: rest ++
            [shortName t.name].filter fun t => t != "" && t != "."⟩ := by
      unfold Path.joinText Path.join
      rw [Path.ofString_joined ha'.1 hall, ← List.cons_append, List.filter_append,
        Path.filter_names hfolder]
      show (⟨_, _ ++ (_ ++ _)⟩ : Path) = _
      rw [List.append_assoc (_ ++ above)]
    rw [List.cons_append]
    refine ⟨_, places_joined ha h.base importer ha' hall, ?_⟩
    rw [hjoin]
    rw [hf] at hclean hdepth
    rcases hcases with hc | hc | hc
    · rw [hc, show ([""].filter fun t => t != "" && t != ".") = [] from rfl, List.append_nil,
        hclean.normalize]
      show (c.root.segments ++ above ++ a :: rest).length < _
      omega
    · rw [hc, show (["."].filter fun t => t != "" && t != ".") = [] from rfl, List.append_nil,
        hclean.normalize]
      show (c.root.segments ++ above ++ a :: rest).length < _
      omega
    · have hdotdot : ".." ∉ c.root.segments ++ above ++ a :: rest :=
        fun hmem => (hclean _ hmem).2.2.1 rfl
      rw [hc, show ([".."].filter fun t => t != "" && t != ".") = [".."] from rfl]
      have hpush := Path.length_pushSegment_le (Path.isAbsolute ⟨c.root.anchor,
        c.root.segments ++ above ++ a :: rest ++ [".."]⟩) (c.root.segments ++ above ++ a :: rest).reverse
        (by simp) fun s hs => (hclean s (List.mem_reverse.mp hs)).2.2.1
      unfold Path.normalize
      dsimp only
      rw [List.foldl_append, Path.foldl_pushSegment_of_clean hdotdot, List.append_nil,
        List.length_reverse]
      rw [List.length_reverse] at hpush
      show (Path.pushSegment _ _ "..").length < _
      omega

open RootedSpecifier in
/-- The specifier of a target means the target exactly when its short name is a name and none of the
rivals of the target is a file of the project. -/
theorem resolve_iff (h : BasedAbove c marker t above below) (ht : t.Clean) (ha : c.aliases = [])
    {known : Path → Bool} (hknown : known t = true) (importer : Path)
    (hext : ∃ e ∈ extensions c, ∃ r, t.name = r ++ e) (hdot : ofParts (marker :: below) ≠ ".")
    (hdots : ofParts (marker :: below) ≠ "..") :
    resolve c known importer (ofParts (marker :: below)) = .ok (some t) ↔
      IsName (shortName t.name) ∧ ∀ x ∈ rivals (extensions c) (folders marker below) t,
        ∃ q, x = .ok q ∧ known q = false := by
  have hdropped := exists_extension hext
  by_cases hname : IsName (shortName t.name)
  · obtain ⟨p, hp, hplace⟩ := h.place_of_name ht ha importer hname
    obtain ⟨more, hcandidates⟩ :=
      @candidates_eq c (folders marker below) t h.segments_ne_nil hname hdropped
    rw [resolve_of_places hp, hplace, hcandidates,
      firstKnown_append_iff hknown (target_not_mem_rivals h.segments_ne_nil hdropped)]
    exact (and_iff_right hname).symm
  · obtain ⟨p, hp, hdepth⟩ := h.place_of_no_name ht ha importer hname hdot hdots
    refine iff_of_false (fun hr => ?_) fun hr => hname hr.1
    rw [resolve_of_places hp] at hr
    rcases candidate_depth (firstKnown_mem hr).1 with hlen | ⟨ext, hmem, hindex⟩
    · omega
    · have hshort : ∀ e ∈ [".ts", ".tsx", ".d.ts", ".mts", ".cts", ".js", ".jsx", ".mjs", ".cjs"],
          shortName (indexName ++ e) = indexName := by decide
      have htried : ext ∈ [".ts", ".tsx", ".d.ts", ".mts", ".cts", ".js", ".jsx", ".mjs", ".cjs"] := by
        unfold extensions at hmem
        cases hjs : c.allowJs with
        | true => rwa [hjs] at hmem
        | false =>
          rw [hjs] at hmem
          exact List.mem_append_left [".js", ".jsx", ".mjs", ".cjs"] (List.mem_append.mp hmem |>.resolve_right (by simp))
      have htname : t.name = indexName ++ ext := by rw [hindex]; simp [Path.child, Path.name]
      rw [htname, hshort ext htried] at hname
      exact hname ⟨by decide, by decide, by decide, by decide⟩

end BasedAbove

/-! ### The edits of a rooting run -/

namespace RootedImport

open Journaled

variable {f : SourceFile} {resolve : String → Except Fault (Option Path)} {marker : String}
  {root : Path} {j j' : Journal}

/-- An edit for a reference rewrites a relative specifier that means a file of the project. -/
theorem referencePlan_eq_some {r : ModuleReference} {e : Edit}
    (h : referencePlan f resolve marker root r j = (.ok (some e), j')) :
    ∃ spec t s quote, r.specifier f = .ok spec ∧ isRelative spec = true ∧
      resolve spec = .ok (some t) ∧ rootedSpecifier t marker (some root) = .ok s ∧
      r.quote f = .ok quote ∧ e = SourceFile.replaceEdit r.source (quote ++ s ++ quote) := by
  unfold referencePlan at h
  obtain ⟨spec, j₁, hspec, hrun₁⟩ := bind_eq_ok h
  split at hrun₁
  case isFalse => cases hrun₁
  case isTrue hrel =>
    obtain ⟨target, j₂, htarget, hrun₂⟩ := bind_eq_ok hrun₁
    cases target with
    | none =>
      obtain ⟨_, j₃, -, hrest⟩ := bind_eq_ok hrun₂
      cases hrest
    | some t =>
      obtain ⟨s, j₃, hs, hrun₃⟩ := bind_eq_ok hrun₂
      obtain ⟨_, j₄, -, hrun₄⟩ := bind_eq_ok hrun₃
      obtain ⟨quote, j₅, hquote, hrest⟩ := bind_eq_ok hrun₄
      cases hrest
      exact ⟨spec, t, s, quote, (ofExcept_eq_ok hspec).1, hrel, (ofExcept_eq_ok htarget).1,
        (ofExcept_eq_ok hs).1, (ofExcept_eq_ok hquote).1, rfl⟩

theorem mem_plansOf {rs : List ModuleReference} {edits : List Edit}
    (h : plansOf f resolve marker root rs j = (.ok edits, j')) {e : Edit} (he : e ∈ edits) :
    ∃ r ∈ rs, ∃ j j', referencePlan f resolve marker root r j = (.ok (some e), j') := by
  induction rs generalizing edits j j' with
  | nil =>
    cases h
    cases he
  | cons r rest ih =>
    obtain ⟨first, j₁, hfirst, hrun⟩ := bind_eq_ok h
    obtain ⟨more, j₂, hmore, hrest⟩ := bind_eq_ok hrun
    cases hrest
    rcases List.mem_append.mp he with he | he
    · cases first with
      | none => cases he
      | some e' =>
        obtain rfl : e = e' := by simpa using he
        exact ⟨r, by simp, j, j₁, hfirst⟩
    · obtain ⟨r', hr', hplan⟩ := ih hmore he
      exact ⟨r', List.mem_cons_of_mem _ hr', hplan⟩

end RootedImport

open RootedSpecifier RootedImport in
/-- In a project without aliases, whose bare specifiers are read from the directory directly above the
first marker on the way down to the target: what a rooting run writes for a relative specifier means the
same file as before exactly when the short name of the target is a name and none of the rivals of the
target is a file of the project. Left aside are the specifiers `.` and `..`, which only a target gets that
is itself the marker. Passes change neither the configuration nor the paths of a project. -/
theorem rooted_specifier_resolves_iff {w : Workspace} (hclean : ∀ p ∈ w.paths, p.Clean)
    (haliases : w.config.aliases = []) {f : SourceFile} {marker : String} {edits : List Edit}
    (hplan : (plan f (w.resolve f.path) marker w.config.root).outcome = .ok edits) {e : Edit}
    (he : e ∈ edits) :
    ∃ r ∈ f.references, ∃ spec t s quote, r.specifier f = .ok spec ∧ isRelative spec = true ∧
      w.resolve f.path spec = .ok (some t) ∧
      rootedSpecifier t marker (some w.config.root) = .ok s ∧ r.quote f = .ok quote ∧
      e = SourceFile.replaceEdit r.source (quote ++ s ++ quote) ∧
      ∀ above below, BasedAbove w.config marker t above below → s ≠ "." → s ≠ ".." →
        ∀ w' : Workspace, w'.config = w.config → w'.paths = w.paths →
          (w'.resolve f.path s = .ok (some t) ↔
            IsName (shortName t.name) ∧
            ∀ x ∈ rivals (extensions w.config) (BasedAbove.folders marker below) t,
              ∃ q, x = .ok q ∧ w.knows q = false) := by
  obtain ⟨j, hrun⟩ := Journaled.exists_run hplan
  obtain ⟨r, hr, j₁, j₂, hreference⟩ := mem_plansOf hrun he
  obtain ⟨spec, t, s, quote, hspec, hrel, hresolve, hs, hquote, rfl⟩ := referencePlan_eq_some hreference
  refine ⟨r, hr, spec, t, s, quote, hspec, hrel, hresolve, hs, hquote, rfl, ?_⟩
  intro above below hbased hdot hdots w' hconfig hpaths
  have hknown : w.knows t = true := resolve_mem hresolve
  have hext : ∃ ext ∈ extensions w.config, ∃ base, t.name = base ++ ext := by
    have hplaces : places w.config f.path spec = .ok [f.path.parent.joinText spec] := by
      unfold places
      simp [hrel]
    unfold Workspace.resolve at hresolve
    rw [resolve_of_places hplaces] at hresolve
    exact candidate_name (firstKnown_mem hresolve).1
  rw [hbased.rooted_eq] at hs
  obtain rfl := Except.ok.inj hs
  unfold Workspace.resolve
  rw [hconfig, Workspace.knows_congr hpaths]
  exact hbased.resolve_iff (hclean t (Workspace.knows_iff.mp hknown)) haliases hknown _ hext hdot hdots

/-! ### A file beside its namesake -/

/-- A place in the project of the namesakes. -/
def namesakePath (name : String) : Path := ⟨.root, ["p", "src", name]⟩

/-- A file that imports another one, which has a namesake with an extension that is tried first. -/
def namesakeImporter : SourceFile :=
  ⟨namesakePath "main.ts", .typescript, Bytes.ofString "import { x } from \"./foo.tsx\";\n", false⟩

/-- The project of these files. -/
def namesakeProject : Workspace :=
  { disk := .empty
    config := ⟨⟨.root, ["p", "tsconfig.json"]⟩, some ⟨.root, ["p"]⟩, [], none, false, ["**/*"], [], [],
      none⟩
    files := [⟨namesakePath "foo.ts", .typescript, [], false⟩, ⟨namesakePath "foo.tsx", .tsx, [], false⟩,
      namesakeImporter] }

theorem namesakeProject_clean : ∀ p ∈ namesakeProject.paths, p.Clean := by
  unfold Path.Clean IsName
  decide

/-- The plan for the importing file. -/
def namesakePlan : Except Fault (List Edit) :=
  (RootedImport.plan namesakeImporter (namesakeProject.resolve namesakeImporter.path) "src"
    namesakeProject.config.root).outcome

/-- The specifier meant one file before it was written from the root, and means its namesake then. -/
theorem namesake_takes_over :
    namesakeProject.resolve namesakeImporter.path "./foo.tsx" = .ok (some (namesakePath "foo.tsx")) ∧
    namesakePlan.map (·.map (·.text)) = .ok ["\"src/foo\""] ∧
    namesakeProject.resolve namesakeImporter.path "src/foo" = .ok (some (namesakePath "foo.ts")) := by
  decide +kernel

theorem namesakeProject_based :
    BasedAbove namesakeProject.config "src" (namesakePath "foo.tsx") [] ["foo.tsx"] :=
  ⟨by decide, by decide, by decide⟩

/-- The namesake is a rival of the target, so that the specifier does not mean the target any more. -/
theorem namesake_rewritten : namesakePlan = .ok [⟨18, 29, "\"src/foo\""⟩] ∧
    namesakeProject.resolve namesakeImporter.path "src/foo" ≠ .ok (some (namesakePath "foo.tsx")) := by
  have hplan : namesakePlan = .ok [⟨18, 29, "\"src/foo\""⟩] := by decide +kernel
  refine ⟨hplan, fun hsame => ?_⟩
  obtain ⟨r, hr, spec, t, s, quote, hspec, -, hresolve, hs, -, -, hiff⟩ :=
    rooted_specifier_resolves_iff namesakeProject_clean rfl hplan (List.mem_singleton_self _)
  have hspecs : ∀ r ∈ namesakeImporter.references, r.specifier namesakeImporter = .ok "./foo.tsx" := by
    decide +kernel
  obtain rfl : "./foo.tsx" = spec := Except.ok.inj ((hspecs r hr).symm.trans hspec)
  have htarget : namesakeProject.resolve namesakeImporter.path "./foo.tsx" =
      .ok (some (namesakePath "foo.tsx")) := by decide +kernel
  obtain rfl : namesakePath "foo.tsx" = t := by simpa using htarget.symm.trans hresolve
  have hshort : rootedSpecifier (namesakePath "foo.tsx") "src" (some namesakeProject.config.root) =
      .ok "src/foo" := by decide +kernel
  obtain rfl : "src/foo" = s := Except.ok.inj (hshort.symm.trans hs)
  obtain ⟨-, hrivals⟩ := (hiff [] ["foo.tsx"] namesakeProject_based (by decide) (by decide)
    namesakeProject rfl rfl).mp hsame
  have hrival : .ok (namesakePath "foo.ts") ∈ RootedSpecifier.rivals (extensions namesakeProject.config)
      (BasedAbove.folders "src" ["foo.tsx"]) (namesakePath "foo.tsx") := by decide +kernel
  obtain ⟨q, hq, hunknown⟩ := hrivals _ hrival
  obtain rfl := Except.ok.inj hq
  revert hunknown
  decide

end Codemod
