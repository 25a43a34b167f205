import Codemod.Proofs.Declarations
import Codemod.Proofs.PatternSegments

/-!
# Patterns of inherited configurations

A pattern is written for the directory of the file that it stands in, and kept as it is seen from the root of
the project. Where the file lies in the root or below it, the kept pattern selects the same files. Where the
file lies above the root, it does so only if the pattern spells out the directories that lead down to the root;
any other pattern is kept as one that leads up, and selects nothing in the project, whatever its wildcards
match.

Main statements:

* `kept_eq` says what a pattern is kept as;
* `origin_of_kept` says that the patterns of a configuration are the kept ones of its chain;
* `kept_patterns_select` says which of them select what they were written for;
* `pattern_from_above_lost` gives one that does not.
-/

namespace Codemod

namespace Path

/-! ### The way from one directory to another -/

theorem climb_nil (target : List String) : climb [] target = target := by
  cases target <;> rfl

theorem climb_append (common base target : List String) :
    climb (common ++ base) (common ++ target) = climb base target := by
  induction common with
  | nil => rfl
  | cons s rest ih => rw [List.cons_append, List.cons_append, climb, if_pos rfl, ih]

theorem climb_below (base target : List String) : climb base (base ++ target) = target := by
  have hclimb := climb_append base [] target
  rwa [List.append_nil, climb_nil] at hclimb

/-- A way to what does not lie below leads up first. -/
theorem climb_up {base target : List String} (h : ¬ base <+: target) :
    ∃ rest, climb base target = ".." :: rest := by
  induction base generalizing target with
  | nil => exact absurd List.nil_prefix h
  | cons s base ih =>
    cases target with
    | nil => exact ⟨_, rfl⟩
    | cons t target =>
      unfold climb
      split
      case isTrue heq =>
        subst heq
        exact ih fun hbegins => h (List.cons_prefix_cons.mpr ⟨rfl, hbegins⟩)
      case isFalse => exact ⟨_, rfl⟩

theorem leadsUp_relativeText (rest : List String) :
    Glob.LeadsUp (relativeText (".." :: rest)).toList := by
  rw [toList_relativeText (List.cons_ne_nil _ _)]
  by_cases hrest : rest = []
  · rw [hrest]
    exact ⟨[], rfl, .inl rfl⟩
  · rw [joined_cons hrest]
    exact ⟨'/' :: joined rest, rfl, .inr rfl⟩

/-- A text that begins with a slash is read as an absolute path, and no other one. -/
theorem hasPrefix_slash (s : String) : Text.hasPrefix "/" s = (ofString s).isAbsolute := by
  show ['/'].isPrefixOf s.toList = (anchorOf s.toList != .relative)
  cases hs : s.toList with
  | nil => rfl
  | cons c rest =>
    by_cases hc : c = '/'
    · subst hc
      have hroot : anchorOf ('/' :: rest) ≠ .relative := by
        unfold anchorOf
        split <;> simp_all
      rw [bne_iff_ne.mpr hroot]
      rfl
    · rw [anchorOf_of_head (by simpa using hc)]
      simp [List.isPrefixOf, Ne.symm hc]

end Path

open Codemod.Path

/-! ### Written patterns -/

/-- The names in a part of a pattern, where backslashes separate them. -/
def Glob.pieces (s : String) : List String :=
  (splitSlash (slashed s.toList)).map .ofList

/-- A text is a pattern that is written as names with slashes between them, and perhaps one at the end.
Backslashes may separate names too. -/
structure Glob.Written (s : String) (ps : List String) : Prop where
  text : s = "/".intercalate ps ∨ s = "/".intercalate (ps ++ [""])
  ne_nil : ps ≠ []
  no_slash : ∀ p ∈ ps, '/' ∉ p.toList
  names : ∀ q ∈ ps.flatMap pieces, IsName q

namespace Glob

theorem pieces_ne_nil (s : String) : pieces s ≠ [] := by
  unfold pieces
  exact fun h => splitSlash_ne_nil _ (List.map_eq_nil_iff.mp h)

/-- A name without slashes of either kind is one piece. -/
theorem pieces_of_plain {n : String} (h : Plain n) : pieces n = [n] := by
  have hslashed : slashed n.toList = n.toList := by
    unfold slashed
    refine (List.map_congr_left fun c hc => ?_).trans (List.map_id _)
    have hback : c ≠ '\\' := fun e => h.2.2 (e ▸ hc)
    simp [hback]
  unfold pieces
  rw [hslashed, splitSlash_of_not_mem h.1, List.map_singleton, String.ofList_toList]

theorem flatMap_pieces_ne_nil {ps : List String} (h : ps ≠ []) : ps.flatMap pieces ≠ [] := by
  obtain ⟨p, rest, rfl⟩ := List.exists_cons_of_ne_nil h
  exact List.append_ne_nil_of_left_ne_nil (pieces_ne_nil p) _

theorem flatMap_pieces_of_plain {way : List String} (h : ∀ n ∈ way, Plain n) : way.flatMap pieces = way := by
  induction way with
  | nil => rfl
  | cons n rest ih =>
    rw [List.flatMap_cons, pieces_of_plain (h n (List.mem_cons_self ..)),
      ih fun m hm => h m (List.mem_cons_of_mem _ hm)]
    rfl

theorem slashed_joined {ps : List String} (hne : ps ≠ []) :
    slashed (joined ps) = joined (ps.flatMap pieces) := by
  induction ps with
  | nil => exact absurd rfl hne
  | cons p rest ih =>
    have hp : joined (pieces p) = slashed p.toList := joined_splitSlash _
    rw [List.flatMap_cons]
    by_cases hrest : rest = []
    · rw [hrest, List.flatMap_nil, List.append_nil, hp, joined_singleton]
    · rw [joined_cons hrest, joined_append (pieces_ne_nil p) (flatMap_pieces_ne_nil hrest), hp,
        ← ih hrest]
      unfold slashed
      rw [List.map_append, List.map_cons]
      rfl

namespace Written

variable {s : String} {ps : List String}

/-- The parts of a written pattern between slashes are names. -/
theorem isName (h : Written s ps) : ∀ p ∈ ps, IsName p := by
  intro p hp
  have hpieces : ∀ q, pieces p = [q] → IsName q := fun q hq =>
    h.names q (List.mem_flatMap.mpr ⟨p, hp, hq ▸ List.mem_singleton_self q⟩)
  refine ⟨?_, ?_, ?_, h.no_slash p hp⟩ <;> rintro rfl
  · exact (hpieces "" (by decide)).1 rfl
  · exact (hpieces "." (by decide)).2.1 rfl
  · exact (hpieces ".." (by decide)).2.2.1 rfl

/-- The normal form of a written pattern. -/
theorem normalForm_eq (h : Written s ps) : normalForm s = joined (ps.flatMap pieces) := by
  refine normalForm_of_names (flatMap_pieces_ne_nil h.ne_nil) h.names ?_
  rw [← slashed_joined h.ne_nil]
  rcases h.text with rfl | rfl
  · exact .inl rfl
  · right
    show slashed (joined (ps ++ [""])) = _
    rw [joined_append h.ne_nil (by simp)]
    unfold slashed
    rw [List.map_append]
    rfl

/-- A written pattern, read as a path. -/
theorem ofString_eq (h : Written s ps) : Path.ofString s = ⟨.relative, ps⟩ := by
  obtain ⟨p, rest, rfl⟩ := List.exists_cons_of_ne_nil h.ne_nil
  have hp := (h.isName p (List.mem_cons_self ..)).1
  rcases h.text with rfl | rfl
  · rw [ofString_joined hp h.no_slash, filter_names h.isName]
  · have hslash : ∀ t ∈ p :: (rest ++ [""]), '/' ∉ t.toList := by
      intro t ht
      rcases List.mem_append.mp (List.cons_append ▸ ht : t ∈ (p :: rest) ++ [""]) with ht | ht
      · exact h.no_slash t ht
      · rw [List.mem_singleton.mp ht]
        decide
    rw [List.cons_append, ofString_joined hp hslash, ← List.cons_append, List.filter_append,
      filter_names h.isName, List.filter_singleton]
    exact congrArg _ (List.append_nil _)

/-- A written pattern does not start at the root. -/
theorem relative (h : Written s ps) : Text.hasPrefix "/" s = false := by
  rw [hasPrefix_slash, h.ofString_eq]
  rfl

/-- The names behind the ones that a written pattern begins with are a written pattern. -/
theorem suffix {first rest : List String} (h : Written s (first ++ rest)) (hrest : rest ≠ []) :
    Written (relativeText rest) rest where
  text := by
    left
    unfold relativeText
    rw [if_neg (by simpa using hrest)]
  ne_nil := hrest
  no_slash p hp := h.no_slash p (List.mem_append_right _ hp)
  names q hq := h.names q (by rw [List.flatMap_append]; exact List.mem_append_right _ hq)

/-- Behind plain names a written pattern is still one. -/
theorem under {way : List String} (h : Written s ps) (hway : ∀ n ∈ way, IsName n ∧ Plain n) :
    Written (relativeText (way ++ ps)) (way ++ ps) where
  text := by
    left
    unfold relativeText
    rw [if_neg (by simpa using fun _ => h.ne_nil)]
  ne_nil := List.append_ne_nil_of_right_ne_nil _ h.ne_nil
  no_slash p hp := by
    rcases List.mem_append.mp hp with hp | hp
    · exact (hway p hp).2.1
    · exact h.no_slash p hp
  names q hq := by
    rw [List.flatMap_append] at hq
    rcases List.mem_append.mp hq with hq | hq
    · obtain ⟨n, hn, hq⟩ := List.mem_flatMap.mp hq
      rw [pieces_of_plain (hway n hn).2, List.mem_singleton] at hq
      exact hq ▸ (hway n hn).1
    · exact h.names q hq

end Written

end Glob

namespace Config

open Glob

/-! ### Kept patterns -/

/-- What a pattern that is written in a file of directory `dir` is kept as for the project at `root`. -/
def kept (root dir : Path) (s : String) : String :=
  fromDirectory root (anchorPattern dir s)

/-- A pattern is kept as the way to the place that it describes. -/
theorem kept_eq {root dir : Path} {s : String} {ps : List String} (hroot : root.Real) (hdir : dir.Real)
    (h : Written s ps) : kept root dir s = relativeText (climb root.segments (dir.segments ++ ps)) := by
  have hplace : (⟨dir.anchor, dir.segments ++ ps⟩ : Path).Real :=
    ⟨fun n hn => (List.mem_append.mp hn).elim (hdir.clean n) (h.isName n), hdir.root⟩
  have hanchored : anchorPattern dir s = (⟨dir.anchor, dir.segments ++ ps⟩ : Path).toString := by
    unfold anchorPattern joinText
    rw [h.relative, h.ofString_eq]
    rfl
  have habsolute : Text.hasPrefix "/" (⟨dir.anchor, dir.segments ++ ps⟩ : Path).toString = true := by
    rw [hasPrefix_slash, ofString_toString hplace.clean hplace.root]
    exact hplace.isAbsolute
  unfold kept fromDirectory
  rw [hanchored, if_pos habsolute, ofString_toString hplace.clean hplace.root]
  unfold relativeTo
  rw [hroot.clean.normalize, hplace.clean.normalize]

/-- The kept pattern selects the same files as the written one: each of them is compared with the way that
leads to the file, the kept one from the root of the project and the written one from the directory that it
was written in. -/
def SelectsAlike (root dir : Path) (s : String) : Prop :=
  ∀ (f : Path) (below own : List String) (wholeTree : Bool), f.Clean →
    root.below? f = some below → dir.below? f = some own → below ≠ [] → own ≠ [] →
    (Glob.ofString (kept root dir s) true wholeTree).selects (relativeText below) =
      (Glob.ofString s true wholeTree).selects (relativeText own)

/-- The kept pattern selects no file of the project. -/
def SelectsNothing (root dir : Path) (s : String) : Prop :=
  ∀ (f : Path) (below : List String) (wholeTree : Bool), f.Clean →
    root.below? f = some below → below ≠ [] →
    (Glob.ofString (kept root dir s) true wholeTree).selects (relativeText below) = false

section

variable {root dir : Path} {s : String} {ps : List String}

/-- A pattern that is written in the root or below it selects what it was written for. -/
theorem selectsAlike_of_below (hroot : root.Real) (hdir : dir.Real) (h : Written s ps)
    {way : List String} (hway : dir.segments = root.segments ++ way) (hplain : ∀ n ∈ way, Plain n) :
    SelectsAlike root dir s := by
  intro f below own wholeTree _ hbelow hown _ hne
  have hnames : ∀ n ∈ way, IsName n ∧ Plain n := fun n hn =>
    ⟨hdir.clean n (hway ▸ List.mem_append_right _ hn), hplain n hn⟩
  have hkept : kept root dir s = relativeText (way ++ ps) := by
    rw [kept_eq hroot hdir h, hway, List.append_assoc, climb_below]
  have hfile : below = way ++ own := by
    have hsegments := (below?_eq_some hbelow).symm.trans (below?_eq_some hown)
    rw [hway, List.append_assoc] at hsegments
    exact List.append_cancel_left hsegments
  rw [hkept, hfile]
  refine selects_under hplain (flatMap_pieces_ne_nil h.ne_nil) h.names hne h.normalForm_eq ?_
  rw [(h.under hnames).normalForm_eq, List.flatMap_append, flatMap_pieces_of_plain hplain]

/-- A pattern that is written above the root and spells out the way to it selects what it was written for. -/
theorem selectsAlike_of_spelled (hroot : root.Real) (hdir : dir.Real) {way rest : List String}
    (h : Written s (way ++ rest)) (hway : root.segments = dir.segments ++ way)
    (hplain : ∀ n ∈ way, Plain n) (hrest : rest ≠ [] ∨ namesDirectory (normalForm s) = true) :
    SelectsAlike root dir s := by
  intro f below own wholeTree _ hbelow hown hne _
  have hfile : own = way ++ below := by
    have hsegments := (below?_eq_some hown).symm.trans (below?_eq_some hbelow)
    rw [hway, List.append_assoc] at hsegments
    exact List.append_cancel_left hsegments
  have hkept : kept root dir s = relativeText rest := by
    rw [kept_eq hroot hdir h, hway, ← List.append_assoc, climb_below]
  have hform : normalForm s = joined (way ++ rest.flatMap pieces) := by
    rw [h.normalForm_eq, List.flatMap_append, flatMap_pieces_of_plain hplain]
  rw [hkept, hfile]
  by_cases hnil : rest = []
  · -- The pattern names a directory on the way to the root, or the root itself.
    subst hnil
    have hway : way ≠ [] := List.append_nil way ▸ h.ne_nil
    have hdirectory := hrest.resolve_left (not_not_intro rfl)
    rw [List.flatMap_nil, List.append_nil] at hform
    have hnonempty : joined way ≠ [] := joined_ne_nil hway fun n hn => h.isName n (by simpa using hn)
    have hcontents : expanded true (normalForm s) = joined way ++ '/' :: "**/*".toList := by
      rw [expanded, hdirectory, hform, withContents, Bool.true_and, if_pos rfl,
        if_neg (by simpa using hnonempty)]
      rfl
    rw [selects_eq hne, selects_eq (List.append_ne_nil_of_right_ne_nil _ hne), joined_append hway hne,
      hcontents, matchesThen_under hway hplain]
    rfl
  · have hwritten := h.suffix hnil
    exact (selects_under hplain (flatMap_pieces_ne_nil hnil) hwritten.names hne hwritten.normalForm_eq
      hform).symm

/-- A pattern that is written above the root and does not spell out the way to it selects nothing. -/
theorem selectsNothing_of_not_spelled (hroot : root.Real) (hdir : dir.Real) (h : Written s ps)
    {way : List String} (hway : root.segments = dir.segments ++ way) (hspelled : ¬ way <+: ps) :
    SelectsNothing root dir s := by
  intro f below wholeTree hf hbelow hne
  -- The kept pattern begins with `..`, which no path of the project does.
  obtain ⟨rest, hrest⟩ := climb_up hspelled
  have hkept : kept root dir s = relativeText (".." :: rest) := by
    rw [kept_eq hroot hdir h, hway, climb_append, hrest]
  have hnames : ∀ n ∈ below, IsName n := fun n hn =>
    hf n (below?_eq_some hbelow ▸ List.mem_append_right _ hn)
  rw [hkept]
  exact not_selects_of_leadsUp (leadsUp_relativeText rest) hne hnames

end

/-! ### The patterns of a configuration -/

/-- A text stands among the items under a key of a declaration. -/
def Declaration.Writes (d : Declaration) (key s : String) : Prop :=
  ∃ v vs, Keyed.get? d.members key = some v ∧ v.items? = some vs ∧ .text s ∈ vs

theorem origin_of_patternTexts {dir : Path} {vs : List Json.Value} {ss : List String}
    (h : patternTexts dir vs = .ok ss) : ∀ k ∈ ss, ∃ s, .text s ∈ vs ∧ k = anchorPattern dir s := by
  induction vs generalizing ss with
  | nil =>
    cases h
    exact fun k hk => absurd hk List.not_mem_nil
  | cons v rest ih =>
    cases v with
    | text s =>
      obtain ⟨more, hmore, rfl⟩ := Except.map_eq_ok h
      intro k hk
      rcases List.mem_cons.mp hk with rfl | hk
      · exact ⟨s, List.mem_cons_self .., rfl⟩
      · obtain ⟨t, ht, hkt⟩ := ih hmore k hk
        exact ⟨t, List.mem_cons_of_mem _ ht, hkt⟩
    | null | bool | int | real | list | object => cases h

theorem origin_of_patterns {d : Declaration} {key : String} {ss : List String}
    (h : Config.patterns d.directory d.members key = .ok (some ss)) :
    ∀ k ∈ ss, ∃ s, d.Writes key s ∧ k = anchorPattern d.directory s := by
  unfold Config.patterns at h
  split at h
  case h_1 => cases h
  case h_2 v hv =>
    split at h
    case h_1 vs hvs =>
      obtain ⟨texts, htexts, hss⟩ := Except.map_eq_ok h
      cases hss
      intro k hk
      obtain ⟨s, hs, hks⟩ := origin_of_patternTexts htexts k hk
      exact ⟨s, ⟨v, vs, hv, hvs, hs⟩, hks⟩
    case h_2 => cases h

theorem patterns_of_ofLayer {p : Path} {l : Layer} {c : Config} (h : ofLayer p l = .ok c) :
    (∃ ss, c.included = ss.map (fromDirectory c.root) ∧
      (l.included = some ss ∨ ss = [] ∨ ss = defaultIncluded)) ∧
    ∃ ss, c.excluded = ss.map (fromDirectory c.root) ∧ (l.excluded = some ss ∨ ss = defaultExcluded) := by
  unfold ofLayer at h
  obtain ⟨as, -, h⟩ := Except.bind_eq_ok h
  obtain ⟨base, -, h⟩ := Except.bind_eq_ok h
  cases h
  refine ⟨⟨_, rfl, ?_⟩, ⟨_, rfl, ?_⟩⟩
  · cases l.included with
    | some ss => exact .inl rfl
    | none =>
      right
      rw [Option.getD_none]
      split
      · exact .inl rfl
      · exact .inr rfl
  · cases l.excluded with
    | some ss => exact .inl rfl
    | none => exact .inr rfl

/-- A pattern of a configuration is one of those that hold by default, or one that a file of the chain
writes. -/
def ComesFrom (fs : FileSystem) (c : Config) (k : String) : Prop :=
  k ∈ defaultIncluded ++ defaultExcluded ∨
    ∃ (d : Declaration) (key s : String), Reaches fs c.path d.path ∧ readMembers fs d.path = .ok d.members ∧
      d.Writes key s ∧ k = kept c.root d.directory s

/-- The patterns of a configuration are the kept ones of its chain, or those that hold by default. -/
theorem origin_of_kept {fs : FileSystem} {cwd : Path} {name : String} {j j' : Journal} {c : Config}
    (h : load fs cwd name j = (.ok c, j')) : ∀ k ∈ c.included ++ c.excluded, ComesFrom fs c k := by
  unfold load at h
  obtain ⟨p, j₁, -, h⟩ := Journaled.bind_eq_ok h
  obtain ⟨l, j₂, hchain, h⟩ := Journaled.bind_eq_ok h
  have hlayer := (Journaled.ofExcept_eq_ok h).1
  obtain rfl : c.path = p := ofLayer_path hlayer
  have hwritten : ∀ {π : Layer → Option (List String)} (key : String), Layer.Stacks π →
      (∀ {dir ms l'}, Layer.ofMembers dir ms = .ok l' → Config.patterns dir ms key = .ok (π l')) →
      ∀ ss, π l = some ss → ∀ k ∈ ss.map (fromDirectory c.root), ComesFrom fs c k := by
    intro π key hπ hkey ss hss k hk
    obtain ⟨d, hreach, hread, l', hl', hsaid⟩ := origin_of_readChain hπ hchain hss
    obtain ⟨text, htext, rfl⟩ := List.mem_map.mp hk
    obtain ⟨s, hs, rfl⟩ := origin_of_patterns ((hkey hl').trans (congrArg _ hsaid)) text htext
    exact .inr ⟨d, key, s, hreach, hread, hs, rfl⟩
  -- The default patterns do not start at the root, so that they are kept as they are.
  have hdefault : ∀ ss, ss ⊆ defaultIncluded ++ defaultExcluded →
      ∀ k ∈ ss.map (fromDirectory c.root), ComesFrom fs c k := by
    intro ss hss k hk
    obtain ⟨text, htext, rfl⟩ := List.mem_map.mp hk
    have hrelative : ∀ t ∈ defaultIncluded ++ defaultExcluded, Text.hasPrefix "/" t = false := by decide
    left
    rw [fromDirectory, hrelative text (hss htext), if_neg Bool.false_ne_true]
    exact hss htext
  have hincluded : ∀ {dir ms l'}, Layer.ofMembers dir ms = .ok l' →
      Config.patterns dir ms "include" = .ok l'.included := fun h => by
    obtain ⟨-, -, -, -, hincluded, -⟩ := Layer.ofMembers_eq_ok h
    exact hincluded
  have hexcluded : ∀ {dir ms l'}, Layer.ofMembers dir ms = .ok l' →
      Config.patterns dir ms "exclude" = .ok l'.excluded := fun h => by
    obtain ⟨-, -, -, -, -, hexcluded, -⟩ := Layer.ofMembers_eq_ok h
    exact hexcluded
  obtain ⟨⟨ins, hins, hfrom⟩, outs, houts, hfrom'⟩ := patterns_of_ofLayer hlayer
  intro k hk
  rcases List.mem_append.mp hk with hk | hk
  · rw [hins] at hk
    rcases hfrom with hl | rfl | rfl
    · exact hwritten "include" ⟨rfl, fun _ _ => rfl⟩ hincluded ins hl k hk
    · exact absurd hk List.not_mem_nil
    · exact hdefault _ (List.subset_append_left ..) k hk
  · rw [houts] at hk
    rcases hfrom' with hl | rfl
    · exact hwritten "exclude" ⟨rfl, fun _ _ => rfl⟩ hexcluded outs hl k hk
    · exact hdefault _ (List.subset_append_right ..) k hk

/-- The patterns of a loaded configuration are those of its chain, kept for the root of the project. One
that is written in the root or below it, or that spells out the way from its directory down to the root,
selects what it was written for, and any other one selects nothing. -/
theorem kept_patterns_select {fs : FileSystem} {cwd : Path} {name : String} {j j' : Journal} {c : Config}
    (hcwd : cwd.Clean) (habs : cwd.isAbsolute = true) (h : load fs cwd name j = (.ok c, j')) :
    (∀ k ∈ c.included ++ c.excluded, ComesFrom fs c k) ∧
    ∀ q, Reaches fs c.path q → ∀ s ps, Written s ps → ∀ way, (∀ n ∈ way, Plain n) →
      (q.parent.segments = c.root.segments ++ way → SelectsAlike c.root q.parent s) ∧
      (c.root.segments = q.parent.segments ++ way →
        (∀ rest, ps = way ++ rest → rest ≠ [] ∨ namesDirectory (normalForm s) = true →
          SelectsAlike c.root q.parent s) ∧
        (¬ way <+: ps → SelectsNothing c.root q.parent s)) := by
  refine ⟨origin_of_kept h, fun q hq s ps hs way hplain => ?_⟩
  have hpath : c.path.Real := by
    unfold load at h
    obtain ⟨p, j₁, hp, h⟩ := Journaled.bind_eq_ok h
    obtain ⟨l, j₂, -, h⟩ := Journaled.bind_eq_ok h
    rw [ofLayer_path (Journaled.ofExcept_eq_ok h).1]
    exact locate_real hcwd habs (Journaled.ofExcept_eq_ok hp).1
  have hroot : c.root.Real := hpath.parent
  have hdir : q.parent.Real := (hq.real hpath).parent
  refine ⟨fun hway => selectsAlike_of_below hroot hdir hs hway hplain, fun hway => ⟨?_, ?_⟩⟩
  · rintro rest rfl hrest
    exact selectsAlike_of_spelled hroot hdir hs hway hplain hrest
  · exact selectsNothing_of_not_spelled hroot hdir hs hway

/-- A configuration that inherits patterns from above and from below. -/
def inheritingDisk : FileSystem :=
  let file (s : String) : Entry := .file (Bytes.ofString s)
  ((FileSystem.empty.place (.ofString "/p/app/tsconfig.json")
    (file "\x7b\"extends\": [\"../base.json\", \"./lib/more.json\"]\x7d")).place
  (.ofString "/p/base.json") (file "\x7b\"include\": [\"app/**/*.ts\", \"*/x.ts\"]\x7d")).place
  (.ofString "/p/app/lib/more.json") (file "\x7b\"exclude\": [\"gen\"]\x7d")

theorem inheritingDisk_patterns_select : ∃ c j,
    load inheritingDisk (.ofString "/p/app") "tsconfig.json" [] = (.ok c, j) ∧
      c.included ++ c.excluded = ["**/*.ts", "../*/x.ts", "lib/gen"] ∧
      SelectsAlike (.ofString "/p/app") (.ofString "/p") "app/**/*.ts" ∧
      SelectsNothing (.ofString "/p/app") (.ofString "/p") "*/x.ts" ∧
      SelectsAlike (.ofString "/p/app") (.ofString "/p/app/lib") "gen" := by
  have hloaded : (load inheritingDisk (.ofString "/p/app") "tsconfig.json" []).1.toOption.map
      (fun c => (c.path, c.included ++ c.excluded)) =
        some (.ofString "/p/app/tsconfig.json", ["**/*.ts", "../*/x.ts", "lib/gen"]) := by decide +kernel
  obtain ⟨c, hc, hvalues⟩ := Option.map_eq_some_iff.mp hloaded
  obtain ⟨j, hload⟩ := Journaled.exists_run_of_toOption hc
  have hpath : c.path = .ofString "/p/app/tsconfig.json" := congrArg (·.1) hvalues
  have hroot : c.root = .ofString "/p/app" := by rw [Config.root, hpath]; decide
  have habove : Reaches inheritingDisk c.path (.ofString "/p/base.json") :=
    .single (by rw [hpath]; decide +kernel)
  have hbelow : Reaches inheritingDisk c.path (.ofString "/p/app/lib/more.json") :=
    .single (by rw [hpath]; decide +kernel)
  have hselect := (kept_patterns_select (by decide) (by decide) hload).2
  rw [hroot] at hselect
  refine ⟨c, j, hload, congrArg (·.2) hvalues, ?_, ?_, ?_⟩
  · refine ((hselect _ habove _ ["app", "**", "*.ts"] ⟨.inl ?_, ?_, ?_, ?_⟩ ["app"] ?_).2 ?_).1
      ["**", "*.ts"] rfl (.inl ?_) <;> decide +kernel
  · refine ((hselect _ habove _ ["*", "x.ts"] ⟨.inl ?_, ?_, ?_, ?_⟩ ["app"] ?_).2 ?_).2 ?_ <;>
      decide +kernel
  · refine (hselect _ hbelow _ ["gen"] ⟨.inl ?_, ?_, ?_, ?_⟩ ["lib"] ?_).1 ?_ <;> decide +kernel

/-- A configuration that inherits a pattern from above which does not spell out the way down. -/
def aboveDisk : FileSystem :=
  let file (s : String) : Entry := .file (Bytes.ofString s)
  ((FileSystem.empty.place (.ofString "/p/app/tsconfig.json")
    (file "\x7b\"extends\": \"../base.json\"\x7d")).place
  (.ofString "/p/base.json") (file "\x7b\"include\": [\"**/*.ts\"]\x7d")).place
  (.ofString "/p/app/x.ts") (file "")

/-- The pattern selects a file of the project where it was written. It is kept as one that does not, so that
the project has no sources. -/
theorem pattern_from_above_lost : ∃ c j i,
    load aboveDisk (.ofString "/p/app") "tsconfig.json" [] = (.ok c, j) ∧
      Reaches aboveDisk c.path (.ofString "/p/base.json") ∧
      c.included = [kept c.root (.ofString "/p") "**/*.ts"] ∧
      (Path.ofString "/p").below? (.ofString "/p/app/x.ts") = some ["app", "x.ts"] ∧
      (Glob.ofString "**/*.ts" true false).selects (relativeText ["app", "x.ts"]) = true ∧
      c.root.below? (.ofString "/p/app/x.ts") = some ["x.ts"] ∧
      (Glob.ofString (kept c.root (.ofString "/p") "**/*.ts") true false).selects
        (relativeText ["x.ts"]) = false ∧
      c.sources aboveDisk [] = (.ok [], i) := by
  have hruns : ((load aboveDisk (.ofString "/p/app") "tsconfig.json" []).1.toOption.any fun c =>
      decide (c.path = .ofString "/p/app/tsconfig.json" ∧ c.included = ["../**/*.ts"] ∧
        (c.sources aboveDisk []).1.toOption = some [])) = true := by
    decide +kernel
  obtain ⟨c, hc, hwell⟩ := (Option.any_eq_true _ _).mp hruns
  obtain ⟨hpath, hincluded, hsources⟩ := of_decide_eq_true hwell
  obtain ⟨j, hload⟩ := Journaled.exists_run_of_toOption hc
  obtain ⟨i, hlisted⟩ := Journaled.exists_run_of_toOption hsources
  have hroot : c.root = .ofString "/p/app" := by rw [Config.root, hpath]; decide
  have hkept : kept (.ofString "/p/app") (.ofString "/p") "**/*.ts" = "../**/*.ts" := by decide +kernel
  refine ⟨c, j, i, hload, .single ?_, ?_, by decide, by decide +kernel, ?_, ?_, hlisted⟩
  · rw [hpath]
    decide +kernel
  · rw [hroot, hkept, hincluded]
  · rw [hroot]
    decide
  · rw [hroot, hkept]
    decide +kernel

end Config
end Codemod
