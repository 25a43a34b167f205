import Mathlib.Data.List.Sort
import Codemod.Proofs.SourceExtensions

/-!
# The listing of the sources

The files that the patterns choose are found by going down from the root through every directory that is not
skipped. Since each file stands in directories that are there, going down misses none. With the named files
they are put in path order, so that the list depends on nothing but which paths it holds.

A named file that is not there is noted and left out. A name that holds the null character leads nowhere, and
is not left out: the listing fails.

Main statements:

* `FileSystem.mem_descend_iff` says which directories are visited, by induction on the way down;
* `Config.mem_found_iff` says which files are found there;
* `Config.sources_eq_listing` says that the sources are the files that are found going down;
* `Config.sources_listed` says which paths are listed, and in which order;
* `Config.null_name_stops_listing` gives a project that has no listing.
-/

namespace Codemod

/-! ### Names and places -/

namespace Path

theorem exists_mem_splitSlash {cs : List Char} {c : Char} (h : c ∈ cs) (hc : c ≠ '/') :
    ∃ piece ∈ splitSlash cs, c ∈ piece := by
  induction cs with
  | nil => cases h
  | cons d rest ih =>
    by_cases hd : d = '/'
    · subst hd
      obtain ⟨piece, hpiece, hmem⟩ := ih ((List.mem_cons.mp h).resolve_left hc)
      exact ⟨piece, List.mem_cons_of_mem _ hpiece, hmem⟩
    · obtain ⟨first, more, hsplit⟩ := List.exists_cons_of_ne_nil (splitSlash_ne_nil rest)
      rw [splitSlash_cons_of_ne hd hsplit]
      rcases List.mem_cons.mp h with rfl | h
      · exact ⟨_, List.mem_cons_self .., List.mem_cons_self ..⟩
      · obtain ⟨piece, hpiece, hmem⟩ := ih h
        rw [hsplit] at hpiece
        rcases List.mem_cons.mp hpiece with rfl | hpiece
        · exact ⟨_, List.mem_cons_self .., List.mem_cons_of_mem _ hmem⟩
        · exact ⟨piece, List.mem_cons_of_mem _ hpiece, hmem⟩

/-- A character other than the slash and the dot stands in a text exactly when it stands in a segment. -/
theorem exists_mem_segmentsOf_iff {cs : List Char} {c : Char} (hslash : c ≠ '/') (hdot : c ≠ '.') :
    (∃ s ∈ segmentsOf cs, c ∈ s.toList) ↔ c ∈ cs := by
  unfold segmentsOf
  constructor
  · rintro ⟨s, hs, hmem⟩
    obtain ⟨piece, hpiece, rfl⟩ := List.mem_map.mp (List.mem_filter.mp hs).1
    rw [String.toList_ofList] at hmem
    exact (mem_of_mem_splitSlash hpiece c hmem).1
  · intro h
    obtain ⟨piece, hpiece, hmem⟩ := exists_mem_splitSlash h hslash
    have hchars : (String.ofList piece).toList = piece := String.toList_ofList
    refine ⟨String.ofList piece, List.mem_filter.mpr ⟨List.mem_map_of_mem hpiece, ?_⟩, hchars.symm ▸ hmem⟩
    -- Neither an empty segment nor `.` holds the character.
    rw [Bool.and_eq_true, bne_iff_ne, bne_iff_ne]
    constructor <;> intro heq <;> rw [heq] at hchars <;> rw [← hchars] at hmem
    · cases hmem
    · exact hdot (List.mem_singleton.mp hmem)

theorem below?_eq_some_iff {base p : Path} {ss : List String} :
    base.below? p = some ss ↔ p = ⟨base.anchor, base.segments ++ ss⟩ := by
  constructor
  · intro h
    have hsegments := below?_eq_some h
    unfold below? at h
    split at h
    case isTrue hbegins =>
      have hanchor : base.anchor = p.anchor := of_decide_eq_true ((Bool.and_eq_true _ _).mp hbegins).1
      rw [hanchor, ← hsegments]
    case isFalse => cases h
  · rintro rfl
    simp [below?]

end Path

namespace Config

theorem locate_eq (dir : Path) (s : String) :
    locate dir s = if '\x00' ∈ s.toList then .error .nullCharacter else .ok (dir.absolute (.ofString s)) := by
  have hnull : (Path.ofString s).segments.any (fun seg => seg.toList.contains '\x00') = true ↔
      '\x00' ∈ s.toList := by
    simp only [List.any_eq_true, List.contains_iff_mem]
    exact Path.exists_mem_segmentsOf_iff (by decide) (by decide)
  unfold locate
  dsimp only
  by_cases h : '\x00' ∈ s.toList
  · rw [if_pos h, if_pos (hnull.mpr h)]
  · rw [if_neg h, if_neg fun hany => h (hnull.mp hany)]

end Config

/-! ### Going down through the directories -/

/-- Whether an entry is a directory. -/
def Entry.isDirectory : Entry → Bool
  | .directory => true
  | .file _ => false

namespace FileSystem

/-- The names of the entries of one kind that lie directly in a directory. -/
def namesIn (fs : FileSystem) (kind : Entry → Bool) (d : Path) : List String :=
  fs.entries.filterMap fun e =>
    match d.below? e.1 with
    | some [name] => if kind e.2 then some name else none
    | _ => none

theorem mem_namesIn_iff {fs : FileSystem} {kind : Entry → Bool} {d : Path} {name : String} :
    name ∈ fs.namesIn kind d ↔ ∃ e, (d.child name, e) ∈ fs.entries ∧ kind e = true := by
  unfold namesIn
  rw [List.mem_filterMap]
  constructor
  · rintro ⟨⟨p, e⟩, hmem, hname⟩
    split at hname
    case h_1 last hbelow =>
      obtain rfl := Path.below?_eq_some_iff.mp hbelow
      split at hname
      case isTrue hkind =>
        cases hname
        exact ⟨e, hmem, hkind⟩
      case isFalse => cases hname
    case h_2 => cases hname
  · rintro ⟨e, hmem, hkind⟩
    refine ⟨_, hmem, ?_⟩
    have hbelow : d.below? (d.child name) = some [name] := Path.below?_eq_some_iff.mpr rfl
    simp [hbelow, hkind]

/-- The number of segments of the deepest place. -/
def depth (fs : FileSystem) : Nat :=
  (fs.entries.map (·.1.segments.length)).foldr max 0

theorem length_le_depth {fs : FileSystem} {e : Path × Entry} (h : e ∈ fs.entries) :
    e.1.segments.length ≤ fs.depth := by
  obtain ⟨entries⟩ := fs
  unfold depth
  induction entries with
  | nil => cases h
  | cons first rest ih =>
    rw [List.map_cons, List.foldr_cons]
    rcases List.mem_cons.mp h with rfl | h
    · exact le_max_left _ _
    · exact (ih h).trans (le_max_right _ _)

/-- The directories in a directory that are visited next. -/
def nextIn (fs : FileSystem) (d : Path) : List String :=
  (fs.namesIn Entry.isDirectory d).filter fun name => !Config.skippedDirectories.contains name

theorem mem_nextIn_iff {fs : FileSystem} {d : Path} {name : String} : name ∈ fs.nextIn d ↔
    (d.child name, .directory) ∈ fs.entries ∧ name ∉ Config.skippedDirectories := by
  unfold nextIn
  rw [List.mem_filter, mem_namesIn_iff]
  refine and_congr ?_ (by simp)
  constructor
  · rintro ⟨e, hmem, hkind⟩
    cases e with
    | directory => exact hmem
    | file b => cases hkind
  · exact fun hmem => ⟨_, hmem, rfl⟩

theorem length_child_le_depth {fs : FileSystem} {d : Path} {name : String} (h : name ∈ fs.nextIn d) :
    d.segments.length + 1 ≤ fs.depth := by
  have hdepth := length_le_depth (mem_nextIn_iff.mp h).1
  simpa [Path.child] using hdepth

/-- The directories that are visited, going down from one of them. -/
def descend (fs : FileSystem) (d : Path) : List Path :=
  d :: ((fs.nextIn d).pmap (fun name (_ : name ∈ fs.nextIn d) => descend fs (d.child name))
    fun _ h => h).flatten
-- A directory that is there lies no deeper than the deepest place.
termination_by fs.depth + 1 - d.segments.length
decreasing_by
  have hdepth := length_child_le_depth ‹name ∈ fs.nextIn d›
  simp only [Path.child, List.length_append, List.length_singleton]
  omega

theorem mem_descend_step {fs : FileSystem} {d q : Path} :
    q ∈ fs.descend d ↔ q = d ∨ ∃ name ∈ fs.nextIn d, q ∈ fs.descend (d.child name) := by
  rw [descend, List.pmap_eq_map, List.mem_cons, ← List.flatMap_def, List.mem_flatMap]

/-- The directories on a way down from one of them are there. -/
def Leads (fs : FileSystem) (d : Path) (way : List String) : Prop :=
  ∀ front, front ≠ [] → front <+: way → (⟨d.anchor, d.segments ++ front⟩, .directory) ∈ fs.entries

theorem leads_cons_iff {fs : FileSystem} {d : Path} {name : String} {way : List String} :
    fs.Leads d (name :: way) ↔ (d.child name, .directory) ∈ fs.entries ∧ fs.Leads (d.child name) way := by
  constructor
  · intro h
    refine ⟨h [name] (List.cons_ne_nil _ _) ⟨way, rfl⟩, fun front hne hfront => ?_⟩
    have hplace := h (name :: front) (List.cons_ne_nil _ _) (List.cons_prefix_cons.mpr ⟨rfl, hfront⟩)
    simpa [Path.child] using hplace
  · rintro ⟨hfirst, hrest⟩ front hne hfront
    obtain ⟨first, more, rfl⟩ := List.exists_cons_of_ne_nil hne
    obtain ⟨rfl, hmore⟩ := List.cons_prefix_cons.mp hfront
    by_cases hnil : more = []
    · subst hnil
      exact hfirst
    · simpa [Path.child] using hrest more hnil hmore

/-- The visited directories are those that lie below without a skipped one on the way. -/
theorem mem_descend_iff {fs : FileSystem} {d q : Path} : q ∈ fs.descend d ↔
    ∃ way, q = ⟨d.anchor, d.segments ++ way⟩ ∧ (∀ s ∈ way, s ∉ Config.skippedDirectories) ∧
      fs.Leads d way := by
  constructor
  · -- The induction follows the visits: what is visited from a directory below lies below it.
    intro h
    induction d using FileSystem.descend.induct fs with
    | case1 d ih =>
      rcases mem_descend_step.mp h with rfl | ⟨name, hname, h⟩
      · refine ⟨[], by simp, by simp, fun front hne hfront => ?_⟩
        exact absurd (List.prefix_nil.mp hfront) hne
      · obtain ⟨way, rfl, hway, hleads⟩ := ih name hname h
        obtain ⟨hentry, hkept⟩ := mem_nextIn_iff.mp hname
        refine ⟨name :: way, by simp [Path.child], ?_, leads_cons_iff.mpr ⟨hentry, hleads⟩⟩
        exact List.forall_mem_cons.mpr ⟨hkept, hway⟩
  · -- The induction is on the way down: its first directory is visited next.
    rintro ⟨way, rfl, hway, hleads⟩
    induction way generalizing d with
    | nil => exact mem_descend_step.mpr (.inl (by simp))
    | cons name way ih =>
      obtain ⟨hentry, hleads⟩ := leads_cons_iff.mp hleads
      obtain ⟨hkept, hway⟩ := List.forall_mem_cons.mp hway
      refine mem_descend_step.mpr (.inr ⟨name, mem_nextIn_iff.mpr ⟨hentry, hkept⟩, ?_⟩)
      have hrest := ih hway hleads
      simpa [Path.child] using hrest

/-- A place that holds a file. -/
theorem Standing.isFile_iff {fs : FileSystem} (h : fs.Standing) {p : Path} :
    fs.isFile p = true ↔ ∃ b, (p, .file b) ∈ fs.entries := by
  constructor
  · intro hp
    unfold isFile content? lookup? at hp
    split at hp
    case h_1 b hlook =>
      split at hlook
      case isTrue => cases hlook
      case isFalse => exact ⟨b, Keyed.mem_of_get? hlook⟩
    case h_2 => cases hp
  · rintro ⟨b, hmem⟩
    exact h.isFile_of_mem (List.mem_map.mpr ⟨(p, b), List.mem_filterMap.mpr ⟨_, hmem, rfl⟩, rfl⟩)

/-- The directories on the way to an entry are there. -/
theorem Standing.leads {fs : FileSystem} (h : fs.Standing) {d : Path} {way : List String} {name : String}
    {e : Entry} (hentry : (⟨d.anchor, d.segments ++ way ++ [name]⟩, e) ∈ fs.entries) :
    fs.Leads d way := by
  rintro front hne ⟨back, rfl⟩
  have habove : (⟨d.anchor, d.segments ++ front⟩ : Path) ∈
      directoriesAbove ⟨d.anchor, d.segments ++ (front ++ back) ++ [name]⟩ := by
    -- The directories above an entry are counted from the one below the root on.
    have hpos : 0 < front.length := List.length_pos_iff.mpr hne
    refine List.mem_map.mpr ⟨d.segments.length + front.length - 1, List.mem_range.mpr ?_, ?_⟩
    · simp only [List.length_append, List.length_singleton]
      omega
    · have hlength : d.segments.length + front.length - 1 + 1 = (d.segments ++ front).length := by
        rw [List.length_append]
        omega
      rw [hlength, ← List.append_assoc, List.append_assoc, List.take_left]
  have hlook := h.inside _ hentry _ habove
  unfold lookup? at hlook
  rw [if_neg (by simp [hne])] at hlook
  exact Keyed.mem_of_get? hlook

end FileSystem

namespace Config

/-! ### The files that are found -/

/-- Whether the patterns let the file at a place pass: one of them includes it, and none excludes it. -/
def admits (c : Config) (p : Path) : Bool :=
  match c.root.below? p with
  | some ss =>
    let path := Path.relativeText ss
    c.included.any (fun s => (Glob.ofString s true false).selects path) &&
      !c.effectiveExcluded.any (fun s => (Glob.ofString s true true).selects path)
  | none => false

/-- The files that are found going down from the root. -/
def found (c : Config) (fs : FileSystem) : List Path :=
  (fs.descend c.root).flatMap fun d =>
    ((fs.namesIn (!·.isDirectory) d).filter fun name =>
      hasExtension c.extensions name && c.admits (d.child name)).map d.child

/-- The listing of the named files and of those that are found going down. -/
def listing (c : Config) (fs : FileSystem) : Journaled Fault (List Path) := do
  let named ← c.namedFiles fs c.files
  return pathOrder (named ++ c.found fs)

/-- A file that a configuration names. -/
def NamesFile (c : Config) (fs : FileSystem) (p : Path) : Prop :=
  fs.isFile p = true ∧ ∃ s ∈ c.files, p = c.root.absolute (.ofString s)

/-- A file that the patterns of a configuration choose: it lies under the root, in no directory that is
skipped, its name ends with an accepted extension, a pattern includes it, and no pattern excludes it, that of
the output directory in the project among them. -/
def ChoosesFile (c : Config) (fs : FileSystem) (p : Path) : Prop :=
  fs.isFile p = true ∧ ∃ dirs name, p = ⟨c.root.anchor, c.root.segments ++ dirs ++ [name]⟩ ∧
    (∀ d ∈ dirs, d ∉ skippedDirectories) ∧
    (∃ ext ∈ c.extensions, ∃ base, name = base ++ ext) ∧
    (∃ s ∈ c.included, (Glob.ofString s true false).selects (Path.relativeText (dirs ++ [name])) = true) ∧
    (∀ s ∈ c.excluded, (Glob.ofString s true true).selects (Path.relativeText (dirs ++ [name])) = false) ∧
    (∀ out below, c.outDir = some out → c.root.below? out = some below →
      (Glob.ofString (Path.relativeText below) true true).selects (Path.relativeText (dirs ++ [name])) = false)

theorem mem_effectiveExcluded_iff {c : Config} {s : String} : s ∈ c.effectiveExcluded ↔
    s ∈ c.excluded ∨ ∃ out below, c.outDir = some out ∧ c.root.below? out = some below ∧
      s = Path.relativeText below := by
  unfold effectiveExcluded
  split
  case h_1 below hout =>
    obtain ⟨out, hout, hbelow⟩ := Option.bind_eq_some_iff.mp hout
    rw [List.mem_append, List.mem_singleton]
    refine or_congr_right ⟨fun h => ⟨out, below, hout, hbelow, h⟩, ?_⟩
    rintro ⟨out', below', hout', hbelow', rfl⟩
    cases hout.symm.trans hout'
    cases hbelow.symm.trans hbelow'
    rfl
  case h_2 hnone =>
    refine (or_iff_left ?_).symm
    rintro ⟨out, below, hout, hbelow, -⟩
    rw [hout, Option.bind_some, hbelow] at hnone
    cases hnone

/-- What the patterns let pass. -/
theorem admits_iff {c : Config} {ss : List String} :
    c.admits ⟨c.root.anchor, c.root.segments ++ ss⟩ = true ↔
      (∃ s ∈ c.included, (Glob.ofString s true false).selects (Path.relativeText ss) = true) ∧
      (∀ s ∈ c.excluded, (Glob.ofString s true true).selects (Path.relativeText ss) = false) ∧
      (∀ out below, c.outDir = some out → c.root.below? out = some below →
        (Glob.ofString (Path.relativeText below) true true).selects (Path.relativeText ss) = false) := by
  unfold admits
  rw [Path.below?_eq_some_iff.mpr rfl]
  dsimp only
  rw [Bool.and_eq_true, List.any_eq_true, Bool.not_eq_true', List.any_eq_false]
  refine and_congr_right fun _ => ?_
  simp only [mem_effectiveExcluded_iff, Bool.not_eq_true]
  constructor
  · intro h
    exact ⟨fun s hs => h s (.inl hs), fun out below hout hbelow => h _ (.inr ⟨out, below, hout, hbelow, rfl⟩)⟩
  · rintro ⟨hexcluded, hout⟩ s (hs | ⟨out, below, hdir, hbelow, rfl⟩)
    · exact hexcluded s hs
    · exact hout out below hdir hbelow

theorem mem_found_iff {c : Config} {fs : FileSystem} (h : fs.Standing) {p : Path} :
    p ∈ c.found fs ↔ c.ChoosesFile fs p := by
  unfold found ChoosesFile
  simp only [List.mem_flatMap, List.mem_map, List.mem_filter, Bool.and_eq_true, FileSystem.mem_namesIn_iff,
    FileSystem.mem_descend_iff, hasExtension_iff]
  constructor
  · rintro ⟨d, ⟨dirs, rfl, hdirs, -⟩, name, ⟨⟨e, hentry, hkind⟩, hext, hadmits⟩, rfl⟩
    have hfile : fs.isFile (Path.child ⟨c.root.anchor, c.root.segments ++ dirs⟩ name) = true := by
      cases e with
      | directory => cases hkind
      | file b => exact h.isFile_iff.mpr ⟨b, hentry⟩
    unfold Path.child at hadmits
    rw [List.append_assoc] at hadmits
    exact ⟨hfile, dirs, name, rfl, hdirs, hext, admits_iff.mp hadmits⟩
  · rintro ⟨hfile, dirs, name, rfl, hdirs, hext, hpatterns⟩
    obtain ⟨b, hentry⟩ := h.isFile_iff.mp hfile
    refine ⟨_, ⟨dirs, rfl, hdirs, h.leads hentry⟩, name, ⟨⟨_, hentry, rfl⟩, hext, ?_⟩, rfl⟩
    unfold Path.child
    rw [List.append_assoc]
    exact admits_iff.mpr hpatterns

theorem selectsFile_append (c : Config) (dirs : List String) (name : String) :
    c.selectsFile (dirs ++ [name]) = (!dirs.any (skippedDirectories.contains ·) &&
      hasExtension c.extensions name && c.admits ⟨c.root.anchor, c.root.segments ++ (dirs ++ [name])⟩) := by
  unfold selectsFile admits
  rw [Path.below?_eq_some_iff.mpr rfl, List.dropLast_concat, List.getLast?_concat, Option.getD_some]
  simp only [Bool.and_assoc]

/-- The files that the patterns select under the root are the chosen ones. -/
theorem mem_walk_iff_choosesFile {c : Config} {fs : FileSystem} (h : fs.Standing) {p : Path} :
    p ∈ c.walk fs ↔ c.ChoosesFile fs p := by
  rw [mem_walk_iff]
  constructor
  · rintro ⟨hmem, ss, hbelow, hselected⟩
    obtain rfl := Path.below?_eq_some_iff.mp hbelow
    obtain rfl | ⟨dirs, name, rfl⟩ := List.eq_nil_or_concat' ss
    · -- The root itself has no extension.
      simp [selectsFile, hasExtension_empty] at hselected
    · rw [selectsFile_append, Bool.and_eq_true, Bool.and_eq_true] at hselected
      obtain ⟨⟨hdirs, hext⟩, hadmits⟩ := hselected
      refine ⟨h.isFile_of_mem hmem, dirs, name, by rw [List.append_assoc], ?_, hasExtension_iff.mp hext,
        admits_iff.mp hadmits⟩
      simpa using hdirs
  · rintro ⟨hfile, dirs, name, rfl, hdirs, hext, hpatterns⟩
    obtain ⟨b, hentry⟩ := h.isFile_iff.mp hfile
    refine ⟨List.mem_map.mpr ⟨(_, b), List.mem_filterMap.mpr ⟨_, hentry, rfl⟩, rfl⟩, dirs ++ [name], ?_, ?_⟩
    · exact Path.below?_eq_some_iff.mpr (by rw [List.append_assoc])
    · rw [selectsFile_append, Bool.and_eq_true, Bool.and_eq_true]
      exact ⟨⟨by simpa using hdirs, hasExtension_iff.mpr hext⟩, admits_iff.mpr hpatterns⟩

/-! ### The listing -/

/-- The list in path order depends on nothing but the paths. -/
theorem pathOrder_congr {l l' : List Path} (hl : ∀ q ∈ l, q.anchor = .root) (h : ∀ p, p ∈ l ↔ p ∈ l') :
    pathOrder l = pathOrder l' := by
  have hirrefl : Std.Irrefl fun p q : Path => p.key < q.key := ⟨fun p => lt_irrefl p.key⟩
  have hantisymm : Std.Antisymm fun p q : Path => p.key < q.key :=
    ⟨fun p q hpq hqp => absurd hqp (lt_asymm hpq)⟩
  refine (pathOrder_sorted hl).1.eq_of_mem_iff (pathOrder_sorted fun q hq => hl q ((h q).mpr hq)).1 fun p => ?_
  rw [mem_pathOrder, mem_pathOrder, h]

section

variable {c : Config} {fs : FileSystem} {ss : List String} {j : Journal}

/-- Where no name holds the null character, the named files that are there are listed. -/
theorem namedFiles_listed (h : ∀ s ∈ ss, '\x00' ∉ s.toList) (j : Journal) :
    ∃ ps j', c.namedFiles fs ss j = (.ok ps, j') ∧
      ∀ p, p ∈ ps ↔ fs.isFile p = true ∧ ∃ s ∈ ss, p = c.root.absolute (.ofString s) := by
  induction ss generalizing j with
  | nil => exact ⟨[], j, rfl, by simp⟩
  | cons s rest ih =>
    obtain ⟨hs, hrest⟩ := List.forall_mem_cons.mp h
    unfold namedFiles
    rw [locate_eq, if_neg hs, Journaled.ofExcept_ok_bind]
    split
    case isTrue hfile =>
      obtain ⟨ps, j', hrun, hmem⟩ := ih hrest j
      refine ⟨_ :: ps, j', Journaled.bind_ok hrun, fun p => ?_⟩
      rw [List.mem_cons, hmem, List.exists_mem_cons_iff, and_or_left]
      exact or_congr_left ⟨fun hp => ⟨hp ▸ hfile, hp⟩, fun hp => hp.2⟩
    case isFalse hfile =>
      obtain ⟨ps, j', hrun, hmem⟩ := ih hrest
        (j ++ [⟨.warning, s!"tsconfig 'files' entry not found: {s}"⟩])
      refine ⟨ps, j', (Journaled.bind_ok (Journaled.note_run ..)).trans hrun, fun p => ?_⟩
      rw [hmem, List.exists_mem_cons_iff, and_or_left, or_iff_right]
      rintro ⟨hp, rfl⟩
      exact hfile hp

/-- A name with the null character ends the listing. -/
theorem namedFiles_null (h : ∃ s ∈ ss, '\x00' ∈ s.toList) (j : Journal) :
    ∃ j', c.namedFiles fs ss j = (.error .nullCharacter, j') := by
  induction ss generalizing j with
  | nil =>
    obtain ⟨s, hs, -⟩ := h
    cases hs
  | cons s rest ih =>
    unfold namedFiles
    rw [locate_eq]
    by_cases hs : '\x00' ∈ s.toList
    · rw [if_pos hs]
      exact ⟨j, rfl⟩
    · have hrest := ((List.exists_mem_cons_iff ..).mp h).resolve_left hs
      rw [if_neg hs, Journaled.ofExcept_ok_bind]
      split
      case isTrue =>
        obtain ⟨j', hrun⟩ := ih hrest j
        exact ⟨j', Journaled.bind_error hrun⟩
      case isFalse =>
        obtain ⟨j', hrun⟩ := ih hrest (j ++ [⟨.warning, s!"tsconfig 'files' entry not found: {s}"⟩])
        exact ⟨j', (Journaled.bind_ok (Journaled.note_run ..)).trans hrun⟩

/-- All that is listed is written from the root of the file system, as the root of the project is. -/
theorem anchor_of_listed (hfs : fs.Standing) (hroot : c.root.anchor = .root) {named : List Path} {j' : Journal}
    (h : c.namedFiles fs ss j = (.ok named, j')) : ∀ q ∈ named ++ c.found fs, q.anchor = .root := by
  intro q hq
  rcases List.mem_append.mp hq with hq | hq
  · obtain ⟨s, -, hs, -⟩ := origin_of_namedFiles h q hq
    exact locate_anchor hs
  · obtain ⟨-, dirs, name, rfl, -⟩ := (mem_found_iff hfs).mp hq
    exact hroot

/-- The sources are the named files and those that are found going down from the root. -/
theorem sources_eq_listing (hfs : fs.Standing) (hroot : c.root.anchor = .root) (j : Journal) :
    c.sources fs j = c.listing fs j := by
  unfold sources listing
  cases hrun : c.namedFiles fs c.files j with
  | mk result j' =>
    cases result with
    | error e => rw [Journaled.bind_error hrun, Journaled.bind_error hrun]
    | ok named =>
      rw [Journaled.bind_ok hrun, Journaled.bind_ok hrun]
      -- The two lists hold the same paths, so that their order is the same too.
      have hsame : pathOrder (named ++ c.found fs) = pathOrder (named ++ c.walk fs) := by
        refine pathOrder_congr (anchor_of_listed hfs hroot hrun) fun q => ?_
        rw [List.mem_append, List.mem_append, mem_walk_iff_choosesFile hfs, mem_found_iff hfs]
      rw [hsame]

/-- Where no name holds the null character, the sources are listed: in path order, and exactly the named files
and the chosen ones. -/
theorem exists_sources (hfs : fs.Standing) (hroot : c.root.anchor = .root)
    (hnull : ∀ s ∈ c.files, '\x00' ∉ s.toList) (j : Journal) :
    ∃ ps j', c.sources fs j = (.ok ps, j') ∧
      ps.Pairwise (fun p q => p.segments.map Path.codes < q.segments.map Path.codes) ∧
      (∀ p ∈ ps, p.anchor = .root) ∧ ∀ p, p ∈ ps ↔ c.NamesFile fs p ∨ c.ChoosesFile fs p := by
  obtain ⟨named, j', hrun, hnamed⟩ := @namedFiles_listed c fs _ hnull j
  have hroots := anchor_of_listed hfs hroot hrun
  have hanchors : ∀ q ∈ pathOrder (named ++ c.found fs), q.anchor = .root :=
    fun q hq => hroots q (mem_pathOrder.mp hq)
  refine ⟨pathOrder (named ++ c.found fs), j', ?_, ?_, hanchors, fun p => ?_⟩
  · rw [sources_eq_listing hfs hroot]
    exact Journaled.bind_ok hrun
  · refine (pathOrder_sorted hroots).1.imp_of_mem fun {p q} hp hq hlt => ?_
    -- Both keys begin with the root.
    unfold Path.key Path.isAbsolute at hlt
    rw [hanchors p hp, hanchors q hq] at hlt
    exact (List.cons_lt_cons_iff.mp hlt).resolve_left (lt_irrefl _) |>.2
  · rw [mem_pathOrder, List.mem_append, hnamed, mem_found_iff hfs]
    rfl

end

/-- The sources of a loaded configuration are listed exactly where no named file holds the null character in
its name. They are in path order, and they are the named files and the files that the patterns choose; going
down from the root finds no other ones. No exclusion takes a named file away. -/
theorem sources_listed {fs : FileSystem} {cwd : Path} {name : String} {c : Config} {j j₁ : Journal}
    (hfs : fs.Standing) (hload : Config.load fs cwd name j = (.ok c, j₁)) (i : Journal) :
    ((∃ s ∈ c.files, '\x00' ∈ s.toList) → ∃ i', c.sources fs i = (.error .nullCharacter, i')) ∧
    ((∀ s ∈ c.files, '\x00' ∉ s.toList) → ∃ ps i', c.sources fs i = (.ok ps, i') ∧
      c.listing fs i = (.ok ps, i') ∧
      ps.Pairwise (fun p q => p.segments.map Path.codes < q.segments.map Path.codes) ∧
      (∀ p ∈ ps, p.anchor = .root) ∧
      (∀ p, p ∈ ps ↔ c.NamesFile fs p ∨ c.ChoosesFile fs p) ∧
      ∀ excluded, ∃ qs k, { c with excluded := excluded }.sources fs i = (.ok qs, k) ∧
        ∀ p, c.NamesFile fs p → p ∈ qs) := by
  have hroot := load_root_anchor hload
  constructor
  · intro hnull
    obtain ⟨i', hrun⟩ := @namedFiles_null c fs _ hnull i
    exact ⟨i', Journaled.bind_error hrun⟩
  · intro hnull
    obtain ⟨ps, i', hrun, hsorted, hanchors, hmem⟩ := exists_sources hfs hroot hnull i
    refine ⟨ps, i', hrun, (sources_eq_listing hfs hroot i).symm.trans hrun, hsorted, hanchors, hmem,
      fun excluded => ?_⟩
    obtain ⟨qs, k, hruns, -, -, hmem'⟩ :=
      @exists_sources { c with excluded := excluded } fs hfs hroot hnull i
    exact ⟨qs, k, hruns, fun p hp => (hmem' p).mpr (.inl hp)⟩

/-- A place in the directory of a project. -/
def inProject (ss : List String) : Path := ⟨.root, "p" :: ss⟩

/-- A project whose directories hold files of every kind: chosen ones, excluded ones, skipped ones, output, and
a named one. -/
def mixedDisk : FileSystem :=
  ((((((FileSystem.empty.place (inProject ["tsconfig.json"])
    (.file (Bytes.ofString ("\x7b\"compilerOptions\":\x7b\"outDir\":\"out\"\x7d,\"include\":[\"**/*\"]," ++
      "\"exclude\":[\"gen\"],\"files\":[\"gen/kept.ts\",\"gone.ts\"]\x7d")))).place
  (inProject ["a.ts"]) (.file [])).place
  (inProject ["a", "b.ts"]) (.file [])).place
  (inProject ["a", "node_modules", "m.ts"]) (.file [])).place
  (inProject ["gen", "kept.ts"]) (.file [])).place
  (inProject ["gen", "dropped.ts"]) (.file [])).place
  (inProject ["out", "a.ts"]) (.file [])

/-- The sources of this project, in path order. -/
def mixedSources : List Path :=
  [inProject ["a", "b.ts"], inProject ["a.ts"], inProject ["gen", "kept.ts"]]

theorem mixedDisk_sources : mixedDisk.Standing ∧ ∃ c j₁ i,
    load mixedDisk (inProject []) "tsconfig.json" [] = (.ok c, j₁) ∧
      c.sources mixedDisk [] = (.ok mixedSources, i) ∧
      c.ChoosesFile mixedDisk (inProject ["a", "b.ts"]) ∧
      ¬ c.ChoosesFile mixedDisk (inProject ["gen", "dropped.ts"]) := by
  have hstanding : mixedDisk.Standing := ⟨by decide +kernel, by decide +kernel, by decide +kernel⟩
  have hruns : ((load mixedDisk (inProject []) "tsconfig.json" []).1.toOption.any fun c =>
      decide (c.root = inProject [] ∧ c.files = ["gen/kept.ts", "gone.ts"] ∧
        (c.sources mixedDisk []).1.toOption = some mixedSources)) = true := by
    decide +kernel
  obtain ⟨c, hc, hwell⟩ := (Option.any_eq_true _ _).mp hruns
  obtain ⟨hroot, hfiles, hlisted⟩ := of_decide_eq_true hwell
  obtain ⟨j₁, hload⟩ := Journaled.exists_run_of_toOption hc
  obtain ⟨ps, i, hrun, -, -, -, hmem, -⟩ := (sources_listed hstanding hload []).2 (by rw [hfiles]; decide)
  obtain rfl : ps = _ := Option.some.inj ((congrArg (·.1.toOption) hrun).symm.trans hlisted)
  refine ⟨hstanding, c, j₁, i, hload, hrun, ?_, fun hchosen => ?_⟩
  · refine ((hmem _).mp (by simp [mixedSources])).resolve_left ?_
    rintro ⟨-, s, hs, hplace⟩
    rw [hfiles] at hs
    rw [hroot] at hplace
    have hnone : ∀ s ∈ ["gen/kept.ts", "gone.ts"],
        inProject ["a", "b.ts"] ≠ (inProject []).absolute (.ofString s) := by decide +kernel
    exact hnone s hs hplace
  · exact absurd ((hmem _).mpr (.inr hchosen)) (by decide +kernel)

/-- A project that names a file with the null character in its name, and one that is there. -/
def nullDisk : FileSystem :=
  (FileSystem.empty.place (inProject ["tsconfig.json"])
    (.file (Bytes.ofString "\x7b\"files\": [\"a\\u0000.ts\", \"b.ts\"]\x7d"))).place
  (inProject ["b.ts"]) (.file [])

/-- The file that is there is not listed: the other name ends the listing, and is not left out. -/
theorem null_name_stops_listing : nullDisk.Standing ∧ ∃ c j₁ i,
    load nullDisk (inProject []) "tsconfig.json" [] = (.ok c, j₁) ∧
      c.NamesFile nullDisk (inProject ["b.ts"]) ∧
      (∀ s ∈ c.files, nullDisk.contains (c.root.absolute (.ofString s)) = true → s = "b.ts") ∧
      c.sources nullDisk j₁ = (.error .nullCharacter, i) := by
  have hruns : ((load nullDisk (inProject []) "tsconfig.json" []).1.toOption.any fun c =>
      decide (c.root = inProject [] ∧ c.files = ["a\x00.ts", "b.ts"])) = true := by
    decide +kernel
  obtain ⟨c, hc, hwell⟩ := (Option.any_eq_true _ _).mp hruns
  obtain ⟨hroot, hfiles⟩ := of_decide_eq_true hwell
  obtain ⟨j₁, hload⟩ := Journaled.exists_run_of_toOption hc
  have hnull : ∃ s ∈ c.files, '\x00' ∈ s.toList := ⟨"a\x00.ts", by simp [hfiles], by decide⟩
  obtain ⟨i, hrun⟩ := @namedFiles_null c nullDisk _ hnull j₁
  refine ⟨⟨by decide +kernel, by decide +kernel, by decide +kernel⟩, c, j₁, i, hload, ⟨?_, "b.ts", ?_, ?_⟩, ?_,
    Journaled.bind_error hrun⟩
  · decide +kernel
  · rw [hfiles]
    decide
  · rw [hroot]
    decide +kernel
  · rw [hroot, hfiles]
    decide +kernel

end Config

end Codemod
