import Codemod.Proofs.KeyedLists
import Codemod.Proofs.Reload
import Codemod.Proofs.RootedResolution

/-!
# The extensions of sources

Four places decide whether a file is a source: the list of named files, which asks for nothing but a file; the
patterns, which ask how the name ends; the dialects, which go with an extension; and the resolution of
specifiers, which tries extensions. An extension is less than an end of the name: a name that is nothing but
`.ts` has none. Where a source has one of the extensions that the configuration accepts, all four agree. Where
it does not, the project cannot be loaded, or the file is one that no specifier leads to.

Main statements:

* `extension_mem_iff` compares the extension of a file with the end of its name;
* `origin_of_sources` says which files are sources;
* `mem_placeCandidates_self` says when a place is a candidate for itself;
* `sources_load_and_resolve` says for which sources the four places agree;
* `bare_extension_stops_load` gives a source with which no project can be loaded.
-/

namespace Codemod

namespace Config

/-! ### Ends of names and extensions -/

theorem mem_all_of_mem {c : Config} {ext : String} (h : ext ∈ c.extensions) :
    ext ∈ Dialect.typescriptExtensions ++ Dialect.javascriptExtensions := by
  unfold extensions at h
  split at h
  · exact h
  · exact List.mem_append_left _ h

/-- An extension is a dot with characters behind it that are no dots. -/
theorem exists_of_mem_extensions {c : Config} {ext : String} (h : ext ∈ c.extensions) :
    ∃ rest, ext.toList = '.' :: rest ∧ rest ≠ [] ∧ '.' ∉ rest := by
  have hall : ∀ e ∈ Dialect.typescriptExtensions ++ Dialect.javascriptExtensions,
      e.toList.head? = some '.' ∧ e.toList.tail ≠ [] ∧ '.' ∉ e.toList.tail := by decide
  obtain ⟨hhead, htail, hdot⟩ := hall ext (mem_all_of_mem h)
  obtain ⟨rest, hrest⟩ := List.head?_eq_some_iff.mp hhead
  rw [hrest] at htail hdot
  exact ⟨rest, hrest, htail, hdot⟩

theorem hasExtension_iff {exts : List String} {name : String} :
    hasExtension exts name = true ↔ ∃ ext ∈ exts, ∃ base, name = base ++ ext := by
  unfold hasExtension Text.hasSuffix
  rw [List.any_eq_true]
  refine exists_congr fun ext => and_congr_right fun _ => ?_
  rw [List.isSuffixOf_iff_suffix]
  constructor
  · rintro ⟨base, hbase⟩
    exact ⟨String.ofList base, by rw [← String.toList_inj, String.toList_append, String.toList_ofList, hbase]⟩
  · rintro ⟨base, rfl⟩
    exact ⟨base.toList, String.toList_append.symm⟩

theorem hasExtension_empty (c : Config) : hasExtension c.extensions "" = false := by
  refine Bool.eq_false_iff.mpr fun h => ?_
  obtain ⟨ext, hext, base, hempty⟩ := hasExtension_iff.mp h
  obtain ⟨rest, hrest, -⟩ := exists_of_mem_extensions hext
  rw [(String.append_eq_empty_iff.mp hempty.symm).2] at hrest
  cases hrest

/-- A file has an accepted extension exactly when its name ends with one and is not nothing but one. -/
theorem extension_mem_iff {c : Config} {p : Path} : p.extension ∈ c.extensions ↔
    hasExtension c.extensions p.name = true ∧ p.name ∉ c.extensions := by
  rw [hasExtension_iff]
  constructor
  · intro hext
    refine ⟨⟨p.extension, hext, p.stem, (Path.stem_append_extension p).symm⟩, fun hname => ?_⟩
    -- A name that is nothing but one of the extensions has none.
    have hnone : ∀ e ∈ Dialect.typescriptExtensions ++ Dialect.javascriptExtensions,
        String.ofList (Path.splitName e.toList).2 = "" := by decide
    have hempty : p.extension = "" := hnone p.name (mem_all_of_mem hname)
    obtain ⟨rest, hrest, -⟩ := exists_of_mem_extensions hext
    rw [hempty] at hrest
    cases hrest
  · rintro ⟨⟨ext, hext, base, hname⟩, hbare⟩
    have hbase : base.toList ≠ [] := by
      intro hnil
      obtain rfl : base = "" := String.toList_inj.mp (hnil.trans rfl)
      rw [String.empty_append] at hname
      exact hbare (hname ▸ hext)
    obtain ⟨rest, hrest, hne, hdot⟩ := exists_of_mem_extensions hext
    have hsplit : p.extension = ext := by
      unfold Path.extension
      rw [hname, String.toList_append, hrest, Path.splitName_of_end hbase hne hdot, ← hrest,
        String.ofList_toList]
    exact hsplit ▸ hext

/-! ### Which files are sources -/

theorem mem_pathOrder {l : List Path} {p : Path} : p ∈ pathOrder l ↔ p ∈ l := by
  have key : ∀ (l acc : List Path), p ∈ l.foldl (fun acc q => insertPath q acc) acc ↔ p ∈ acc ∨ p ∈ l := by
    intro l
    induction l with
    | nil => simp
    | cons q rest ih =>
      intro acc
      rw [List.foldl_cons, ih, mem_insertPath, List.mem_cons]
      tauto
  exact (key l []).trans (by simp)

/-- A source is a file that the configuration names, or one that the patterns select. -/
theorem origin_of_sources {c : Config} {fs : FileSystem} {j j' : Journal} {ps : List Path}
    (h : c.sources fs j = (.ok ps, j')) : ∀ p ∈ ps,
      (∃ s ∈ c.files, locate c.root s = .ok p ∧ fs.isFile p = true) ∨ p ∈ c.walk fs := by
  unfold sources at h
  obtain ⟨named, j₁, hnamed, hrest⟩ := Journaled.bind_eq_ok h
  cases hrest
  intro p hp
  rcases List.mem_append.mp (mem_pathOrder.mp hp) with hp | hp
  · exact .inl (origin_of_namedFiles hnamed p hp)
  · exact .inr hp

/-- The name of a file that the patterns select ends with an accepted extension. -/
theorem hasExtension_of_walk {c : Config} {fs : FileSystem} {p : Path} (h : p ∈ c.walk fs) :
    hasExtension c.extensions p.name = true := by
  obtain ⟨-, ss, hbelow, hselected⟩ := mem_walk_iff.mp h
  unfold selectsFile at hselected
  simp only [Bool.and_eq_true] at hselected
  obtain ⟨⟨⟨-, hlast⟩, -⟩, -⟩ := hselected
  have hname : p.name = ss.getLast?.getD "" := by
    unfold Path.name
    rw [Path.below?_eq_some hbelow, List.getLast?_append]
    cases hss : ss.getLast? with
    | some s => rfl
    | none =>
      -- The root itself would have to end with an extension.
      rw [hss, Option.getD_none, hasExtension_empty] at hlast
      cases hlast
  rw [hname]
  exact hlast

end Config

/-! ### Files that can be read -/

/-- Every entry of the file system stands once, in directories that are there. -/
structure FileSystem.Standing (fs : FileSystem) : Prop where
  nodup : fs.entries.keys.Nodup
  placed : ∀ e ∈ fs.entries, e.1.segments ≠ []
  inside : ∀ e ∈ fs.entries, ∀ d ∈ directoriesAbove e.1, fs.lookup? d = some .directory

namespace FileSystem.Standing

variable {fs : FileSystem} {p : Path}

/-- Every file can be read. -/
theorem read_of_isFile (h : fs.Standing) (hp : fs.isFile p = true) : ∃ b, fs.read p = .ok b := by
  obtain ⟨b, hb⟩ := Option.isSome_iff_exists.mp hp
  have hlook : fs.lookup? p = some (.file b) := by
    unfold content? at hb
    split at hb
    case h_1 b' hb' => cases hb; exact hb'
    case h_2 => cases hb
  refine ⟨b, read_eq_ok_iff.mpr ⟨?_, hlook⟩⟩
  have hentry : ∃ e ∈ fs.entries, e.1 = p := by
    unfold lookup? at hlook
    split at hlook
    · cases hlook
    · exact List.mem_map.mp (Keyed.get?_isSome_iff.mp (Option.isSome_iff_exists.mpr ⟨_, hlook⟩))
  obtain ⟨e, he, rfl⟩ := hentry
  unfold blocked?
  refine List.findSome?_eq_none_iff.mpr fun d hd => ?_
  rw [h.inside e he d hd]

/-- A file that is listed is a file where it stands. -/
theorem isFile_of_mem (h : fs.Standing) (hp : p ∈ fs.files.map (·.1)) : fs.isFile p = true := by
  obtain ⟨⟨q, b⟩, hfile, rfl⟩ := List.mem_map.mp hp
  obtain ⟨⟨r, entry⟩, he, hentry⟩ := List.mem_filterMap.mp hfile
  cases entry with
  | directory => cases hentry
  | file b' =>
    cases hentry
    have hget := (Keyed.get?_eq_some_iff h.nodup).mpr he
    have hplaced : r.segments.isEmpty = false := by
      rw [List.isEmpty_eq_false_iff]
      exact h.placed _ he
    unfold isFile content? lookup?
    rw [hplaced, if_neg Bool.false_ne_true, hget]
    rfl

end FileSystem.Standing

/-! ### The place of a source as a candidate -/

namespace Resolution

/-- The extensions that are tried for a file that has one are those that the configuration accepts. -/
theorem extension_mem_iff {c : Config} {p : Path} :
    p.extension ∈ extensions c ↔ p.extension ∈ c.extensions := by
  have hne : p.extension ≠ ".d.ts" := by
    intro h
    rcases Path.splitName_end p.name.toList with hnil | ⟨ext, hext, hdot⟩
    · rw [Path.extension, hnil] at h
      exact absurd h (by decide)
    · rw [Path.extension, hext, ← String.toList_inj, String.toList_ofList] at h
      cases h
      exact absurd hdot (by decide)
  unfold extensions Config.extensions Dialect.typescriptExtensions Dialect.javascriptExtensions
  cases c.allowJs <;> simp [hne]

/-- A place is a candidate for itself exactly when it has an extension that is tried. -/
theorem mem_placeCandidates_self {exts : List String} (hexts : "" ∉ exts) {p : Path} :
    .ok p ∈ placeCandidates exts p ↔ p.extension ∈ exts := by
  have hname : ∀ n, p = p.replaceName n → p.name = n := fun n hn =>
    (congrArg Path.name hn).trans (Path.name_replaceName p n)
  constructor
  · intro h
    unfold placeCandidates at h
    simp only [List.mem_append] at h
    rcases h with ((h | h) | h) | h
    · split at h
      case isTrue hext => simpa using hext
      case isFalse => cases h
    · -- No source is emitted under its own name.
      obtain ⟨e, he, r, hr, ext, hext, hp⟩ := mem_sourceCandidates h
      have hdiffer : ∀ e ∈ emitted, ∀ ext ∈ e.2, e.1 ≠ ext := by decide
      exact absurd (String.append_right_inj r |>.mp (hr.symm.trans (hname _ hp))) (hdiffer e he ext hext)
    · obtain ⟨ext, hext, hq⟩ := List.mem_map.mp h
      obtain ⟨-, -, -, hp⟩ := renamed_eq_ok hq
      have hempty : ext = "" := by
        have hsame := congrArg String.toList (hname _ hp)
        rw [String.toList_append, List.self_eq_append_right] at hsame
        exact String.toList_inj.mp (hsame.trans rfl)
      exact absurd (hempty ▸ hext) hexts
    · obtain ⟨ext, -, hq⟩ := List.mem_map.mp h
      have hlength := congrArg (fun q : Path => q.segments.length) (Except.ok.inj hq)
      simp [Path.child] at hlength
  · intro h
    unfold placeCandidates
    rw [if_pos (by simpa using h)]
    simp

/-- A specifier that names a file exactly is resolved to it exactly when the file has an extension that the
configuration accepts. -/
theorem resolve_exact_iff {c : Config} {known : Path → Bool} {importer p : Path} {spec : String}
    (hknown : known p = true) (hspec : isRelative spec = true)
    (hp : (importer.parent.joinText spec).normalize = p) :
    resolve c known importer spec = .ok (some p) ↔ p.extension ∈ c.extensions := by
  have hplaces : places c importer spec = .ok [importer.parent.joinText spec] := by
    unfold places
    rw [hspec]
    rfl
  have hexts : "" ∉ extensions c := fun h =>
    absurd (RootedSpecifier.extensions_long c _ h) (by decide)
  rw [resolve_of_places hplaces, hp, ← extension_mem_iff]
  constructor
  · exact fun h => (mem_placeCandidates_self hexts).mp (firstKnown_mem h).1
  · intro h
    unfold placeCandidates
    rw [if_pos (by simpa using h)]
    show firstKnown known (.ok p :: _) = _
    rw [firstKnown, if_pos hknown]

end Resolution

/-! ### Sources that can be loaded and found -/

/-- A source is read exactly when a dialect goes with its extension. -/
theorem Workspace.exists_readSource_iff {disk : FileSystem} {p : Path} (hdisk : disk.Standing)
    (hp : disk.isFile p = true) : (∃ f, readSource disk p = .ok f) ↔
      p.extension ∈ Dialect.typescriptExtensions ++ Dialect.javascriptExtensions := by
  obtain ⟨b, hb⟩ := hdisk.read_of_isFile hp
  rw [← Dialect.ofExtension?_isSome_iff]
  unfold readSource SourceFile.ofText Dialect.ofPath?
  rw [hb]
  cases Dialect.ofExtension? p.extension <;> simp

/-- The sources of a loaded configuration have accepted extensions, but for those whose name is nothing but an
extension, and for those that are named and end otherwise. The project is loaded exactly when a dialect goes
with the extension of each source, and the specifiers that name a source exactly are resolved to it exactly
when its extension is an accepted one. -/
theorem sources_load_and_resolve {disk : FileSystem} (hdisk : disk.Standing) {cwd : Path} {name : String}
    {c : Config} {ps : List Path} {j j₁ j₂ : Journal} (hload : Config.load disk cwd name j = (.ok c, j₁))
    (hsources : c.sources disk j₁ = (.ok ps, j₂)) :
    (∀ p ∈ ps,
      (p.extension ∈ c.extensions ↔
        Config.hasExtension c.extensions p.name = true ∧ p.name ∉ c.extensions) ∧
      (Config.hasExtension c.extensions p.name = false →
        ∃ s ∈ c.files, Config.locate c.root s = .ok p)) ∧
    ((∃ w j', Workspace.load disk cwd name j = (.ok w, j')) ↔
      ∀ p ∈ ps, p.extension ∈ Dialect.typescriptExtensions ++ Dialect.javascriptExtensions) ∧
    ∀ w j', Workspace.load disk cwd name j = (.ok w, j') → w.paths = ps ∧
      ∀ p ∈ ps, ∀ importer spec, Resolution.isRelative spec = true →
        (importer.parent.joinText spec).normalize = p →
        (w.resolve importer spec = .ok (some p) ↔ p.extension ∈ c.extensions) := by
  have horigin := Config.origin_of_sources hsources
  have hfile : ∀ p ∈ ps, disk.isFile p = true := by
    intro p hp
    rcases horigin p hp with ⟨s, -, -, hfile⟩ | hwalk
    · exact hfile
    · exact hdisk.isFile_of_mem (Config.mem_walk_iff.mp hwalk).1
  have hpaths : ∀ w j', Workspace.load disk cwd name j = (.ok w, j') → w.config = c ∧ w.paths = ps := by
    intro w j' hw
    obtain ⟨-, i₁, i₂, hconfig, hlisted, -⟩ := Workspace.load_eq_ok hw
    cases hload.symm.trans hconfig
    cases hsources.symm.trans hlisted
    exact ⟨rfl, rfl⟩
  refine ⟨fun p hp => ?_, ?_, fun w j' hw => ⟨(hpaths w j' hw).2, fun p hp importer spec hspec hplace => ?_⟩⟩
  · refine ⟨Config.extension_mem_iff, fun hends => ?_⟩
    rcases horigin p hp with ⟨s, hs, hlocate, -⟩ | hwalk
    · exact ⟨s, hs, hlocate⟩
    · rw [Config.hasExtension_of_walk hwalk] at hends
      cases hends
  · -- A project is loaded exactly when each of its sources can be read.
    have hread : (∃ fs, ps.mapM (Workspace.readSource disk) = .ok fs) ↔
        ∀ p ∈ ps, p.extension ∈ Dialect.typescriptExtensions ++ Dialect.javascriptExtensions :=
      Except.exists_mapM_iff.trans
        (forall₂_congr fun p hp => Workspace.exists_readSource_iff hdisk (hfile p hp))
    rw [← hread]
    constructor
    · rintro ⟨w, j', hw⟩
      obtain ⟨-, -, -, -, -, hfiles⟩ := Workspace.load_eq_ok hw
      exact ⟨w.files, (hpaths w j' hw).2 ▸ hfiles⟩
    · rintro ⟨fs, hfs⟩
      exact ⟨_, Workspace.load_of_steps hload hsources hfs⟩
  · obtain ⟨hconfig, hlisted⟩ := hpaths w j' hw
    unfold Workspace.resolve
    rw [hconfig]
    exact Resolution.resolve_exact_iff (Workspace.knows_iff.mpr (hlisted ▸ hp)) hspec hplace

/-- A project that names a script without accepting any. -/
def scriptDisk : FileSystem :=
  ((FileSystem.empty.place (.ofString "/p/tsconfig.json")
    (.file (Bytes.ofString "\x7b\"files\":[\"b.js\"],\"include\":[\"*.ts\"]\x7d"))).place
  (.ofString "/p/a.ts") (.file (Bytes.ofString ""))).place
  (.ofString "/p/b.js") (.file (Bytes.ofString ""))

theorem scriptDisk_standing : scriptDisk.Standing :=
  ⟨by decide +kernel, by decide +kernel, by decide +kernel⟩

/-- The script is a source, and no specifier leads to it. -/
theorem scriptDisk_resolves : ∃ w j,
    Workspace.load scriptDisk (.ofString "/p") "tsconfig.json" [] = (.ok w, j) ∧
      w.paths = [.ofString "/p/a.ts", .ofString "/p/b.js"] ∧
      w.resolve (.ofString "/p/b.js") "./a.ts" = .ok (some (.ofString "/p/a.ts")) ∧
      w.resolve (.ofString "/p/a.ts") "./b.js" ≠ .ok (some (.ofString "/p/b.js")) := by
  have hruns : ((Config.load scriptDisk (.ofString "/p") "tsconfig.json" []).1.toOption.any fun c =>
      !c.allowJs && decide ((c.sources scriptDisk
        (Config.load scriptDisk (.ofString "/p") "tsconfig.json" []).2).1.toOption =
          some [.ofString "/p/a.ts", .ofString "/p/b.js"])) = true := by
    decide +kernel
  obtain ⟨c, hc, hwell⟩ := (Option.any_eq_true _ _).mp hruns
  obtain ⟨hallow, hlisted⟩ := (Bool.and_eq_true _ _).mp hwell
  obtain ⟨j₁, hload⟩ := Journaled.exists_run_of_toOption hc
  rw [hload] at hlisted
  obtain ⟨j₂, hsources⟩ := Journaled.exists_run_of_toOption (of_decide_eq_true hlisted)
  have hextensions : c.extensions = Dialect.typescriptExtensions := by
    unfold Config.extensions
    rw [if_neg (by simpa using hallow)]
  obtain ⟨-, hloaded, hresolve⟩ := sources_load_and_resolve scriptDisk_standing hload hsources
  obtain ⟨w, j', hw⟩ := hloaded.mpr (by decide)
  obtain ⟨hpaths, hexact⟩ := hresolve w j' hw
  refine ⟨w, j', hw, hpaths, ?_, fun h => ?_⟩
  · refine (hexact _ (by simp) _ _ ?_ ?_).mpr ?_
    · decide
    · decide
    · rw [hextensions]
      decide
  · have hmem := (hexact _ (by simp) _ _ (by decide) (by decide)).mp h
    rw [hextensions] at hmem
    exact absurd hmem (by decide)

/-- A project with a file whose name is nothing but an extension. -/
def bareDisk : FileSystem :=
  ((FileSystem.empty.place (.ofString "/p/tsconfig.json") (.file (Bytes.ofString "\x7b\x7d"))).place
  (.ofString "/p/.ts") (.file (Bytes.ofString ""))).place
  (.ofString "/p/a.ts") (.file (Bytes.ofString ""))

/-- The file is a source by its name, and has no extension that a dialect goes with: the project cannot be
loaded. -/
theorem bare_extension_stops_load : bareDisk.Standing ∧ ∃ c j₁ j₂ j',
    Config.load bareDisk (.ofString "/p") "tsconfig.json" [] = (.ok c, j₁) ∧
      c.sources bareDisk j₁ = (.ok [.ofString "/p/.ts", .ofString "/p/a.ts"], j₂) ∧
      (Path.ofString "/p/.ts").extension ∉ c.extensions ∧
      Workspace.load bareDisk (.ofString "/p") "tsconfig.json" [] =
        (.error (.file (.unsupportedExtension "")), j') := by
  have hruns : ((Config.load bareDisk (.ofString "/p") "tsconfig.json" []).1.toOption.any fun c =>
      decide ((c.sources bareDisk
        (Config.load bareDisk (.ofString "/p") "tsconfig.json" []).2).1.toOption =
          some [.ofString "/p/.ts", .ofString "/p/a.ts"])) = true := by
    decide +kernel
  obtain ⟨c, hc, hlisted⟩ := (Option.any_eq_true _ _).mp hruns
  obtain ⟨j₁, hload⟩ := Journaled.exists_run_of_toOption hc
  rw [hload] at hlisted
  obtain ⟨j₂, hsources⟩ := Journaled.exists_run_of_toOption (of_decide_eq_true hlisted)
  have hnone : (Path.ofString "/p/.ts").extension ∉ c.extensions := fun hmem =>
    absurd (Config.mem_all_of_mem hmem) (by decide)
  have hfails : Journaled.failsWith
      (fun f => f matches .file (.unsupportedExtension ""))
      (Workspace.load bareDisk (.ofString "/p") "tsconfig.json") [] = true := by decide +kernel
  obtain ⟨f, j', hrun, hf⟩ := Journaled.exists_run_of_failsWith hfails
  have hstanding : bareDisk.Standing := ⟨by decide +kernel, by decide +kernel, by decide +kernel⟩
  refine ⟨hstanding, c, j₁, j₂, j', hload, hsources, hnone, ?_⟩
  rw [hrun]
  split at hf
  · rfl
  · cases hf

end Codemod
