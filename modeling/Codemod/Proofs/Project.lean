import Mathlib.Data.List.Lex
import Mathlib.Tactic
import Codemod.Proofs.Journal
import Codemod.Workspace

/-!
# Projects whose files stand apart

The files of a project lie at different places, and none of them lies below another. What happens to
one file, in memory or on disk, then cannot reach another one. Every project that was loaded is of this
kind, since all its files were there as files at the same time.

Main statements:

* `Workspace.file?_setFile` says what each path leads to after a file was replaced;
* `Workspace.files_ext` says that the files of a project are determined by what each path leads to;
* `Workspace.load_fresh` says that the files of a loaded project are as they are read from its disk;
* `Workspace.load_separate` says that they stand apart.
-/

namespace Codemod

/-! ### The order of paths -/

namespace Path

/-- The numbers of the characters of a text. -/
def codes (s : String) : List Nat :=
  s.toList.map Char.toNat

theorem codes_injective : Function.Injective codes := by
  intro s t h
  have hchar : Function.Injective Char.toNat := fun a b hab => Char.toNat_inj.mp hab
  exact String.toList_inj.mp (hchar.list_map h)

theorem textBefore_iff {s t : String} : textBefore s t = true ↔ codes s < codes t := by
  unfold textBefore codes
  rw [List.lex_eq_true_iff_lt]

theorem lex_textBefore_iff {a b : List String} :
    List.lex a b textBefore = true ↔ a.map codes < b.map codes := by
  induction a generalizing b with
  | nil => cases b <;> simp
  | cons s rest ih =>
    cases b with
    | nil => simp
    | cons t more =>
      simp only [List.lex, Bool.or_eq_true, Bool.and_eq_true, beq_iff_eq, List.map_cons,
        List.cons_lt_cons_iff, textBefore_iff, ih, codes_injective.eq_iff]

/-- What the order of paths compares: the anchor, if there is one, and the segments. -/
def key (p : Path) : List (List Nat) :=
  (if p.isAbsolute then p.anchor.text :: p.segments else p.segments).map codes

theorem before_iff {p q : Path} : p.before q = true ↔ p.key < q.key := by
  unfold before key
  exact lex_textBefore_iff

theorem le_iff {p q : Path} : p.le q = true ↔ p.key ≤ q.key := by
  unfold le
  rw [Bool.not_eq_true', Bool.eq_false_iff, ne_eq, before_iff, not_lt]

/-- Paths from the root are told apart by what the order compares. -/
theorem eq_of_key_eq {p q : Path} (hp : p.anchor = .root) (hq : q.anchor = .root)
    (h : p.key = q.key) : p = q := by
  cases p with
  | mk a ss =>
    cases q with
    | mk b ts =>
      subst hp hq
      have hmap := codes_injective.list_map h
      simp only [isAbsolute, bne_iff_ne, ne_eq, reduceCtorEq, not_false_eq_true, if_true,
        List.cons.injEq, true_and] at hmap
      rw [hmap]

end Path

/-! ### The sources of a configuration -/

namespace Config

theorem insertPath_sorted {p : Path} {l : List Path} (hp : p.anchor = .root)
    (hl : ∀ q ∈ l, q.anchor = .root) (h : l.Pairwise fun a b => a.key < b.key) :
    (insertPath p l).Pairwise fun a b => a.key < b.key := by
  induction l with
  | nil => simp [insertPath]
  | cons q rest ih =>
    obtain ⟨hq, hrest⟩ := List.pairwise_cons.mp h
    unfold insertPath
    split
    case isTrue => exact h
    case isFalse hne =>
      split
      case isTrue hle =>
        have hlt : p.key < q.key := by
          refine lt_of_le_of_ne (Path.le_iff.mp hle) fun e => hne ?_
          exact Path.eq_of_key_eq hp (hl q (by simp)) e
        refine List.pairwise_cons.mpr ⟨fun r hr => ?_, h⟩
        rcases List.mem_cons.mp hr with rfl | hr
        · exact hlt
        · exact lt_trans hlt (hq r hr)
      case isFalse hle =>
        have hlt : q.key < p.key := not_le.mp fun h' => hle (Path.le_iff.mpr h')
        refine List.pairwise_cons.mpr ⟨fun r hr => ?_, ?_⟩
        · rcases mem_insertPath.mp hr with rfl | hr
          · exact hlt
          · exact hq r hr
        · exact ih (fun r hr => hl r (List.mem_cons_of_mem _ hr)) hrest

theorem pathOrder_sorted {l : List Path} (hl : ∀ q ∈ l, q.anchor = .root) :
    (pathOrder l).Pairwise (fun a b => a.key < b.key) ∧ ∀ q ∈ pathOrder l, q ∈ l := by
  have key : ∀ (l acc : List Path), (∀ q ∈ l, q.anchor = .root) → (∀ q ∈ acc, q.anchor = .root) →
      (acc.Pairwise fun a b => a.key < b.key) →
      ((l.foldl (fun acc p => insertPath p acc) acc).Pairwise fun a b => a.key < b.key) ∧
        ∀ q ∈ l.foldl (fun acc p => insertPath p acc) acc, q ∈ acc ∨ q ∈ l := by
    intro l
    induction l with
    | nil => exact fun acc _ _ h => ⟨h, fun q hq => .inl hq⟩
    | cons p rest ih =>
      intro acc hl hacc h
      have hroot : ∀ q ∈ insertPath p acc, q.anchor = .root := by
        intro q hq
        rcases mem_insertPath.mp hq with rfl | hq
        · exact hl _ (by simp)
        · exact hacc q hq
      obtain ⟨hs, hm⟩ := ih (insertPath p acc) (fun q hq => hl q (List.mem_cons_of_mem _ hq)) hroot
        (insertPath_sorted (hl p (by simp)) hacc h)
      refine ⟨hs, fun q hq => ?_⟩
      rcases hm q hq with hq | hq
      · rcases mem_insertPath.mp hq with rfl | hq
        · exact .inr (by simp)
        · exact .inl hq
      · exact .inr (List.mem_cons_of_mem _ hq)
  obtain ⟨hs, hm⟩ := key l [] hl (by simp) List.Pairwise.nil
  exact ⟨hs, fun q hq => (hm q hq).resolve_left (by simp)⟩

theorem locate_anchor {dir p : Path} {s : String} (h : locate dir s = .ok p) : p.anchor = .root := by
  unfold locate at h
  dsimp only at h
  split at h
  · cases h
  · cases h; rfl

/-- The files that a configuration names are files, where their names lead. -/
theorem origin_of_namedFiles {c : Config} {fs : FileSystem} {ss : List String} {j j' : Journal}
    {ps : List Path} (h : c.namedFiles fs ss j = (.ok ps, j')) :
    ∀ p ∈ ps, ∃ s ∈ ss, locate c.root s = .ok p ∧ fs.isFile p = true := by
  induction ss generalizing j ps j' with
  | nil => cases h; simp
  | cons s rest ih =>
    have hmore : ∀ {p}, (∃ t ∈ rest, locate c.root t = .ok p ∧ fs.isFile p = true) →
        ∃ t ∈ s :: rest, locate c.root t = .ok p ∧ fs.isFile p = true :=
      fun ⟨t, ht, hp⟩ => ⟨t, List.mem_cons_of_mem _ ht, hp⟩
    unfold namedFiles at h
    obtain ⟨p, j₁, hp, hrun⟩ := Journaled.bind_eq_ok h
    split at hrun
    case isTrue hfile =>
      obtain ⟨more, j₂, hr, hrest⟩ := Journaled.bind_eq_ok hrun
      cases hrest
      intro q hq
      rcases List.mem_cons.mp hq with rfl | hq
      · exact ⟨s, List.mem_cons_self .., (Journaled.ofExcept_eq_ok hp).1, hfile⟩
      · exact hmore (ih hr q hq)
    case isFalse =>
      obtain ⟨_, j₂, -, hrest⟩ := Journaled.bind_eq_ok hrun
      exact fun q hq => hmore (ih hrest q hq)

/-- The sources of a configuration whose root is written from the root of the file system are written
so too, and none of them is listed twice. -/
theorem sources_nodup {c : Config} {fs : FileSystem} {j j' : Journal} {ps : List Path}
    (hc : c.root.anchor = .root) (h : c.sources fs j = (.ok ps, j')) : ps.Nodup := by
  unfold sources at h
  obtain ⟨named, j₁, hn, hrest⟩ := Journaled.bind_eq_ok h
  cases hrest
  have hroot : ∀ q ∈ named ++ c.walk fs, q.anchor = .root := by
    intro q hq
    rcases List.mem_append.mp hq with hq | hq
    · obtain ⟨s, -, hs, -⟩ := origin_of_namedFiles hn q hq
      exact locate_anchor hs
    · obtain ⟨-, ss, hb, -⟩ := mem_walk_iff.mp hq
      unfold Path.below? at hb
      split at hb
      case isTrue hand =>
        simp only [Bool.and_eq_true, decide_eq_true_eq] at hand
        rw [← hand.1, hc]
      case isFalse => cases hb
  exact (pathOrder_sorted hroot).1.imp fun hlt e => absurd (e ▸ hlt) (lt_irrefl _)

theorem ofLayer_path {p : Path} {l : Layer} {c : Config} (h : ofLayer p l = .ok c) : c.path = p := by
  unfold ofLayer at h
  obtain ⟨aliases, -, h⟩ := Except.bind_eq_ok h
  obtain ⟨aliasBase, -, h⟩ := Except.bind_eq_ok h
  cases h
  rfl

/-- The root of a loaded configuration is written from the root of the file system. -/
theorem load_root_anchor {fs : FileSystem} {cwd : Path} {s : String} {j j' : Journal} {c : Config}
    (h : Config.load fs cwd s j = (.ok c, j')) : c.root.anchor = .root := by
  unfold Config.load at h
  obtain ⟨p, j₁, hp, hrun⟩ := Journaled.bind_eq_ok h
  obtain ⟨layer, j₂, -, hrest⟩ := Journaled.bind_eq_ok hrun
  have hpath : c.path = p := ofLayer_path (Journaled.ofExcept_eq_ok hrest).1
  show c.path.parent.anchor = .root
  rw [hpath]
  show p.anchor = .root
  exact locate_anchor (Journaled.ofExcept_eq_ok hp).1

end Config

/-! ### The files of a project -/

namespace Workspace

/-- The paths of the files of a project, in order. -/
def paths (w : Workspace) : List Path :=
  w.files.map (·.path)

/-- The files of a project stand apart: no two have one path, none is the root directory, and none lies
in a directory that another one would have to be. -/
structure Separate (w : Workspace) : Prop where
  nodup : w.paths.Nodup
  placed : ∀ p ∈ w.paths, p.segments ≠ []
  apart : ∀ p ∈ w.paths, ∀ q ∈ w.paths, q ∉ FileSystem.directoriesAbove p

variable {w w' : Workspace} {f g : SourceFile} {p q : Path}

theorem path_of_file? (h : w.file? p = some f) : f.path = p := by
  simpa using List.find?_some h

theorem mem_of_file? (h : w.file? p = some f) : f ∈ w.files :=
  List.mem_of_find?_eq_some h

theorem mem_paths_iff : p ∈ w.paths ↔ ∃ f, w.file? p = some f := by
  constructor
  · intro h
    obtain ⟨f, hf, rfl⟩ := List.mem_map.mp h
    cases hw : w.file? f.path with
    | none => exact absurd hf (by simpa using List.find?_eq_none.mp hw f)
    | some g => exact ⟨g, rfl⟩
  · rintro ⟨f, hf⟩
    exact List.mem_map.mpr ⟨f, mem_of_file? hf, path_of_file? hf⟩

/-- The project knows the paths of its files and no others. -/
theorem knows_iff : w.knows p = true ↔ p ∈ w.paths := by
  rw [knows, Option.isSome_iff_exists, mem_paths_iff]

/-- What a project knows depends on the paths of its files alone. -/
theorem knows_congr (h : w.paths = w'.paths) : w.knows = w'.knows := by
  funext p
  rw [Bool.eq_iff_iff, knows_iff, knows_iff, h]

theorem file?_of_mem (hw : w.paths.Nodup) (hf : f ∈ w.files) : w.file? f.path = some f := by
  obtain ⟨g, hg⟩ := mem_paths_iff.mp (List.mem_map.mpr ⟨f, hf, rfl⟩)
  have : g = f :=
    List.inj_on_of_nodup_map hw (mem_of_file? hg) hf (path_of_file? hg)
  rw [hg, this]

@[simp] theorem paths_setFile : (w.setFile g).paths = w.paths := by
  unfold paths setFile
  rw [List.map_map]
  refine List.map_congr_left fun f _ => ?_
  by_cases h : f.path = g.path <;> simp [h]

@[simp] theorem disk_setFile : (w.setFile g).disk = w.disk := rfl

/-- What each path leads to after the file at one path was replaced. -/
theorem file?_setFile (h : ∃ f, w.file? g.path = some f) :
    (w.setFile g).file? q = if q = g.path then some g else w.file? q := by
  have key : ∀ fs : List SourceFile,
      (fs.map fun f => if f.path = g.path then g else f).find? (fun f => f.path = q) =
        if q = g.path then (fs.find? fun f => f.path = q).map fun _ => g
        else fs.find? fun f => f.path = q := by
    intro fs
    induction fs with
    | nil => simp
    | cons f rest ih =>
      by_cases hf : f.path = g.path
      · by_cases hq : q = g.path
        · simp [hf, hq]
        · have hq' : ¬ g.path = q := fun e => hq e.symm
          simp [hf, hq, hq', ih]
      · by_cases hq : q = g.path
        · have hf' : ¬ f.path = q := fun e => hf (e.trans hq)
          rw [List.map_cons, if_neg hf, List.find?_cons_of_neg (by simpa using hf'),
            List.find?_cons_of_neg (by simpa using hf'), ih]
        · by_cases hfq : f.path = q
          · simp [hq, hfq]
          · simp [hf, hq, hfq, ih]
  unfold file? setFile
  rw [key]
  by_cases hq : q = g.path
  · obtain ⟨f, hf⟩ := h
    rw [if_pos hq, if_pos hq, hq, show w.files.find? _ = some f from hf]
    rfl
  · rw [if_neg hq, if_neg hq]

/-- The files of a project are determined by what each path leads to. -/
theorem files_ext (hw : w.paths.Nodup) (hp : w.paths = w'.paths) (h : ∀ p, w.file? p = w'.file? p) :
    w.files = w'.files := by
  have hlen : w.files.length = w'.files.length := by
    simpa [paths] using congrArg List.length hp
  refine List.ext_getElem hlen fun i hi hi' => ?_
  have hpath : (w.files[i]).path = (w'.files[i]).path := by
    have := congrArg (·[i]?) hp
    simpa [paths, hi, hi'] using this
  have h1 := file?_of_mem hw (List.getElem_mem hi)
  have h2 := file?_of_mem (hp ▸ hw) (List.getElem_mem hi')
  rw [h, hpath, h2] at h1
  exact (Option.some.inj h1).symm

/-- Putting back a file that is there changes nothing. -/
theorem setFile_self (hw : w.paths.Nodup) (h : w.file? g.path = some g) : w.setFile g = w := by
  have hfiles : (w.setFile g).files = w.files := by
    refine files_ext (by simpa using hw) paths_setFile fun p => ?_
    rw [file?_setFile ⟨g, h⟩]
    by_cases hp : p = g.path
    · rw [if_pos hp, hp, h]
    · rw [if_neg hp]
  cases w
  unfold setFile at hfiles ⊢
  simpa using hfiles

/-- Files that stand apart do so whatever is written into them. -/
theorem Separate.congr (hw : w.Separate) (h : w'.paths = w.paths) : w'.Separate where
  nodup := h ▸ hw.nodup
  placed := h ▸ hw.placed
  apart := h ▸ hw.apart

end Workspace

/-! ### Loaded projects -/

/-- The file is as it is read from a disk. -/
structure SourceFile.ReadFrom (disk : FileSystem) (f : SourceFile) : Prop where
  unblocked : disk.blocked? f.path = none
  content : disk.lookup? f.path = some (.file f.text)
  dialect : Dialect.ofPath? f.path = some f.dialect
  clean : f.dirty = false

/-- All that is above a place that can be reached are directories. -/
theorem FileSystem.directory_of_unblocked {fs : FileSystem} {p : Path} (h : fs.blocked? p = none) :
    ∀ d ∈ directoriesAbove p, fs.lookup? d = some .directory := by
  intro d hd
  unfold blocked? at h
  have habove := List.findSome?_eq_none_iff.mp h d hd
  split at habove
  · cases habove
  · cases habove
  · assumption

/-- Where a file can be read, it stands as a file, and nothing bars the way to it. -/
theorem FileSystem.read_eq_ok_iff {fs : FileSystem} {p : Path} {b : Bytes} :
    fs.read p = .ok b ↔ fs.blocked? p = none ∧ fs.lookup? p = some (.file b) := by
  unfold read
  cases fs.blocked? p with
  | some e => simp
  | none =>
    cases fs.lookup? p with
    | none => simp
    | some entry => cases entry <;> simp

namespace Workspace

variable {disk : FileSystem} {cwd p : Path} {name : String} {j j' : Journal} {w : Workspace}
  {f : SourceFile}

/-- What the reading of a source gives. -/
theorem readSource_eq_ok_iff : readSource disk p = .ok f ↔ f.path = p ∧ f.ReadFrom disk := by
  unfold readSource
  constructor
  · intro h
    split at h
    · cases h
    · next text hread =>
      obtain ⟨hunblocked, hlook⟩ := FileSystem.read_eq_ok_iff.mp hread
      unfold SourceFile.ofText at h
      split at h
      · next d hd =>
        cases h
        exact ⟨rfl, hunblocked, hlook, hd, rfl⟩
      · cases h
  · rintro ⟨rfl, hunblocked, hlook, hd, hclean⟩
    rw [FileSystem.read_eq_ok_iff.mpr ⟨hunblocked, hlook⟩]
    unfold SourceFile.ofText
    rw [hd]
    cases f
    cases hclean
    rfl

theorem readSources_paths {ps : List Path} {fs : List SourceFile}
    (h : ps.mapM (readSource disk) = .ok fs) : fs.map (·.path) = ps := by
  have hall := Except.forall₂_of_mapM_eq_ok h
  clear h
  induction hall with
  | nil => rfl
  | cons hp _ ih => rw [List.map_cons, ih, (readSource_eq_ok_iff.mp hp).1]

/-- What a load did: it read the configuration, listed its sources, and read each of them. -/
theorem load_eq_ok (h : load disk cwd name j = (.ok w, j')) :
    w.disk = disk ∧ ∃ j₁ j₂, Config.load disk cwd name j = (.ok w.config, j₁) ∧
      w.config.sources disk j₁ = (.ok w.paths, j₂) ∧ w.paths.mapM (readSource disk) = .ok w.files := by
  unfold load at h
  obtain ⟨c, j₁, hc, hrun₁⟩ := Journaled.bind_eq_ok h
  obtain ⟨ps, j₂, hs, hrun₂⟩ := Journaled.bind_eq_ok hrun₁
  obtain ⟨fs, j₃, hf, hrun₃⟩ := Journaled.bind_eq_ok hrun₂
  obtain ⟨_, j₄, -, hrest⟩ := Journaled.bind_eq_ok hrun₃
  cases hrest
  obtain ⟨hmap, -⟩ := Journaled.ofExcept_eq_ok hf
  cases hm : ps.mapM (readSource disk) with
  | error e =>
    rw [hm] at hmap
    cases hmap
  | ok gs =>
    rw [hm] at hmap
    cases hmap
    have hpaths : fs.map (·.path) = ps := readSources_paths hm
    subst hpaths
    exact ⟨rfl, j₁, j₂, Journaled.mapError_eq_ok hc, Journaled.mapError_eq_ok hs, hm⟩

/-- All files of a project are as they are read from its disk. -/
def Fresh (w : Workspace) : Prop := ∀ f ∈ w.files, f.ReadFrom w.disk

/-- A loaded project is fresh. -/
theorem load_fresh (h : load disk cwd name j = (.ok w, j')) : w.Fresh := by
  obtain ⟨hdisk, _, _, -, -, hread⟩ := load_eq_ok h
  intro f hf
  obtain ⟨p, -, hp⟩ := Except.exists_of_mem_mapM hread f hf
  rw [hdisk]
  exact (readSource_eq_ok_iff.mp hp).2

/-- The files of a loaded project stand apart. -/
theorem load_separate (h : load disk cwd name j = (.ok w, j')) : w.Separate := by
  obtain ⟨-, _, _, hconfig, hsources, -⟩ := load_eq_ok h
  have hfresh := load_fresh h
  have hroot := Config.load_root_anchor hconfig
  refine ⟨Config.sources_nodup hroot hsources, fun p hp hnil => ?_, fun p hp q hq habove => ?_⟩
  · obtain ⟨f, hf, rfl⟩ := List.mem_map.mp hp
    have hfile := (hfresh f hf).content
    simp [FileSystem.lookup?, hnil] at hfile
  · obtain ⟨f, hf, rfl⟩ := List.mem_map.mp hp
    obtain ⟨g, hg, rfl⟩ := List.mem_map.mp hq
    have hfile := (hfresh g hg).content
    rw [FileSystem.directory_of_unblocked (hfresh f hf).unblocked _ habove] at hfile
    cases hfile

end Workspace
end Codemod
