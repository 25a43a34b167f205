import Codemod.Proofs.Declarations
import Codemod.Proofs.ScheduleIndependence

/-!
# Loading a project again

A run that wrote its files leaves a disk on which the same places are taken by the same kinds of entries;
only the contents of project files differ. What a load looks for is decided by the places and by the
configuration files, and so the project that is loaded from there is the one that the run left in memory.

The configuration file itself may be a source of its project, as nothing keeps it from being named like
one, and a run may then change it. The files that it extends cannot be, since their names end in `.json`.

Main statements:

* `Config.readChain_rewritten` says that a configuration is read from both disks alike;
* `Workspace.Fresh.completed` says that a pass over a loaded project leaves all files as a load would read
  them;
* `Config.load_steady` says that what is found does not depend on the journal;
* `Workspace.Follows.reload` says that the project that is loaded after such passes is the one that they
  left, unless they have changed its configuration.
-/

namespace Codemod

open Workspace

variable {α : Type}

/-! ### Disks with other contents at some places -/

/-- The second disk has the entries of the first one in the same order, except that files at the given
places may hold something else. -/
def FileSystem.Rewritten (ps : List Path) (fs fs' : FileSystem) : Prop :=
  List.Forall₂ (fun e e' : Path × Entry => e'.1 = e.1 ∧
    (e'.2 = e.2 ∨ e.1 ∈ ps ∧ ∃ b b', e.2 = .file b ∧ e'.2 = .file b')) fs.entries fs'.entries

namespace FileSystem.Rewritten

variable {ps : List Path} {fs fs' : FileSystem} {p : Path}

theorem refl (ps : List Path) (fs : FileSystem) : Rewritten ps fs fs :=
  List.forall₂_same.mpr fun _ _ => ⟨rfl, .inl rfl⟩

/-- A write to one of the places keeps the relation, if a file is there. -/
theorem put (h : Rewritten ps fs fs') (hp : p ∈ ps) {c : Bytes}
    (hfile : fs'.lookup? p = some (.file c)) (b : Bytes) : Rewritten ps fs (fs'.put p (.file b)) := by
  have hget : Keyed.get? fs'.entries p = some (.file c) := by
    unfold lookup? at hfile
    split at hfile
    · cases hfile
    · exact hfile
  unfold Rewritten FileSystem.put at *
  dsimp only
  generalize fs.entries = l at h ⊢
  generalize fs'.entries = l' at h hget ⊢
  -- The first entry of a key is the one that is looked up and the one that is set.
  induction h with
  | nil => cases hget
  | @cons e e' rest rest' hhead htail ih =>
    obtain ⟨hkey, hentry⟩ := hhead
    unfold Keyed.get? at hget
    unfold Keyed.set
    by_cases he : e'.1 = p
    · rw [if_pos he] at hget ⊢
      have hold : e'.2 = .file c := Option.some.inj hget
      refine .cons ⟨he.symm.trans hkey, .inr ⟨hkey ▸ he.symm ▸ hp, ?_⟩⟩ htail
      rcases hentry with hsame | ⟨-, d, -, hd, -⟩
      · exact ⟨c, b, hsame ▸ hold, rfl⟩
      · exact ⟨d, b, hd, rfl⟩
    · rw [if_neg he] at hget ⊢
      exact .cons ⟨hkey, hentry⟩ (ih hget)

theorem length (h : Rewritten ps fs fs') : fs'.entries.length = fs.entries.length :=
  (List.Forall₂.length_eq h).symm

/-- What stands at a place: the same, or, at one of the given places, another file. -/
theorem lookup? (h : Rewritten ps fs fs') (q : Path) : fs'.lookup? q = fs.lookup? q ∨
    q ∈ ps ∧ ∃ b b', fs.lookup? q = some (.file b) ∧ fs'.lookup? q = some (.file b') := by
  unfold FileSystem.lookup?
  split
  · exact .inl rfl
  · unfold Rewritten at h
    generalize fs.entries = l at h ⊢
    generalize fs'.entries = l' at h ⊢
    induction h with
    | nil => exact .inl rfl
    | @cons e e' rest rest' hhead _ ih =>
      obtain ⟨hkey, hentry⟩ := hhead
      unfold Keyed.get?
      rw [hkey]
      by_cases he : e.1 = q
      · rw [if_pos he, if_pos he]
        rcases hentry with hsame | ⟨hmem, b, b', hb, hb'⟩
        · exact .inl (congrArg some hsame)
        · exact .inr ⟨he ▸ hmem, b, b', congrArg some hb, congrArg some hb'⟩
      · rw [if_neg he, if_neg he]
        exact ih

theorem lookup?_of_notMem (h : Rewritten ps fs fs') (hp : p ∉ ps) :
    fs'.lookup? p = fs.lookup? p :=
  (h.lookup? p).resolve_right fun hmem => hp hmem.1

theorem contains (h : Rewritten ps fs fs') (q : Path) : fs'.contains q = fs.contains q := by
  unfold FileSystem.contains
  rcases h.lookup? q with hsame | ⟨-, b, b', hb, hb'⟩
  · rw [hsame]
  · rw [hb, hb']
    rfl

theorem isFile (h : Rewritten ps fs fs') (q : Path) : fs'.isFile q = fs.isFile q := by
  unfold FileSystem.isFile content?
  rcases h.lookup? q with hsame | ⟨-, b, b', hb, hb'⟩
  · rw [hsame]
  · rw [hb, hb']
    rfl

theorem blocked? (h : Rewritten ps fs fs') (q : Path) : fs'.blocked? q = fs.blocked? q := by
  unfold FileSystem.blocked?
  congr 1
  funext d
  rcases h.lookup? d with hsame | ⟨-, b, b', hb, hb'⟩
  · rw [hsame]
  · rw [hb, hb']

theorem read_of_notMem (h : Rewritten ps fs fs') (hp : p ∉ ps) : fs'.read p = fs.read p := by
  unfold read
  rw [h.blocked?, h.lookup?_of_notMem hp]

/-- The same files are there, in the same order. -/
theorem files (h : Rewritten ps fs fs') : fs'.files.map (·.1) = fs.files.map (·.1) := by
  unfold FileSystem.files
  unfold Rewritten at h
  generalize fs.entries = l at h ⊢
  generalize fs'.entries = l' at h ⊢
  induction h with
  | nil => rfl
  | @cons e e' rest rest' hhead _ ih =>
    obtain ⟨hkey, hentry⟩ := hhead
    rw [List.filterMap_cons, List.filterMap_cons]
    rcases hentry with hsame | ⟨-, b, b', hb, hb'⟩
    · rw [hsame]
      cases e.2 with
      | directory => exact ih
      | file c => rw [List.map_cons, List.map_cons, hkey, ih]
    · rw [hb, hb']
      rw [List.map_cons, List.map_cons, hkey, ih]

end FileSystem.Rewritten

/-! ### Reading the configuration -/

namespace Config

/-- The files that a configuration extends are named so that no dialect goes with them. -/
theorem referenced_extension {dir q : Path} {s : String} (h : referenced dir s = .ok (some q)) :
    q.extension = ".json" := by
  unfold referenced at h
  split at h
  case isFalse => cases h
  case isTrue =>
    obtain ⟨p, -, h⟩ := Except.bind_eq_ok h
    split at h
    case isTrue hext =>
      cases h
      exact hext
    case isFalse =>
      split at h
      case isTrue => cases h
      case isFalse hname =>
        cases h
        unfold Path.extension
        rw [Path.name_replaceName, String.toList_append]
        have hjson : "json".toList ≠ [] ∧ '.' ∉ "json".toList := by decide
        exact congrArg String.ofList (Path.splitName_of_end
          (fun hnil => hname (String.toList_inj.mp (hnil.trans rfl))) hjson.1 hjson.2)

theorem targets_extension {dir q : Path} {refs : List Json.Value} (h : q ∈ targets dir refs) :
    q.extension = ".json" := by
  obtain ⟨s, -, href⟩ := mem_targets.mp h
  exact referenced_extension href

/-- A configuration file that is no source of the project is read from both disks alike, together with
all that it extends. -/
theorem readChain_rewritten {ps : List Path} {fs fs' : FileSystem} (h : fs.Rewritten ps fs')
    (hps : ∀ p ∈ ps, p.extension ≠ ".json") (fuel : Nat) (seen : List Path) {p : Path} (hp : p ∉ ps) :
    readChain fs' fuel seen p = readChain fs fuel seen p := by
  induction fuel generalizing seen p with
  | zero => rfl
  | succ n ih =>
    have hmembers : readMembers fs' p = readMembers fs p := by
      unfold readMembers readText
      rw [h.contains, h.read_of_notMem hp]
    have hreferences : ∀ base refs, readReferences (readChain fs' n (p :: seen)) p base refs =
        readReferences (readChain fs n (p :: seen)) p base refs := fun base refs =>
      readReferences_congr (fun q hq => ih (p :: seen) fun hmem => hps q hmem (targets_extension hq)) base
    unfold readChain
    rw [hmembers]
    simp only [hreferences]

/-- The configuration of a project is the same on both disks, unless it is itself a source. -/
theorem load_rewritten {ps : List Path} {fs fs' : FileSystem} (h : fs.Rewritten ps fs')
    (hps : ∀ p ∈ ps, p.extension ≠ ".json") {cwd : Path} {name : String} {c : Config} {j j' : Journal}
    (hload : load fs cwd name j = (.ok c, j')) (hc : c.path ∉ ps) :
    load fs' cwd name j = (.ok c, j') := by
  rw [← hload]
  unfold load at hload ⊢
  obtain ⟨p, j₁, hp, hrun⟩ := Journaled.bind_eq_ok hload
  obtain ⟨layer, j₂, -, hlayer⟩ := Journaled.bind_eq_ok hrun
  have hpath : c.path = p := ofLayer_path (Journaled.ofExcept_eq_ok hlayer).1
  rw [(Journaled.ofExcept_eq_ok hp).1, h.length]
  simp only [Journaled.ofExcept_ok_bind, readChain_rewritten h hps _ _ (hpath ▸ hc)]

/-- A configuration has the same sources on both disks. -/
theorem sources_rewritten {ps : List Path} {fs fs' : FileSystem} (h : fs.Rewritten ps fs')
    (c : Config) : c.sources fs' = c.sources fs := by
  have hnamed : ∀ names, c.namedFiles fs' names = c.namedFiles fs names := by
    intro names
    induction names with
    | nil => rfl
    | cons s rest ih =>
      unfold namedFiles
      simp only [h.isFile, ih]
  have hwalk : c.walk fs' = c.walk fs := by
    unfold walk
    rw [h.files]
  unfold sources
  rw [hnamed, hwalk]

theorem namedFiles_steady (c : Config) (fs : FileSystem) (names : List String) :
    (c.namedFiles fs names).Steady := by
  induction names with
  | nil => exact Journaled.pure_steady _
  | cons s rest ih =>
    refine (Journaled.ofExcept_steady _).bind fun p => ?_
    split
    · exact ih.bind fun _ => Journaled.pure_steady _
    · exact (Journaled.note_steady _ _).bind fun _ => ih

/-- The sources of a configuration do not depend on the journal. -/
theorem sources_steady (c : Config) (fs : FileSystem) : (c.sources fs).Steady :=
  (c.namedFiles_steady fs c.files).bind fun _ => Journaled.pure_steady _

theorem readReferences_steady {read : Path → Journaled Fault Layer} (h : ∀ q, (read q).Steady)
    (p : Path) (base : Layer) (vs : List Json.Value) : (readReferences read p base vs).Steady := by
  induction vs generalizing base with
  | nil => exact Journaled.pure_steady _
  | cons v rest ih =>
    cases v with
    | text s =>
      refine (Journaled.ofExcept_steady _).bind fun target => ?_
      cases target with
      | none => exact (Journaled.note_steady _ _).bind fun _ => ih base
      | some q => exact (h q).bind fun layer => ih _
    | null | bool | int | real | list | object => exact Journaled.fail_steady _

theorem readChain_steady (fs : FileSystem) (fuel : Nat) (seen : List Path) (p : Path) :
    (readChain fs fuel seen p).Steady := by
  induction fuel generalizing seen p with
  | zero => exact Journaled.fail_steady _
  | succ n ih =>
    unfold readChain
    split
    case isTrue => exact Journaled.fail_steady _
    case isFalse =>
      refine (Journaled.ofExcept_steady _).bind fun ms => ?_
      refine (Journaled.ofExcept_steady _).bind fun layer => ?_
      refine (Journaled.ofExcept_steady _).bind fun refs => ?_
      exact (readReferences_steady (fun q => ih _ q) p _ refs).bind fun _ => Journaled.pure_steady _

/-- The configuration that is found does not depend on the journal. -/
theorem load_steady (fs : FileSystem) (cwd : Path) (name : String) : (load fs cwd name).Steady :=
  (Journaled.ofExcept_steady _).bind fun p =>
    (readChain_steady fs _ [] p).bind fun _ => Journaled.ofExcept_steady _

end Config

/-! ### What a pass leaves -/

theorem FileSystem.write_of_file {fs : FileSystem} {p : Path} {c : Bytes}
    (hblocked : fs.blocked? p = none) (hfile : fs.lookup? p = some (.file c)) (b : Bytes) :
    fs.write p b = .ok (fs.put p (.file b)) := by
  unfold write
  rw [hblocked, hfile]

namespace Workspace

variable {w : Workspace} {job : Job α} {s s' : PassState α}

/-- A pass over a fresh project leaves a fresh project: it writes every file that it changes. -/
theorem Fresh.completed (hw : w.Separate) (hfresh : w.Fresh) (hc : Completed job w s) :
    s.workspace.Fresh := by
  intro f' hf'
  rw [hc.files] at hf'
  obtain ⟨f, hf, rfl⟩ := List.mem_map.mp hf'
  have hread := hfresh f hf
  have hmem : f.path ∈ w.paths := List.mem_map.mpr ⟨f, hf, rfl⟩
  have hblocked : s.workspace.disk.blocked? f.path = none := by
    rw [← hread.unblocked]
    exact FileSystem.blocked?_congr fun d hd =>
      hc.elsewhere d fun hdmem => hw.apart f.path hmem d hdmem hd
  have hlook := hc.lookup? f hf
  have hends := job.ends w f
  generalize job.ending w f = e at hlook hends ⊢
  -- The files that the pass left alone stand where they stood.
  have hleft : e.file = f → e.written = none → e.file.ReadFrom s.workspace.disk := by
    intro hfile hwritten
    rw [hfile]
    refine ⟨hblocked, ?_, hread.dialect, hread.clean⟩
    rw [hlook, Ending.entry, hwritten]
    exact hread.content
  cases hends with
  | failed | idle | unapplied => exact hleft rfl rfl
  | clean _ hedit hdirty =>
    rcases (SourceFile.edited_eq_ok hedit).2 with hsame | hchanged
    · exact hleft hsame rfl
    · rw [hchanged] at hdirty
      cases hdirty
  | refused _ hedit _ hwrite =>
    rw [SourceFile.edited_path hedit, FileSystem.write_of_file hread.unblocked hread.content] at hwrite
    cases hwrite
  | @written a edits g d _ hedit _ _ =>
    have hpath := SourceFile.edited_path hedit
    have hdialect : g.dialect = f.dialect := by
      rcases (SourceFile.edited_eq_ok hedit).2 with hsame | hchanged
      · rw [hsame]
      · rw [hchanged]
    refine ⟨?_, ?_, ?_, rfl⟩
    · rw [show ({ g with dirty := false } : SourceFile).path = f.path from hpath, hblocked]
    · rw [show ({ g with dirty := false } : SourceFile).path = f.path from hpath, hlook]
      rfl
    · show Dialect.ofPath? g.path = some g.dialect
      rw [hpath, hdialect, hread.dialect]

/-- The paths of a fresh project are those of sources, and not of configuration files. -/
theorem Fresh.extension_ne (hfresh : w.Fresh) : ∀ p ∈ w.paths, p.extension ≠ ".json" := by
  intro p hp hext
  obtain ⟨f, hf, rfl⟩ := List.mem_map.mp hp
  have hdialect := (hfresh f hf).dialect
  unfold Dialect.ofPath? at hdialect
  rw [hext] at hdialect
  cases hdialect

theorem Fresh.mapM (hfresh : w.Fresh) : w.paths.mapM (readSource w.disk) = .ok w.files := by
  have key : ∀ fs : List SourceFile, (∀ f ∈ fs, f.ReadFrom w.disk) →
      (fs.map (·.path)).mapM (readSource w.disk) = .ok fs := by
    intro fs hfs
    induction fs with
    | nil => rfl
    | cons f rest ih =>
      have hf := readSource_eq_ok_iff.mpr ⟨rfl, hfs f (List.mem_cons_self ..)⟩
      rw [List.map_cons, List.mapM_cons, hf, ih fun g hg => hfs g (List.mem_cons_of_mem _ hg)]
      rfl
  exact key w.files hfresh

end Workspace

namespace PassState

variable {limit : Nat} {job : Job α} {s s' : PassState α} {p : Path}

/-- A step leaves the disk alone, or puts a text at the path of its task. -/
theorem advance_disk (h : s.advance limit job p = some s') :
    s'.workspace.disk = s.workspace.disk ∨
      ∃ b, s'.workspace.disk = s.workspace.disk.put p (.file b) := by
  unfold advance at h
  split at h
  case h_1 =>
    obtain ⟨-, hnext⟩ := Option.ite_none_right_eq_some.mp h
    cases hnext
    exact .inl rfl
  case h_2 =>
    obtain ⟨f, -, rfl⟩ := Option.map_eq_some_iff.mp h
    unfold rewrite
    split
    · exact .inl rfl
    · exact .inl rfl
    · split
      · exact .inl rfl
      · exact .inl rfl
  case h_3 text a _ =>
    cases h
    cases hwrite : s.workspace.disk.write p text with
    | error e =>
      rw [write_of_error hwrite]
      exact .inl rfl
    | ok d =>
      rw [write_of_ok hwrite, FileSystem.write_eq_put hwrite]
      exact .inr ⟨text, rfl⟩
  case h_4 =>
    obtain ⟨f, -, rfl⟩ := Option.map_eq_some_iff.mp h
    exact .inl rfl
  case h_5 =>
    cases h
    exact .inl rfl
  case h_6 => cases h

variable {w : Workspace} {fs : FileSystem}

/-- A step of a pass rewrites a project file at most. -/
theorem advance_rewritten (hs : Sound job w s)
    (hfiles : ∀ p ∈ w.paths, ∃ b, fs.lookup? p = some (.file b))
    (hdisk : fs.Rewritten w.paths s.workspace.disk) (h : s.advance limit job p = some s') :
    fs.Rewritten w.paths s'.workspace.disk := by
  have hp : p ∈ w.paths := hs.mem_of_advance h
  rcases advance_disk h with hsame | ⟨b, hput⟩
  · rw [hsame]
    exact hdisk
  · rw [hput]
    obtain ⟨c, hc⟩ := hfiles p hp
    rcases hdisk.lookup? p with hlook | ⟨-, -, c', -, hc'⟩
    · exact hdisk.put hp (hlook.trans hc) b
    · exact hdisk.put hp hc' b

/-- A pass rewrites project files and nothing else. -/
theorem play_rewritten (hw : w.Separate) (hs : Sound job w s)
    (hfiles : ∀ p ∈ w.paths, ∃ b, fs.lookup? p = some (.file b))
    (hdisk : fs.Rewritten w.paths s.workspace.disk) {σ : List Path}
    (h : play limit job σ s = some s') : fs.Rewritten w.paths s'.workspace.disk := by
  induction σ generalizing s with
  | nil =>
    cases h
    exact hdisk
  | cons p rest ih =>
    obtain ⟨s₁, hstep, hrest⟩ := Option.bind_eq_some_iff.mp h
    exact ih (hs.advance hw hstep) (advance_rewritten hs hfiles hdisk hstep) hrest

end PassState

/-! ### Passes that change nothing -/

/-- A job leaves a file alone, in memory and on disk. -/
def Job.Rests (job : Job α) (w : Workspace) (f : SourceFile) : Prop :=
  (job.ending w f).file = f ∧ (job.ending w f).written = none

/-- A pass whose job leaves every file alone writes nothing and changes nothing. -/
theorem Completed.rests {job : Job α} {w : Workspace} {s : PassState α} (h : Completed job w s)
    (hrests : ∀ f ∈ w.files, job.Rests w f) : s.written = [] ∧ s.workspace.Alike w := by
  refine ⟨List.eq_nil_iff_forall_not_mem.mpr fun ⟨q, b⟩ hmem => ?_, h.config, ?_, fun q => ?_⟩
  · obtain ⟨f, hf, -, hb⟩ := (h.mem_written q b).mp hmem
    rw [(hrests f hf).2] at hb
    cases hb
  · rw [h.files]
    exact (List.map_congr_left fun f hf => (hrests f hf).1).trans (List.map_id _)
  · by_cases hq : q ∈ w.paths
    · obtain ⟨f, hf, rfl⟩ := List.mem_map.mp hq
      rw [h.lookup? f hf]
      unfold Ending.entry
      rw [(hrests f hf).2]
    · exact h.elsewhere q hq

/-! ### The reloaded project -/

/-- The workspace is what passes over the project that was loaded as `w₀` have left. -/
structure Workspace.Follows (w₀ w : Workspace) : Prop where
  config : w.config = w₀.config
  paths : w.paths = w₀.paths
  fresh : w.Fresh
  disk : w₀.disk.Rewritten w₀.paths w.disk

/-- A load that finds a configuration, its sources and their texts gives the project of them. -/
theorem Workspace.load_of_steps {disk : FileSystem} {cwd : Path} {name : String} {c : Config}
    {ps : List Path} {fs : List SourceFile} {j j₁ j₂ : Journal}
    (hc : Config.load disk cwd name j = (.ok c, j₁)) (hs : c.sources disk j₁ = (.ok ps, j₂))
    (hf : ps.mapM (readSource disk) = .ok fs) :
    ∃ j', load disk cwd name j = (.ok ⟨disk, c, fs⟩, j') := by
  have hconfig : ((Config.load disk cwd name).mapError LoadFault.config) j = (.ok c, j₁) := by
    unfold Journaled.mapError
    rw [hc]
  have hsources : ((c.sources disk).mapError LoadFault.config) j₁ = (.ok ps, j₂) := by
    unfold Journaled.mapError
    rw [hs]
  unfold load
  rw [Journaled.bind_ok hconfig, Journaled.bind_ok hsources, hf]
  exact ⟨_, rfl⟩

namespace Workspace.Follows

variable {disk : FileSystem} {cwd : Path} {name : String} {j j' : Journal} {w₀ w : Workspace}

theorem refl (h : w₀.Fresh) : w₀.Follows w₀ := ⟨rfl, rfl, h, .refl _ _⟩

/-- A pass goes on from what earlier passes have left. -/
theorem pass (hw₀ : w₀.Separate) (hfresh : w₀.Fresh) (h : w₀.Follows w) {limit : Nat} {job : Job α}
    {σ : List Path} {s : PassState α} (hs : passBy limit job σ w = some s) :
    w₀.Follows s.workspace := by
  have hw : w.Separate := hw₀.congr h.paths
  obtain ⟨hsound, hcompleted⟩ := passBy_sound hw hs
  refine ⟨hsound.config.trans h.config, hsound.paths.trans h.paths,
    h.fresh.completed hw hcompleted, ?_⟩
  rw [← h.paths]
  refine PassState.play_rewritten hw (.start hw) (fun p hp => ?_) ?_ (passBy_eq_some.mp hs).1
  · obtain ⟨f, hf, rfl⟩ := List.mem_map.mp (h.paths ▸ hp)
    exact ⟨f.text, (hfresh f hf).content⟩
  · rw [h.paths]
    exact h.disk

/-- The project that is loaded from the disk that passes have left is the one that they have left, unless
its configuration file is itself a source and is read differently then. -/
theorem reload (hload : load disk cwd name j = (.ok w₀, j')) (h : w₀.Follows w) :
    (w₀.config.path ∉ w₀.paths → ∃ j₂, load w.disk cwd name j = (.ok w, j₂)) ∧
    ∀ w₂ j₁ j₂, load w.disk cwd name j₁ = (.ok w₂, j₂) →
      w₀.config.path ∉ w₀.paths ∨ w₂.config = w₀.config → w₂ = w := by
  obtain ⟨rfl, i₁, i₂, hconfig, hsources, -⟩ := load_eq_ok hload
  have hfound : w₀.config.path ∉ w₀.paths → Config.load w.disk cwd name j = (.ok w₀.config, i₁) :=
    Config.load_rewritten h.disk (load_fresh hload).extension_ne hconfig
  constructor
  · intro hpath
    rw [← Config.sources_rewritten h.disk, ← h.paths] at hsources
    obtain ⟨j₂, hrun⟩ := load_of_steps (hfound hpath) hsources h.fresh.mapM
    rw [← h.config] at hrun
    exact ⟨j₂, hrun⟩
  · intro w₂ j₁ j₂ hload₂ hcause
    obtain ⟨hdisk₂, k₁, k₂, hconfig₂, hsources₂, hread₂⟩ := load_eq_ok hload₂
    have hsame : w₂.config = w₀.config := by
      refine hcause.elim (fun hpath => ?_) id
      have hsteady := Config.load_steady w.disk cwd name
      have hread := (hsteady.fst j₁).trans (hsteady.fst j).symm
      rw [hconfig₂, hfound hpath] at hread
      exact Except.ok.inj hread
    have hpaths : w₂.paths = w.paths := by
      rw [hsame, Config.sources_rewritten h.disk] at hsources₂
      -- The sources are listed alike, whatever was noted before.
      have hsteady := w₀.config.sources_steady w₀.disk
      have hlisted := (hsteady.fst k₁).trans (hsteady.fst i₁).symm
      rw [hsources₂, hsources] at hlisted
      exact (Except.ok.inj hlisted).trans h.paths.symm
    have hfiles : w₂.files = w.files := by
      rw [hpaths, h.fresh.mapM] at hread₂
      exact (Except.ok.inj hread₂).symm
    have hconfigs := hsame.trans h.config.symm
    cases w
    cases w₂
    simp only at hconfigs hfiles hdisk₂
    rw [hconfigs, hfiles, hdisk₂]

end Workspace.Follows
end Codemod
