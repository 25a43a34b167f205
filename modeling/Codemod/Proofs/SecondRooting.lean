import Codemod.Proofs.DiskAgreement
import Codemod.Proofs.ImportRepair
import Codemod.Proofs.Reload
import Codemod.Proofs.RootedResolution

/-!
# Rooting a project twice

A specifier from the source root begins with a segment of a real path, or with a slash, and so it is never
relative. Once the specifiers of a project are written from the root, a second run finds nothing to write:
what it rewrote is no longer relative, what it passed over as unresolved still is, since the files of the
project are the same, and a file that failed was left as it was and fails for the same reason.

The second run works on the project as it is loaded from the disk that the first run left. That is the same
project, unless the first run has rewritten its configuration, which may be one of the modules. What the
new texts are parsed as is assumed: `SourceFile.Rerooted` says that the references of a rewritten file are
those of the old one with the new specifiers.

Main statements:

* `rootedSpecifier_not_relative` says that a specifier from the root is not relative;
* `RootedImport.plan_rerooted` says that nothing is planned for a file that was rewritten;
* `second_rooting_changes_nothing` says so of whole runs.
-/

namespace Codemod

open Resolution

/-! ### Specifiers from the root are not relative -/

namespace Resolution

/-- A relative specifier has a dot or two before its first slash. -/
theorem takeWhile_of_isRelative {s : String} (h : isRelative s = true) :
    s.toList.takeWhile (· != '/') = ['.'] ∨ s.toList.takeWhile (· != '/') = ['.', '.'] := by
  unfold isRelative Text.hasPrefix at h
  rw [Bool.or_eq_true, List.isPrefixOf_iff_prefix, List.isPrefixOf_iff_prefix] at h
  rcases h with ⟨more, h⟩ | ⟨more, h⟩
  · rw [← h]
    exact .inl rfl
  · rw [← h]
    exact .inr rfl

/-- What a relative specifier begins is relative too. -/
theorem isRelative_append {s : String} (h : isRelative s = true) (t : String) :
    isRelative (s ++ t) = true := by
  unfold isRelative Text.hasPrefix at *
  rw [Bool.or_eq_true, List.isPrefixOf_iff_prefix, List.isPrefixOf_iff_prefix] at *
  rw [String.toList_append]
  exact h.imp (fun h => h.trans (List.prefix_append _ _)) fun h => h.trans (List.prefix_append _ _)

/-- Joined texts are not relative when the first of them is a name. -/
theorem isRelative_joined {a : String} (ha : IsName a) (rest : List String) :
    isRelative ("/".intercalate (a :: rest)) = false := by
  obtain ⟨-, hdot, hdots, hslash⟩ := ha
  have hall : ∀ c ∈ a.toList, (c != '/') = true := fun c hc => by
    simpa using fun h : c = '/' => hslash (h ▸ hc)
  have hfirst : ("/".intercalate (a :: rest)).toList.takeWhile (· != '/') = a.toList := by
    cases rest with
    | nil =>
      rw [String.intercalate_singleton]
      exact List.takeWhile_eq_self_iff.mpr hall
    | cons b more =>
      rw [String.intercalate_cons_cons, String.toList_append, String.toList_append, List.append_assoc,
        List.takeWhile_append_of_pos hall]
      show a.toList ++ List.takeWhile _ ('/' :: _) = a.toList
      rw [List.takeWhile_cons_of_neg (by decide), List.append_nil]
  rw [Bool.eq_false_iff]
  intro hrel
  rcases takeWhile_of_isRelative hrel with h | h
  · exact hdot (String.toList_inj.mp (hfirst.symm.trans h))
  · exact hdots (String.toList_inj.mp (hfirst.symm.trans h))

theorem isRelative_of_slash {s : String} (h : s.toList.head? = some '/') : isRelative s = false := by
  rw [Bool.eq_false_iff]
  intro hrel
  have htake : s.toList.takeWhile (· != '/') = [] := by
    cases hs : s.toList with
    | nil => rfl
    | cons c more =>
      rw [hs] at h
      cases h
      rfl
  rcases takeWhile_of_isRelative hrel with h | h
  · cases htake.symm.trans h
  · cases htake.symm.trans h

end Resolution

namespace RootedSpecifier

/-- What is left of a text without an end is its beginning. -/
theorem exists_eq_dropFirstSuffix_append (s : String) (ends : List String) :
    ∃ t, s = dropFirstSuffix s ends ++ t := by
  induction ends with
  | nil => exact ⟨"", by simp [dropFirstSuffix]⟩
  | cons e rest ih =>
    unfold dropFirstSuffix
    cases hd : Text.dropSuffix? e s with
    | none => exact ih
    | some r => exact ⟨e, Text.dropSuffix?_eq_some_iff.mp hd⟩

/-- The specifier of parts is relative only if the parts joined are. -/
theorem isRelative_ofParts {ps : List String} (h : isRelative (ofParts ps) = true) :
    isRelative ("/".intercalate ps) = true := by
  obtain ⟨t, ht⟩ := exists_eq_dropFirstSuffix_append ("/".intercalate ps) droppedExtensions
  unfold ofParts at h
  dsimp only at h
  rw [ht]
  cases hd : Text.dropSuffix? ("/" ++ indexName)
      (dropFirstSuffix ("/".intercalate ps) droppedExtensions) with
  | none =>
    rw [hd] at h
    exact isRelative_append h t
  | some r =>
    rw [hd] at h
    rw [Text.dropSuffix?_eq_some_iff.mp hd]
    exact isRelative_append (isRelative_append h _) t

theorem parts_first {p : Path} (hp : p.Clean) :
    ∀ s ∈ parts p, IsName s ∨ s.toList.head? = some '/' := by
  intro s hs
  unfold parts at hs
  split at hs
  case isFalse => exact .inl (hp s hs)
  case isTrue habs =>
    rcases List.mem_cons.mp hs with rfl | hs
    · unfold Path.isAbsolute at habs
      cases hanchor : p.anchor with
      | relative =>
        rw [hanchor] at habs
        cases habs
      | root => exact .inr rfl
      | doubleRoot => exact .inr rfl
    · exact .inl (hp s hs)

end RootedSpecifier

/-- A specifier from the source root is never relative. -/
theorem rootedSpecifier_not_relative {target : Path} {marker spec : String} {root : Option Path}
    (ht : target.Clean) (h : rootedSpecifier target marker root = .ok spec) :
    isRelative spec = false := by
  unfold rootedSpecifier RootedSpecifier.fromMarker? at h
  split at h
  case h_2 => cases h
  case h_1 ps hps =>
    cases h
    obtain ⟨l, hl, rfl⟩ := Option.map_eq_some_iff.mp hps
    have hmarker : l.contains marker = true :=
      List.find?_some (p := fun l : List String => l.contains marker) hl
    have hfirst : ∀ s ∈ l, IsName s ∨ s.toList.head? = some '/' := by
      intro s hs
      have hsearched := List.mem_of_find?_eq_some hl
      unfold RootedSpecifier.searched at hsearched
      rcases List.mem_append.mp hsearched with hbelow | hall
      · obtain ⟨dir, -, hdir⟩ := Option.bind_eq_some_iff.mp (Option.mem_toList.mp hbelow)
        unfold Path.below? at hdir
        split at hdir
        · cases hdir
          exact .inl (ht s (List.mem_of_mem_drop hs))
        · cases hdir
      · rw [List.mem_singleton.mp hall] at hs
        exact RootedSpecifier.parts_first ht s hs
    rw [Bool.eq_false_iff]
    intro hrel
    have hjoined := RootedSpecifier.isRelative_ofParts hrel
    -- The marker is one of the parts, so that there is a first part to look at.
    cases hdrop : l.dropWhile (· != marker) with
    | nil =>
      have := List.dropWhile_eq_nil_iff.mp hdrop marker (by simpa using hmarker)
      simp at this
    | cons a rest =>
      rw [hdrop] at hjoined
      have ha : a ∈ l := (List.dropWhile_sublist _).mem (hdrop ▸ List.mem_cons_self ..)
      rcases hfirst a ha with hname | hslash
      · rw [isRelative_joined hname rest] at hjoined
        cases hjoined
      · have hhead : ("/".intercalate (a :: rest)).toList.head? = some '/' := by
          cases rest with
          | nil =>
            rw [String.intercalate_singleton]
            exact hslash
          | cons b more =>
            rw [String.intercalate_cons_cons, String.toList_append, String.toList_append,
              List.append_assoc, List.head?_append, hslash]
            rfl
        rw [isRelative_of_slash hhead] at hjoined
        cases hjoined

/-! ### The references of a rewritten file -/

namespace ModuleReference

variable {f g : SourceFile} {r r' : ModuleReference}

/-- A specifier is decided by the bytes of the text that it stands in. -/
theorem specifier_congr (h : r'.source.text g.text = r.source.text f.text) :
    r'.specifier g = r.specifier f := by
  unfold specifier
  rw [SourceFile.textOf_congr h]

/-- The specifier between two quotes of one character. -/
theorem specifier_of_quoted {c : Char} {spec : String}
    (h : r.source.text f.text = Bytes.ofString (String.ofList [c] ++ spec ++ String.ofList [c])) :
    r.specifier f = .ok spec := by
  unfold specifier
  rw [SourceFile.textOf_eq_ok h]
  refine congrArg Except.ok (String.toList_inj.mp ?_)
  rw [String.toList_ofList, String.toList_append, String.toList_append, String.toList_ofList,
    List.singleton_append, List.cons_append, List.drop_succ_cons, List.drop_zero, List.dropLast_concat]

/-- What stands between quotes, the quotes included, is not empty. -/
theorem source_text_ne_nil (hr : r ∈ f.references) : r.source.text f.text ≠ [] := by
  obtain ⟨t, ht, href⟩ := List.mem_filterMap.mp hr
  obtain ⟨rfl, hsource, hstring⟩ := SourceFile.reference?_eq_some href
  have hmem := f.statements_sublist.mem ht
  obtain ⟨-, hstatement, hstop⟩ := f.nodes_placed.bounds hmem
  obtain ⟨-, hplaced, hstop'⟩ := hstatement.children.bounds (List.mem_of_find?_eq_some hsource)
  have hlt := hplaced.start_lt (.inr hstring)
  refine List.ne_nil_of_length_pos ?_
  rw [Syntax.Tree.text, Bytes.length_slice (hstop'.trans hstop)]
  omega

/-- The quote of a reference is one character. -/
theorem quote_eq_singleton (hr : r ∈ f.references) {q : String} (h : r.quote f = .ok q) :
    ∃ c, q = String.ofList [c] := by
  obtain ⟨s, hs, h⟩ := Except.bind_eq_ok h
  cases h
  have hne : s.toList ≠ [] := by
    intro hnil
    refine source_text_ne_nil hr ?_
    rw [← SourceFile.ofString_of_textOf hs, String.toList_inj.mp (hnil.trans String.toList_empty.symm)]
    rfl
  cases hlist : s.toList with
  | nil => exact absurd hlist hne
  | cons c more => exact ⟨c, rfl⟩

/-- The text in which a rooting run leaves the specifier of a reference, its quotes included. -/
def rootedSource (r : ModuleReference) (f : SourceFile) (resolve : String → Except Fault (Option Path))
    (marker : String) (root : Path) : Bytes :=
  match (RootedImport.referencePlan f resolve marker root r).outcome with
  | .ok (some e) => Bytes.ofString e.text
  | _ => r.source.text f.text

end ModuleReference

/-- The references of the second file are those of the first one, with the specifiers that a rooting run
writes for them. -/
def SourceFile.Rerooted (f g : SourceFile) (resolve : String → Except Fault (Option Path))
    (marker : String) (root : Path) : Prop :=
  g.references.map (fun r => r.source.text g.text) =
    f.references.map fun r => r.rootedSource f resolve marker root

instance (f g : SourceFile) (resolve : String → Except Fault (Option Path)) (marker : String)
    (root : Path) : Decidable (f.Rerooted g resolve marker root) :=
  inferInstanceAs (Decidable (_ = _))

namespace RootedImport

open Journaled

variable {f g : SourceFile} {resolve : String → Except Fault (Option Path)} {marker : String}
  {root : Path} {r : ModuleReference}

/-- No edit is planned for a reference whose specifier is not relative or means no file. -/
theorem referencePlan_eq_none_iff : (referencePlan f resolve marker root r).outcome = .ok none ↔
    ∃ spec, r.specifier f = .ok spec ∧ (isRelative spec = true → resolve spec = .ok none) := by
  constructor
  · intro h
    obtain ⟨j, hrun⟩ := exists_run h
    obtain ⟨spec, j₁, hspec, hrun₁⟩ := bind_eq_ok hrun
    refine ⟨spec, (ofExcept_eq_ok hspec).1, fun hrel => ?_⟩
    rw [if_pos hrel] at hrun₁
    obtain ⟨target, j₂, htarget, hrun₂⟩ := bind_eq_ok hrun₁
    cases target with
    | none => exact (ofExcept_eq_ok htarget).1
    | some t =>
      obtain ⟨_, _, -, hrun₃⟩ := bind_eq_ok hrun₂
      obtain ⟨_, _, -, hrun₄⟩ := bind_eq_ok hrun₃
      obtain ⟨_, _, -, hrest⟩ := bind_eq_ok hrun₄
      cases hrest
  · rintro ⟨spec, hspec, hnone⟩
    cases hrel : isRelative spec with
    | false => exact congrArg Prod.fst (referencePlan_of_not_relative (j := []) hspec hrel)
    | true =>
      unfold referencePlan outcome
      rw [hspec]
      simp only [ofExcept_ok_bind, hrel, if_true, hnone hrel]
      rfl

/-- Where there is a plan for all references there is one for each. -/
theorem referencePlan_of_plansOf {rs : List ModuleReference} {edits : List Edit} {j j' : Journal}
    (h : plansOf f resolve marker root rs j = (.ok edits, j')) (hr : r ∈ rs) :
    ∃ e?, (referencePlan f resolve marker root r).outcome = .ok e? := by
  induction rs generalizing edits j j' with
  | nil => cases hr
  | cons r' rest ih =>
    obtain ⟨first, j₁, hfirst, hrun⟩ := bind_eq_ok h
    obtain ⟨more, j₂, hmore, -⟩ := bind_eq_ok hrun
    rcases List.mem_cons.mp hr with rfl | hr
    · refine ⟨first, ?_⟩
      rw [← (referencePlan_steady f resolve marker root r).fst j, hfirst]
    · exact ih hmore hr

/-- Nothing is planned for a list of references when nothing is planned for any of them. -/
theorem plansOf_eq_nil {rs : List ModuleReference}
    (h : ∀ r ∈ rs, (referencePlan f resolve marker root r).outcome = .ok none) (j : Journal) :
    ∃ j', plansOf f resolve marker root rs j = (.ok [], j') := by
  induction rs generalizing j with
  | nil => exact ⟨j, rfl⟩
  | cons r rest ih =>
    have hfirst := referencePlan_steady f resolve marker root r j
    rw [h r (List.mem_cons_self ..)] at hfirst
    obtain ⟨j', hrest⟩ := ih (fun r' hr' => h r' (List.mem_cons_of_mem _ hr')) _
    exact ⟨j', (bind_ok hfirst).trans (bind_ok hrest)⟩

/-- Nothing is planned for a file whose references are those that a rooting run has left. -/
theorem plan_rerooted (htargets : ∀ spec t, resolve spec = .ok (some t) → t.Clean)
    {edits : List Edit} (h : (plan f resolve marker root).outcome = .ok edits)
    (hg : f.Rerooted g resolve marker root) : (plan g resolve marker root).outcome = .ok [] := by
  obtain ⟨j, hfirst⟩ := exists_run h
  suffices hnone : ∀ r' ∈ g.references, (referencePlan g resolve marker root r').outcome = .ok none by
    obtain ⟨j', hrun⟩ := plansOf_eq_nil hnone []
    exact congrArg Prod.fst hrun
  intro r' hr'
  have hmem : r'.source.text g.text ∈ f.references.map fun r => r.rootedSource f resolve marker root :=
    hg ▸ List.mem_map_of_mem hr'
  obtain ⟨r, hr, hsource⟩ := List.mem_map.mp hmem
  obtain ⟨e?, hplan⟩ := referencePlan_of_plansOf hfirst hr
  unfold ModuleReference.rootedSource at hsource
  rw [hplan] at hsource
  rw [referencePlan_eq_none_iff]
  cases e? with
  | none =>
    -- A reference that was passed over stands there as before.
    obtain ⟨spec, hspec, hnone⟩ := referencePlan_eq_none_iff.mp hplan
    exact ⟨spec, (ModuleReference.specifier_congr hsource.symm).trans hspec, hnone⟩
  | some e =>
    -- A reference that was rewritten is not relative any more.
    obtain ⟨j, hrun⟩ := exists_run hplan
    obtain ⟨spec, t, rooted, quote, -, -, ht, hrooted, hquote, rfl⟩ := referencePlan_eq_some hrun
    obtain ⟨c, rfl⟩ := ModuleReference.quote_eq_singleton hr hquote
    refine ⟨rooted, ModuleReference.specifier_of_quoted hsource.symm, fun hrel => ?_⟩
    rw [rootedSpecifier_not_relative (htargets spec t ht) hrooted] at hrel
    cases hrel

end RootedImport

/-! ### The second run -/

theorem SourceFile.eq_nil_of_edited_clean {f g : SourceFile} {edits : List Edit}
    (h : f.edited edits = .ok g) (hg : g.dirty = false) : edits = [] ∧ g = f := by
  unfold edited at h
  split at h
  case isTrue hempty =>
    cases h
    exact ⟨List.isEmpty_iff.mp hempty, rfl⟩
  case isFalse =>
    split at h
    · cases h
      cases hg
    · cases h

section

variable {marker : String} {w w₂ : Workspace} {f : SourceFile}

/-- The work on a file for which nothing is planned leaves it alone. -/
theorem rootJob_ending_of_nil (hclean : f.dirty = false)
    (h : (RootedImport.plan f (w.resolve f.path) marker w.config.root).outcome = .ok []) :
    (rootJob marker).ending w f = ⟨.ok 0, f, none⟩ := by
  have hjob : rootJob marker w.config w.knows f = .ok (0, some []) := by
    show Except.map _ (RootedImport.plan f (w.resolve f.path) marker w.config.root).outcome = _
    rw [h]
    rfl
  rw [Job.ending_of_some hjob, Ending.ofCommit_of_clean (SourceFile.edited_nil f) hclean]
  rfl

/-- How the work on a file ends that a first rooting run has left: it changes nothing, and it fails if the
first work on the file has failed, for the same reason. -/
theorem rootJob_ending_again (hfresh : w.Fresh) (hpaths : ∀ p ∈ w.paths, p.Clean)
    (hconfig : w₂.config = w.config) (hknows : w₂.knows = w.knows) (hf : f ∈ w.files)
    (hparse : ∀ b, ((rootJob marker).ending w f).written = some b →
      f.Rerooted ((rootJob marker).ending w f).file (w.resolve f.path) marker w.config.root) :
    (rootJob marker).ending w₂ ((rootJob marker).ending w f).file =
      ⟨((rootJob marker).ending w f).result.map fun _ => 0, ((rootJob marker).ending w f).file,
        none⟩ := by
  have hread := hfresh f hf
  have hsame : ∀ g, rootJob marker w₂.config w₂.knows g = rootJob marker w.config w.knows g := by
    intro g
    rw [hconfig, hknows]
  have hresolve : ∀ p, w₂.resolve p = w.resolve p := by
    intro p
    unfold Workspace.resolve
    rw [hconfig, hknows]
  -- Whatever a specifier means is a file of the project.
  have htargets : ∀ spec t, w.resolve f.path spec = .ok (some t) → t.Clean := fun spec t ht =>
    hpaths t (Workspace.knows_iff.mp (resolve_mem ht))
  have hplan : ∀ {a : Nat} {edits : List Edit}, rootJob marker w.config w.knows f = .ok (a, some edits) →
      (RootedImport.plan f (w.resolve f.path) marker w.config.root).outcome = .ok edits ∧
        a = edits.length := by
    intro a edits hjob
    cases ho : (RootedImport.plan f (w.resolve f.path) marker w.config.root).outcome with
    | error e =>
      have : rootJob marker w.config w.knows f = .error e := congrArg (Except.map _) ho
      cases this.symm.trans hjob
    | ok edits' =>
      have : rootJob marker w.config w.knows f = .ok (edits'.length, some edits') :=
        congrArg (Except.map _) ho
      cases this.symm.trans hjob
      exact ⟨rfl, rfl⟩
  have hends := (rootJob marker).ends w f
  generalize (rootJob marker).ending w f = e at hends hparse ⊢
  cases hends with
  | failed hjob => exact Job.ending_of_error ((hsame f).trans hjob)
  | idle hjob => exact absurd hjob (rootJob_commits marker _ _ f _)
  | unapplied hjob hedit =>
    rw [Job.ending_of_some ((hsame f).trans hjob), Ending.ofCommit_of_error hedit]
    rfl
  | @clean a edits g hjob hedit hdirty =>
    -- Only a batch without edits leaves a file unmarked.
    obtain ⟨rfl, rfl⟩ := SourceFile.eq_nil_of_edited_clean hedit hdirty
    refine rootJob_ending_of_nil hread.clean ?_
    rw [hresolve, hconfig]
    exact (hplan hjob).1
  | refused _ hedit _ hwrite =>
    rw [SourceFile.edited_path hedit, FileSystem.write_of_file hread.unblocked hread.content] at hwrite
    cases hwrite
  | @written a edits g d hjob hedit hdirty _ =>
    refine rootJob_ending_of_nil rfl ?_
    have hpath : g.path = f.path := SourceFile.edited_path hedit
    show (RootedImport.plan _ (w₂.resolve g.path) marker w₂.config.root).outcome = _
    rw [hpath, hresolve, hconfig]
    exact RootedImport.plan_rerooted htargets (hplan hjob).1 (hparse _ rfl)

/-- What a job writes is the text in which it leaves the file. -/
theorem Job.written_eq_text {α : Type} {job : Job α} {b : Bytes}
    (h : (job.ending w f).written = some b) : b = (job.ending w f).file.text := by
  have hends := job.ends w f
  generalize job.ending w f = e at h hends ⊢
  cases hends with
  | failed | idle | unapplied | clean | refused => cases h
  | written =>
    cases h
    rfl

/-- The work of a first run on a file, and that of a second run on what it left, have the same outcome. -/
theorem visitOf_again {p : Path} (r : Except Fault Nat) :
    (visitOf p (r.map fun _ => 0)).1 = (visitOf p r).1 := by
  cases r with
  | ok a => rfl
  | error e => rfl

end

/-- For every project loaded from a disk of real paths, every marker and every rooting run, whichever files
fail in it, when the files that it wrote are parsed with the references that it gave them: the project can
be loaded from the disk that the run left, and a second run on it with the same marker rewrites no
specifier, writes nothing, leaves every file as it is in memory and on disk, and fails for the same files
for the same reasons, as long as the configuration file is not itself a source, or is read as it was. No
write of the first run can be refused, since all files were just read. -/
theorem second_rooting_changes_nothing {disk : FileSystem} (hdisk : disk.Clean) {cwd : Path}
    {name : String} {j j' : Journal} {w : Workspace}
    (hload : Workspace.load disk cwd name j = (.ok w, j')) {marker : String} {limit : Nat}
    {σ : List Path} {s : PassState Nat} (hs : passBy limit (rootJob marker) σ w = some s)
    (hparse : ∀ f ∈ w.files, ∀ g, s.workspace.file? f.path = some g → (f.path, g.text) ∈ s.written →
      f.Rerooted g (w.resolve f.path) marker w.config.root) :
    (w.config.path ∉ w.paths →
      ∃ j₂, Workspace.load s.workspace.disk cwd name j = (.ok s.workspace, j₂)) ∧
    ∀ w₂ j₁ j₂, Workspace.load s.workspace.disk cwd name j₁ = (.ok w₂, j₂) →
      w.config.path ∉ w.paths ∨ w₂.config = w.config →
      ∀ limit₂ σ₂ s₂, passBy limit₂ (rootJob marker) σ₂ w₂ = some s₂ →
        (∀ v ∈ s₂.visits, v.2 = none ∨ v.2 = some 0) ∧ s₂.written = [] ∧
        s₂.workspace.Alike w₂ ∧ (s₂.visits.map (·.1)).Perm (s.visits.map (·.1)) := by
  have hw := Workspace.load_separate hload
  have hfresh := Workspace.load_fresh hload
  have hfollows := Workspace.Follows.pass hw hfresh (.refl hfresh) hs
  obtain ⟨hsound, hcompleted⟩ := passBy_sound hw hs
  obtain ⟨hreload, hsame⟩ := hfollows.reload hload
  refine ⟨hreload, fun w₂ j₁ j₂ hload₂ hconfig limit₂ σ₂ s₂ hs₂ => ?_⟩
  obtain rfl := hsame w₂ j₁ j₂ hload₂ hconfig
  obtain ⟨-, hcompleted₂⟩ := passBy_sound (hw.congr hsound.paths) hs₂
  have hagain : ∀ f ∈ w.files, (rootJob marker).ending s.workspace ((rootJob marker).ending w f).file =
      ⟨((rootJob marker).ending w f).result.map fun _ => 0, ((rootJob marker).ending w f).file,
        none⟩ := by
    intro f hf
    refine rootJob_ending_again hfresh (Workspace.load_clean hdisk hload) hsound.config hsound.knows hf
      fun b hb => ?_
    refine hparse f hf _ (hcompleted.file? hw.nodup (Workspace.file?_of_mem hw.nodup hf)) ?_
    rw [hcompleted.mem_written]
    exact ⟨f, hf, rfl, Job.written_eq_text hb ▸ hb⟩
  have hvisits : s₂.visits.Perm (w.files.map fun f =>
      visitOf f.path (((rootJob marker).ending w f).result.map fun _ => 0)) := by
    refine hcompleted₂.visits.trans (.of_eq ?_)
    rw [hcompleted.files, List.map_map]
    exact List.map_congr_left fun f hf => by
      rw [Function.comp_apply, hagain f hf, Job.ending_path]
  obtain ⟨hwritten, halike⟩ := hcompleted₂.rests fun g hg => by
    rw [hcompleted.files] at hg
    obtain ⟨f, hf, rfl⟩ := List.mem_map.mp hg
    unfold Job.Rests
    rw [hagain f hf]
    exact ⟨rfl, rfl⟩
  refine ⟨fun v hv => ?_, hwritten, halike, ?_⟩
  · obtain ⟨f, -, rfl⟩ := List.mem_map.mp (hvisits.mem_iff.mp hv)
    cases ((rootJob marker).ending w f).result with
    | ok a => exact .inr rfl
    | error e => exact .inl rfl
  · refine (hvisits.map _).trans (List.Perm.trans (.of_eq ?_) (hcompleted.visits.map _).symm)
    rw [List.map_map, List.map_map]
    exact List.map_congr_left fun f _ => visitOf_again _

/-- Parses the files that a rooting pass has left, and compares their references with those that it was to
write. -/
def PassState.readsRerooted (marker : String) (w : Workspace) (s : PassState Nat) : Bool :=
  w.files.all fun f => (s.workspace.file? f.path).all fun g =>
    decide (f.Rerooted g (w.resolve f.path) marker w.config.root)

theorem PassState.rerooted_of_check {marker : String} {w : Workspace} {s : PassState Nat}
    (h : s.readsRerooted marker w = true) : ∀ f ∈ w.files, ∀ g, s.workspace.file? f.path = some g →
      f.Rerooted g (w.resolve f.path) marker w.config.root := by
  intro f hf g hg
  have hfile := List.all_eq_true.mp h f hf
  rw [hg] at hfile
  exact of_decide_eq_true hfile

/-- A rooting run over the sample project. -/
def rootedPass : PassState Nat :=
  (passBy 2 (rootJob "src") (sampleSchedule "abababbb") loadedProject).getD (.start loadedProject)

theorem rootedPass_eq :
    passBy 2 (rootJob "src") (sampleSchedule "abababbb") loadedProject = some rootedPass := by
  obtain ⟨s, hs⟩ := Option.isSome_iff_exists.mp (show (passBy 2 (rootJob "src")
    (sampleSchedule "abababbb") loadedProject).isSome = true by decide +kernel)
  unfold rootedPass
  rw [hs]
  rfl

theorem sampleDisk_clean : sampleDisk.Clean := by
  unfold FileSystem.Clean Path.Clean IsName
  decide

theorem rootedPass_rerooted : ∀ f ∈ loadedProject.files, ∀ g,
    rootedPass.workspace.file? f.path = some g →
    f.Rerooted g (loadedProject.resolve f.path) "src" loadedProject.config.root :=
  PassState.rerooted_of_check (by decide +kernel)

/-- The run rewrites one specifier of the sample project, and a second run rewrites none. -/
theorem loadedProject_second_rooting :
    (⟨samplePath "b.ts", none⟩, some 1) ∈ rootedPass.visits ∧
    ∃ s₂, passBy 1 (rootJob "src") (sampleSchedule "aaabbb") rootedPass.workspace = some s₂ ∧
      (∀ v ∈ s₂.visits, v.2 = none ∨ v.2 = some 0) ∧ s₂.written = [] ∧
      s₂.workspace.Alike rootedPass.workspace ∧
      (s₂.visits.map (·.1)).Perm (rootedPass.visits.map (·.1)) := by
  obtain ⟨j, hload⟩ := loadedProject_load
  obtain ⟨s₂, hs₂⟩ := Option.isSome_iff_exists.mp (show (passBy 1 (rootJob "src")
    (sampleSchedule "aaabbb") rootedPass.workspace).isSome = true by decide +kernel)
  refine ⟨by decide +kernel, s₂, hs₂, ?_⟩
  obtain ⟨hreload, hsecond⟩ := second_rooting_changes_nothing sampleDisk_clean hload rootedPass_eq
    fun f hf g hg _ => rootedPass_rerooted f hf g hg
  obtain ⟨j₂, hload₂⟩ := hreload (by decide +kernel)
  exact hsecond _ _ _ hload₂ (.inl (by decide +kernel)) 1 _ s₂ hs₂

/-! ### A configuration that is a module -/

/-- A path below the source root, in folders that are named so that a specifier ends a comment and begins
one. -/
def starredPath (name : String) : Path := ⟨.root, ["src", "*", "1", "*", name]⟩

/-- A module that is a configuration as well, which has the import in a comment. The specifier from the
source root ends that comment for a digit, and what was zero is ten. -/
def starredText : String :=
  "//\u2028/*\n\x7b\"compilerOptions\": \x7b\"allowJs\":/*/ import './c'; //*/0\x7d\x7d\n"

/-- A disk with that module and another one, which only a project with scripts has. -/
def starredDisk : FileSystem :=
  (FileSystem.empty.place (starredPath "c.ts") (.file (Bytes.ofString starredText))).place
    (starredPath "b.js") (.file (Bytes.ofString "import './c';\n"))

/-- A run in which all goes well rewrites the configuration of its project. The project that is loaded
again has another file, and a second run rewrites the specifier in it. -/
theorem rewritten_configuration_roots_more :
    starredDisk.Clean ∧ ∃ w j s w₂ j₂ s₂,
      Workspace.load starredDisk (starredPath "c.ts").parent "c.ts" [] = (.ok w, j) ∧
      passBy 1 (rootJob "src") (List.replicate 5 (starredPath "c.ts")) w = some s ∧
      (∀ v ∈ s.visits, v.1.fault = none) ∧
      (∀ f ∈ w.files, ∀ g, s.workspace.file? f.path = some g →
        f.Rerooted g (w.resolve f.path) "src" w.config.root) ∧
      Workspace.load s.workspace.disk (starredPath "c.ts").parent "c.ts" [] = (.ok w₂, j₂) ∧
      passBy 1 (rootJob "src") (List.replicate 5 (starredPath "b.js") ++
        List.replicate 3 (starredPath "c.ts")) w₂ = some s₂ ∧
      s₂.written = [(starredPath "b.js", Bytes.ofString "import 'src/*/1/*/c';\n")] := by
  have hclean : starredDisk.Clean := by
    unfold FileSystem.Clean Path.Clean IsName
    decide
  have hruns : ((Workspace.load starredDisk (starredPath "c.ts").parent "c.ts" []).1.toOption.any fun w =>
      (passBy 1 (rootJob "src") (List.replicate 5 (starredPath "c.ts")) w).any fun s =>
        (decide (∀ v ∈ s.visits, v.1.fault = none) && s.readsRerooted "src" w) &&
        (Workspace.load s.workspace.disk (starredPath "c.ts").parent "c.ts" []).1.toOption.any fun w₂ =>
          (passBy 1 (rootJob "src") (List.replicate 5 (starredPath "b.js") ++
            List.replicate 3 (starredPath "c.ts")) w₂).any fun s₂ => decide (s₂.written =
              [(starredPath "b.js", Bytes.ofString "import 'src/*/1/*/c';\n")])) = true := by
    decide +kernel
  obtain ⟨w, hw, hfirst⟩ := (Option.any_eq_true _ _).mp hruns
  obtain ⟨s, hs, hwell⟩ := (Option.any_eq_true _ _).mp hfirst
  obtain ⟨hgood, hagain⟩ := (Bool.and_eq_true _ _).mp hwell
  obtain ⟨hok, hread⟩ := (Bool.and_eq_true _ _).mp hgood
  obtain ⟨w₂, hw₂, hsecond⟩ := (Option.any_eq_true _ _).mp hagain
  obtain ⟨s₂, hs₂, hmore⟩ := (Option.any_eq_true _ _).mp hsecond
  obtain ⟨j, hload⟩ := Journaled.exists_run_of_toOption hw
  obtain ⟨j₂, hload₂⟩ := Journaled.exists_run_of_toOption hw₂
  exact ⟨hclean, w, j, s, w₂, j₂, s₂, hload, hs, of_decide_eq_true hok,
    PassState.rerooted_of_check hread, hload₂, hs₂, of_decide_eq_true hmore⟩

end Codemod
