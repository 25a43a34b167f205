import Codemod.Proofs.DisjointEdits

/-!
# Repairing imports is one substitution

The edits for the imports of a file are gathered import by import and applied as one batch. Where the imports
that are given names bind different local names, the batch does the same as a single substitution: every name
outside the imports is looked up once, by what the text says, and what it is replaced by depends on how it
stands there and on nothing that is written in its place or elsewhere. So local names may be swapped, or passed
on from one import to the next.

Main statements:

* `Patch.patched_eq_madeAtOnce` says that the order in which patches are listed does not matter;
* `NamedImport.replacement?_eq` says what becomes of a name where it stands;
* `NamedImport.exists_namePatch?_iff` says that the names that are substituted are the mentions that are edited;
* `default_imports_repaired_at_once` says what repairing the imports of a file makes of its text.
-/

namespace Codemod

open Syntax Syntax.Tree

/-! ### Patches in any order -/

namespace Patch

variable {t : Bytes} {lo hi : Nat} {p : Patch} {l l' : List Patch}

/-- The text with patches made to it that lie apart, in whatever order they are listed. -/
def madeAtOnce (t : Bytes) (l : List Patch) : Bytes :=
  made t l 0 (t.length + 1)

theorem InOrder.pairwise (h : InOrder lo hi l) : l.Pairwise Apart := by
  induction l generalizing lo with
  | nil => exact .nil
  | cons p rest ih =>
    obtain ⟨-, -, hrest⟩ := h
    exact List.pairwise_cons.mpr ⟨fun q hq => .inl (hrest.bounds hq).1, ih hrest⟩

theorem Apart.ne {q : Patch} (h : p.Apart q) (hp : p.start < p.stop) : p ≠ q := by
  rintro rfl
  rcases h with h | h <;> omega

/-- Patches that lie apart and cover something are listed once. -/
theorem nodup_of_pairwise (h : l.Pairwise Apart) (hl : ∀ p ∈ l, p.start < p.stop) : l.Nodup :=
  h.imp_of_mem fun hp _ hpq => hpq.ne (hl _ hp)

/-- Of patches that lie apart and cover something at most one begins at an offset. -/
theorem filter_start_eq (h : l.Pairwise Apart) (hl : ∀ p ∈ l, p.start < p.stop) (i : Nat) :
    l.filter (fun p => p.start = i) = [] ∨ ∃ p, l.filter (fun p => p.start = i) = [p] := by
  have hapart : (l.filter fun p => p.start = i).Pairwise Apart := h.sublist List.filter_sublist
  have hmem : ∀ p ∈ l.filter fun p => p.start = i, p.start = i ∧ p.start < p.stop := fun p hp =>
    ⟨of_decide_eq_true (List.mem_filter.mp hp).2, hl p (List.mem_filter.mp hp).1⟩
  generalize (l.filter fun p => p.start = i) = m at hapart hmem ⊢
  match m with
  | [] => exact .inl rfl
  | [p] => exact .inr ⟨p, rfl⟩
  | p :: q :: more =>
    have hp := hmem p (by simp)
    have hq := hmem q (by simp)
    rcases (List.pairwise_cons.mp hapart).1 q (by simp) with hpq | hpq <;> omega

/-- Patches in order do what they do in whatever order they are listed. -/
theorem patched_eq_madeAtOnce (h : InOrder 0 t.length l) (hl : ∀ p ∈ l, p.start < p.stop)
    (hmem : ∀ p, p ∈ l ↔ p ∈ l') (hapart : l'.Pairwise Apart) :
    patched t 0 t.length l = madeAtOnce t l' := by
  have hl' : ∀ p ∈ l', p.start < p.stop := fun p hp => hl p ((hmem p).mpr hp)
  have hperm : l.Perm l' := (List.perm_ext_iff_of_nodup (nodup_of_pairwise h.pairwise hl)
    (nodup_of_pairwise hapart hl')).mpr hmem
  rw [patched_eq_made h, List.take_length]
  refine made_congr fun i _ _ => ?_
  have hbeginning : beginning l i = beginning l' i := by
    have hfilter : (l.filter fun p => p.start = i).Perm (l'.filter fun p => p.start = i) := hperm.filter _
    unfold beginning
    rcases filter_start_eq hapart hl' i with hnone | ⟨p, hone⟩
    · rw [hnone] at hfilter ⊢
      rw [hfilter.eq_nil]
    · rw [hone] at hfilter ⊢
      rw [List.perm_singleton.mp hfilter]
  have hkept : kept t l i = kept t l' i := by
    unfold kept
    exact if_congr (exists_congr fun p => and_congr_left' (hmem p)) rfl rfl
  rw [hbeginning, hkept]

end Patch

/-! ### Names where they stand -/

/-- How a name stands where it is written. -/
inductive Standing where
  /-- It is a property that is written by the name of its value alone. -/
  | property
  /-- An export clause exports what it means under that name. -/
  | exported
  /-- It is the other name that an export clause gives to something, or stands in a re-export. -/
  | foreign
  /-- It means something bound in the file, and may be written otherwise. -/
  | plain
  deriving DecidableEq, Repr

namespace Standing

/-- How a name stands that is held by the given nodes, the nearest first. -/
def ofName (t : Tree) (above : List Tree) : Standing :=
  if t.is .shorthandProperty then property
  else match above with
    | [] => plain
    | holder :: rest =>
      if !holder.is .exportSpecifier then plain
      else if NamedImport.isReexport rest then foreign
      else match holder.child? .alias with
        | none => exported
        | some _ => if t.role = some .name then plain else foreign

/-- What is written in the place of a name when what it means is called `new` and no more `old`. -/
def renamed (old new : Bytes) : Standing → Option Bytes
  | property => some (old ++ Bytes.ofString ": " ++ new)
  | exported => some (new ++ Bytes.ofString " as " ++ old)
  | foreign => none
  | plain => some new

end Standing

namespace NamedImport

open SourceFile

variable {f : SourceFile} {resolve : Resolver} {names : Keyed Path String} {d : ModuleReference}
  {given : ModuleReference → Option String} {plans : List (List Edit)} {q : Patch}

/-- What becomes of a mention shows in how it stands. -/
theorem replacement?_eq (old new : String) (t : Tree) (above : List Tree) :
    (replacement? old new t above).map Bytes.ofString =
      (Standing.ofName t above).renamed (Bytes.ofString old) (Bytes.ofString new) := by
  have hcolon : Bytes.ofString s!"{old}: {new}" = Bytes.ofString old ++ Bytes.ofString ": " ++ Bytes.ofString new := by
    simp only [Bytes.ofString_append]
    rfl
  have has : Bytes.ofString s!"{new} as {old}" = Bytes.ofString new ++ Bytes.ofString " as " ++ Bytes.ofString old := by
    simp only [Bytes.ofString_append]
    rfl
  unfold replacement? Standing.ofName
  cases t.is .shorthandProperty with
  | true => exact congrArg some hcolon
  | false =>
    cases above with
    | nil => rfl
    | cons holder rest =>
      dsimp only
      cases holder.is .exportSpecifier with
      | false => rfl
      | true =>
        cases isReexport rest with
        | true => rfl
        | false =>
          cases holder.child? .alias with
          | none => exact congrArg some has
          | some other =>
            by_cases hname : t.role = some .name
            · simp [hname, Standing.renamed]
            · simp [hname, Standing.renamed]

/-! ### The substitution -/

/-- The local names that are replaced, each with the name that replaces it: those that the imports which are
given another name bind by default. -/
def substitution (f : SourceFile) (given : ModuleReference → Option String) : List (Bytes × Bytes) :=
  f.imports.filterMap fun d => match localName? f d, given d with
    | some old, some name => if old = Bytes.ofString name then none else some (old, Bytes.ofString name)
    | _, _ => none

/-- What is put in the place of a name outside the imports, if it is one of those that are replaced. -/
def namePatch? (f : SourceFile) (given : ModuleReference → Option String) (o : Tree × List Tree) :
    Option Patch :=
  if isName o.1 && !f.imports.any (·.statement.encloses o.1) then do
    let entry ← (substitution f given).find? fun entry => entry.1 = o.1.text f.text
    let bytes ← (Standing.ofName o.1 o.2).renamed entry.1 entry.2
    return ⟨o.1.start, o.1.stop, bytes⟩
  else none

/-- What is put in the place of the imports of a file and of the names in it. -/
def substitutionPatches (f : SourceFile) (given : ModuleReference → Option String) : List Patch :=
  f.imports.map (importPatch f given) ++ (f.tree.occurrences []).filterMap (namePatch? f given)

/-- Whether the imports that are given names bind different local names. -/
def DistinctNames (f : SourceFile) (given : ModuleReference → Option String) : Prop :=
  ((f.imports.filter fun d => (given d).isSome).map (localName? f)).Nodup

instance (f : SourceFile) (given : ModuleReference → Option String) : Decidable (DistinctNames f given) :=
  inferInstanceAs (Decidable (List.Nodup _))

theorem mem_substitution_iff {old new : Bytes} : (old, new) ∈ substitution f given ↔
    ∃ d ∈ f.imports, ∃ name, localName? f d = some old ∧ given d = some name ∧ old ≠ Bytes.ofString name ∧
      new = Bytes.ofString name := by
  unfold substitution
  rw [List.mem_filterMap]
  refine exists_congr fun d => and_congr_right fun _ => ?_
  cases localName? f d with
  | none => simp
  | some own =>
    cases given d with
    | none => simp
    | some name =>
      by_cases hsame : own = Bytes.ofString name
      · simp [hsame]
        rintro rfl
        simp
      · simp [hsame, eq_comm]
        rintro rfl
        simp [hsame]

/-- A name is replaced in one way only, when the imports that are given names bind different local names. -/
theorem substitution_functional (hnames : DistinctNames f given) {old new new' : Bytes}
    (h : (old, new) ∈ substitution f given) (h' : (old, new') ∈ substitution f given) : new = new' := by
  obtain ⟨d, hd, name, hlocal, hgiven, -, rfl⟩ := mem_substitution_iff.mp h
  obtain ⟨d', hd', name', hlocal', hgiven', -, rfl⟩ := mem_substitution_iff.mp h'
  have hsame : d = d' := by
    refine List.inj_on_of_nodup_map hnames ?_ ?_ (hlocal.trans hlocal'.symm)
    · exact List.mem_filter.mpr ⟨hd, by rw [hgiven]; rfl⟩
    · exact List.mem_filter.mpr ⟨hd', by rw [hgiven']; rfl⟩
  subst hsame
  cases hgiven.symm.trans hgiven'
  rfl

/-- What is put in the place of a name is decided by what the name says and how it stands. -/
theorem namePatch?_eq_some_iff (hnames : DistinctNames f given) {o : Tree × List Tree} :
    namePatch? f given o = some q ↔ isName o.1 = true ∧
      (f.imports.any (·.statement.encloses o.1)) = false ∧ ∃ new bytes,
        (o.1.text f.text, new) ∈ substitution f given ∧
        (Standing.ofName o.1 o.2).renamed (o.1.text f.text) new = some bytes ∧
        q = ⟨o.1.start, o.1.stop, bytes⟩ := by
  unfold namePatch?
  cases isName o.1 with
  | false => simp
  | true =>
    cases f.imports.any (·.statement.encloses o.1) with
    | true => simp
    | false =>
      simp only [Bool.not_false, Bool.and_true, if_true, true_and, Option.bind_eq_bind,
        Option.bind_eq_some_iff]
      constructor
      · rintro ⟨⟨old, new⟩, hfind, bytes, hbytes, hq⟩
        have hold : old = o.1.text f.text := by simpa using List.find?_some hfind
        subst hold
        exact ⟨new, bytes, List.mem_of_find?_eq_some hfind, hbytes, (Option.some.inj hq).symm⟩
      · rintro ⟨new, bytes, hmem, hbytes, rfl⟩
        obtain ⟨⟨old, new'⟩, hfind⟩ : ∃ entry, (substitution f given).find?
            (fun entry => entry.1 = o.1.text f.text) = some entry :=
          Option.isSome_iff_exists.mp (List.find?_isSome.mpr ⟨_, hmem, decide_eq_true rfl⟩)
        have hold : old = o.1.text f.text := by simpa using List.find?_some hfind
        subst hold
        obtain rfl := substitution_functional hnames hmem (List.mem_of_find?_eq_some hfind)
        exact ⟨_, hfind, bytes, hbytes, rfl⟩

section

variable (hplan : (plan f resolve names).outcome = .ok plans)
  (hnames : DistinctNames f (newName? f resolve names))

include hplan hnames

/-- The names that are substituted are the mentions that are edited. -/
theorem exists_namePatch?_iff :
    (∃ o ∈ f.tree.occurrences [], namePatch? f (newName? f resolve names) o = some q) ↔
      ∃ e, EditsMention f (newName? f resolve names) e ∧ q = e.patch := by
  constructor
  · rintro ⟨o, ho, hq⟩
    obtain ⟨hname, houtside, new, bytes, hmem, hbytes, rfl⟩ := (namePatch?_eq_some_iff hnames).mp hq
    obtain ⟨d, hd, name, hlocal, hgiven, hne, rfl⟩ := mem_substitution_iff.mp hmem
    obtain ⟨bound, old, -, hbound, hold, -, -⟩ := planned_of_newName? hplan hd hgiven
    have htext : o.1.text f.text = Bytes.ofString old := by
      unfold localName? at hlocal
      rw [hbound] at hlocal
      rw [ofString_of_textOf hold]
      exact (Option.some.inj hlocal).symm
    rw [htext] at hbytes hne
    rw [← replacement?_eq] at hbytes
    obtain ⟨text, htext', rfl⟩ := Option.map_eq_some_iff.mp hbytes
    refine ⟨replaceEdit o.1 text, ⟨d, hd, name, bound, old, hgiven, hbound, hold, ?_, ?_⟩, rfl⟩
    · rintro rfl
      exact hne rfl
    · refine List.mem_filterMap.mpr ⟨o, ho, ?_⟩
      rw [if_pos]
      · rw [htext']
        rfl
      · simpa [hname, htext, List.any_map] using houtside
  · rintro ⟨e, ⟨d, hd, name, bound, old, hgiven, hbound, hold, hne, he⟩, rfl⟩
    obtain ⟨o, ho, he⟩ := List.mem_filterMap.mp he
    refine ⟨o, ho, (namePatch?_eq_some_iff hnames).mpr ?_⟩
    split at he
    case isFalse => cases he
    case isTrue hsought =>
      obtain ⟨text, htext, rfl⟩ := Option.map_eq_some_iff.mp he
      simp only [Bool.and_eq_true, decide_eq_true_eq, Bool.not_eq_true', List.any_map] at hsought
      obtain ⟨⟨hname, hsame⟩, houtside⟩ := hsought
      refine ⟨hname, houtside, Bytes.ofString name, Bytes.ofString text, ?_, ?_, rfl⟩
      · refine mem_substitution_iff.mpr ⟨d, hd, name, ?_, hgiven, ?_, rfl⟩
        · unfold localName?
          rw [hbound, hsame, ofString_of_textOf hold]
          rfl
        · rw [hsame]
          exact fun h => hne (Bytes.ofString_injective h)
      · rw [hsame, ← replacement?_eq, htext]
        rfl

/-- What is put in the place of the imports and of the names lies apart and covers something. -/
theorem substitutionPatches_apart :
    (substitutionPatches f (newName? f resolve names)).Pairwise Patch.Apart := by
  refine List.pairwise_append.mpr ⟨(importPatches_inOrder f _).pairwise, ?_, ?_⟩
  · refine (occurrences_pairwise f).filterMap _ fun o o' hoo' q hq q' hq' => ?_
    obtain ⟨hname, -, _, _, -, -, rfl⟩ := (namePatch?_eq_some_iff hnames).mp hq
    obtain ⟨hname', -, _, _, -, -, rfl⟩ := (namePatch?_eq_some_iff hnames).mp hq'
    exact .inl (hoo' hname hname')
  · intro p hp q hq
    obtain ⟨d, hd, rfl⟩ := List.mem_map.mp hp
    obtain ⟨o, ho, hq⟩ := List.mem_filterMap.mp hq
    obtain ⟨e, hmention, rfl⟩ := (exists_namePatch?_iff hplan hnames).mp ⟨o, ho, hq⟩
    exact ((editsMention_apart hmention).2 d hd).symm

/-- The edits for the imports of a file can be applied, and do what the substitution does. -/
theorem plan_substitutes : Edit.applyAll plans.flatten f.text =
    .ok (Patch.madeAtOnce f.text (substitutionPatches f (newName? f resolve names))) := by
  obtain ⟨hbounds, hpairwise⟩ := plan_fits hplan hnames
  obtain ⟨text, happlied⟩ := (Edit.exists_applyAll_iff fun e he => (hbounds e he).1).mpr
    ⟨fun e he => (hbounds e he).2, hpairwise⟩
  obtain ⟨patches, horder, rfl, hmem⟩ := plan_repairs hplan happlied
  rw [happlied]
  have hpos : ∀ p ∈ patches, p.start < p.stop := by
    intro p hp
    rcases (hmem p).mp hp with ⟨d, hd, rfl⟩ | ⟨e, hmention, rfl⟩
    · exact import_start_lt hd
    · exact (editsMention_apart hmention).1
  refine congrArg Except.ok (Patch.patched_eq_madeAtOnce horder hpos (fun q => ?_)
    (substitutionPatches_apart hplan hnames))
  rw [hmem, ← exists_namePatch?_iff hplan hnames]
  unfold substitutionPatches
  rw [List.mem_append, List.mem_map, List.mem_filterMap]
  exact or_congr_left (exists_congr fun d => and_congr_right fun _ => eq_comm)

end

end NamedImport

open NamedImport

/-- A commit of edits that can be applied leaves their text in memory, and fails only on the disk. -/
theorem Ending.ofCommit_of_edited {w : Workspace} {f g : SourceFile} {edits : List Edit}
    (h : f.edited edits = .ok g) :
    ((ofCommit w f edits).result = .ok () ∨ ∃ e, (ofCommit w f edits).result = .error (.io e)) ∧
      (ofCommit w f edits).file.text = g.text := by
  cases hdirty : g.dirty with
  | false =>
    rw [ofCommit_of_clean h hdirty]
    exact ⟨.inl rfl, rfl⟩
  | true =>
    cases hwrite : w.disk.write g.path g.text with
    | error e =>
      rw [ofCommit_of_refused h hdirty hwrite]
      exact ⟨.inr ⟨e, rfl⟩, rfl⟩
    | ok d =>
      rw [ofCommit_of_written h hdirty hwrite]
      exact ⟨.inl rfl, rfl⟩

/-- When the work of the second pass on a file has ended, either nothing could be planned and the file is as it
was, or its text is the old one with the patches made at once. -/
theorem importJob_substitutes (names : Keyed Path String) (w : Workspace) (f : SourceFile)
    (hnames : DistinctNames f (newName? f (w.resolve f.path) names)) :
    (((importJob names).ending w f).file = f ∧ ∃ e, (plan f (w.resolve f.path) names).outcome = .error e ∧
      ((importJob names).ending w f).result = .error e) ∨
    ((∃ n, ((importJob names).ending w f).result = .ok n) ∨
      ∃ e, ((importJob names).ending w f).result = .error (.io e)) ∧
    (substitutionPatches f (newName? f (w.resolve f.path) names)).Pairwise Patch.Apart ∧
    ((importJob names).ending w f).file.text =
      Patch.madeAtOnce f.text (substitutionPatches f (newName? f (w.resolve f.path) names)) := by
  have hjob : importJob names w.config w.knows f =
      (plan f (w.resolve f.path) names).outcome.map fun plans => (plans.length, some plans.flatten) := rfl
  cases hout : (plan f (w.resolve f.path) names).outcome with
  | error e =>
    rw [hout] at hjob
    rw [Job.ending_of_error hjob]
    exact .inl ⟨rfl, e, rfl, rfl⟩
  | ok plans =>
    rw [hout] at hjob
    obtain ⟨g, hedit⟩ := (plan_fits hout hnames).accepts.1
    have htext : g.text = _ :=
      Except.ok.inj ((SourceFile.edited_eq_ok hedit).1.symm.trans (plan_substitutes hout hnames))
    obtain ⟨hresult, hfile⟩ := Ending.ofCommit_of_edited (w := w) hedit
    rw [Job.ending_of_some hjob, Ending.map_result]
    refine .inr ⟨?_, substitutionPatches_apart hout hnames, hfile.trans htext⟩
    rcases hresult with hok | ⟨e, hio⟩
    · rw [hok]
      exact .inl ⟨_, rfl⟩
    · rw [hio]
      exact .inr ⟨e, rfl⟩

/-- Repairing default imports is one substitution. For every project, every file in it and all records such
that the imports of the file that are given names bind different local names: when the work on the file has
ended, either nothing could be planned and the file is as it was, or its text is the old one with all patches
made at once, also if the text could not be written to disk. There is a patch for each import, which stays or
becomes an import of the name, and one for each name outside the imports that says what one of them bound and
is given another name; its bytes depend on what the name said and on how it stood there. The patches lie apart,
so that nothing is replaced twice. -/
theorem default_imports_repaired_at_once (names : Keyed Path String) (w w' : Workspace) (f : SourceFile)
    (r : Except Fault Nat) (j j' : Journal) (hw : w.paths.Nodup) (hf : w.file? f.path = some f)
    (hnames : DistinctNames f (newName? f (w.resolve f.path) names))
    (h : Workspace.nameDefaultImports names f w j = (r, w', j')) :
    (∀ o q, namePatch? f (newName? f (w.resolve f.path) names) o = some q ↔
      isName o.1 = true ∧ (f.imports.any (·.statement.encloses o.1)) = false ∧
        ∃ d ∈ f.imports, ∃ name bytes, localName? f d = some (o.1.text f.text) ∧
          newName? f (w.resolve f.path) names d = some name ∧ o.1.text f.text ≠ Bytes.ofString name ∧
          (Standing.ofName o.1 o.2).renamed (o.1.text f.text) (Bytes.ofString name) = some bytes ∧
          q = ⟨o.1.start, o.1.stop, bytes⟩) ∧
    ∃ g, w'.file? f.path = some g ∧
      ((g = f ∧ ∃ e, (plan f (w.resolve f.path) names).outcome = .error e ∧ r = .error e) ∨
        ((∃ n, r = .ok n) ∨ ∃ e, r = .error (.io e)) ∧
        (substitutionPatches f (newName? f (w.resolve f.path) names)).Pairwise Patch.Apart ∧
        g.text = Patch.madeAtOnce f.text (substitutionPatches f (newName? f (w.resolve f.path) names))) := by
  constructor
  · intro o q
    rw [namePatch?_eq_some_iff hnames]
    refine and_congr_right fun _ => and_congr_right fun _ => ?_
    constructor
    · rintro ⟨new, bytes, hmem, hbytes, hq⟩
      obtain ⟨d, hd, name, hlocal, hgiven, hne, rfl⟩ := mem_substitution_iff.mp hmem
      exact ⟨d, hd, name, bytes, hlocal, hgiven, hne, hbytes, hq⟩
    · rintro ⟨d, hd, name, bytes, hlocal, hgiven, hne, hbytes, hq⟩
      exact ⟨_, bytes, mem_substitution_iff.mpr ⟨d, hd, name, hlocal, hgiven, hne, rfl⟩, hbytes, hq⟩
  obtain ⟨j₁, hrun⟩ := importJob_ends names w f j hw hf
  rw [h] at hrun
  obtain ⟨hresult, hrest⟩ := Prod.mk.inj hrun
  obtain ⟨rfl, -⟩ := Prod.mk.inj hrest
  refine ⟨((importJob names).ending w f).file, ?_, ?_⟩
  · rw [← Job.ending_path (importJob names) w f] at hf ⊢
    exact Workspace.file?_settle ⟨_, hf⟩
  rw [hresult]
  exact importJob_substitutes names w f hnames

/-- A module that imports two default exports and mentions both in every way. -/
def swappingModule : SourceFile :=
  ⟨samplePath "m.ts", .typescript, Bytes.ofString ("import a from \"./a\";\nimport b from \"./b\";\n" ++
    "export \x7b a, b as c \x7d;\na(b, \x7b a, b: b \x7d, a.b);\n"), false⟩

/-- A project with that module and those that it imports from. -/
def swappingProject : Workspace :=
  { sampleProject with files := [swappingModule, ⟨samplePath "a.ts", .typescript, [], false⟩,
      ⟨samplePath "b.ts", .typescript, [], false⟩] }

/-- The default export that was imported as `a` is called `b` now, and the other way round. -/
def swappedNames : Keyed Path String :=
  [(samplePath "a.ts", "b"), (samplePath "b.ts", "a")]

/-- Names that are swapped are replaced once. -/
theorem swappingModule_repaired :
    DistinctNames swappingModule (newName? swappingModule (swappingProject.resolve swappingModule.path) swappedNames) ∧
    ∃ r w' j' g, Workspace.nameDefaultImports swappedNames swappingModule swappingProject [] = (.ok r, w', j') ∧
      w'.file? swappingModule.path = some g ∧
      g.text = Patch.madeAtOnce swappingModule.text (substitutionPatches swappingModule
        (newName? swappingModule (swappingProject.resolve swappingModule.path) swappedNames)) ∧
      g.text = Bytes.ofString ("import \x7b b \x7d from \"./a\";\nimport \x7b a \x7d from \"./b\";\n" ++
        "export \x7b b as a, a as c \x7d;\nb(a, \x7b a: b, b: a \x7d, b.b);\n") := by
  have hnames : DistinctNames swappingModule
      (newName? swappingModule (swappingProject.resolve swappingModule.path) swappedNames) := by decide +kernel
  have hok : (Workspace.nameDefaultImports swappedNames swappingModule swappingProject []).1.toOption =
      some 2 := by decide +kernel
  have htext : ((Workspace.nameDefaultImports swappedNames swappingModule swappingProject []).2.1.file?
      swappingModule.path).map (·.text) = some (Bytes.ofString ("import \x7b b \x7d from \"./a\";\n" ++
        "import \x7b a \x7d from \"./b\";\nexport \x7b b as a, a as c \x7d;\n" ++
        "b(a, \x7b a: b, b: a \x7d, b.b);\n")) := by decide +kernel
  refine ⟨hnames, ?_⟩
  cases hrun : Workspace.nameDefaultImports swappedNames swappingModule swappingProject [] with
  | mk result rest =>
    rw [hrun] at hok htext
    cases result with
    | error e => cases hok
    | ok n =>
      obtain ⟨-, g, hg, hcases⟩ := default_imports_repaired_at_once swappedNames swappingProject rest.1
        swappingModule (.ok n) [] rest.2 (by decide) (by decide) hnames hrun
      rw [hg] at htext
      refine ⟨n, rest.1, rest.2, g, rfl, hg, ?_, Option.some.inj htext⟩
      rcases hcases with ⟨-, e, -, hfailed⟩ | ⟨-, -, hmade⟩
      · cases hfailed
      · exact hmade

end Codemod
