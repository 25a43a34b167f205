import Codemod.Proofs.RefusedWrite

/-!
# Work that fails changes nothing

The work on one file plans all of its edits before it applies any of them, and it applies all of them or
none. Wherever it fails before the write, the workspace is the one in which it began: the file keeps its
text, its mark of change and its content on disk, and no other file is touched. Only a write that the
disk refuses leaves the file changed, and then in memory alone.

The reason tells the two apart. Nothing that is done before the write asks the disk, so a fault of the
disk is always a refused write.

Main statements:

* `NamedImport.plan_offDisk` and `RootedImport.plan_offDisk` say that planning never fails for the sake
  of the disk;
* `Workspace.commit_fails` says how a commit can fail;
* `failed_work_changes_nothing` says so of the three works and of every step of a pass.
-/

namespace Codemod

variable {α : Type}

/-! ### Planning does not ask the disk -/

theorem OffDisk.fail {e : Fault} (h : ∀ io, e ≠ .io io) : OffDisk (.error e : Except Fault α) := by
  intro io hio
  cases hio
  exact h io rfl

theorem OffDisk.filterMapM {β : Type} {k : α → Except Fault (Option β)} (hk : ∀ a, OffDisk (k a))
    (l : List α) : OffDisk (l.filterMapM k) := by
  induction l with
  | nil => exact .ok _
  | cons a rest ih =>
    rw [List.filterMapM_cons]
    refine (hk a).bind fun b => ?_
    cases b with
    | none => exact ih
    | some b => exact ih.bind fun _ => .ok _

namespace Resolution

theorem renamed_offDisk (p : Path) (name : String) : OffDisk (renamed p name) := by
  unfold renamed
  split
  · exact .fail fun _ h => by cases h
  · split
    · exact .fail fun _ h => by cases h
    · exact .ok _

theorem sourceCandidates_offDisk (p : Path) : ∀ x ∈ sourceCandidates p, OffDisk x := by
  intro x hx
  obtain ⟨e, -, hx⟩ := List.mem_flatMap.mp hx
  split at hx
  · cases hx
  · next name _ =>
    have hstem := renamed_offDisk p name
    split at hx
    · next f hf =>
      rw [hf] at hstem
      exact List.mem_singleton.mp hx ▸ hstem
    · obtain ⟨ext, -, rfl⟩ := List.mem_map.mp hx
      exact renamed_offDisk _ _

theorem placeCandidates_offDisk (exts : List String) (p : Path) :
    ∀ x ∈ placeCandidates exts p, OffDisk x := by
  intro x hx
  unfold placeCandidates at hx
  rcases List.mem_append.mp hx with hx | hx
  · rcases List.mem_append.mp hx with hx | hx
    · rcases List.mem_append.mp hx with hx | hx
      · split at hx
        · exact List.mem_singleton.mp hx ▸ .ok _
        · cases hx
      · exact sourceCandidates_offDisk p x hx
    · obtain ⟨ext, -, rfl⟩ := List.mem_map.mp hx
      exact renamed_offDisk _ _
  · obtain ⟨ext, -, rfl⟩ := List.mem_map.mp hx
    exact .ok _

theorem targetPlace_offDisk (base : Path) (captured : Option (List Char)) (v : Json.Value) :
    OffDisk (targetPlace base captured v) := by
  unfold targetPlace
  split
  · split
    · exact .ok _
    · exact .ok _
  · split
    · exact .fail fun _ h => by cases h
    · exact .fail fun _ h => by cases h

theorem places_offDisk (c : Config) (importer : Path) (spec : String) :
    OffDisk (places c importer spec) := by
  have haliases : OffDisk (aliasPlaces c spec) := by
    refine (OffDisk.filterMapM (fun a => ?_) _).bind fun _ => .ok _
    split
    · exact .ok _
    · exact (OffDisk.mapM (targetPlace_offDisk _ _) _).bind fun _ => .ok _
  unfold places
  split
  · exact .ok _
  · split
    · exact .ok _
    · exact haliases.bind fun _ => .ok _

theorem firstKnown_offDisk {known : Path → Bool} {l : List Candidate} (h : ∀ x ∈ l, OffDisk x) :
    OffDisk (firstKnown known l) := by
  induction l with
  | nil => exact .ok _
  | cons x rest ih =>
    cases x with
    | error f => exact .fail fun io hio => h _ (List.mem_cons_self ..) io (hio ▸ rfl)
    | ok p =>
      unfold firstKnown
      split
      · exact .ok _
      · exact ih fun y hy => h y (List.mem_cons_of_mem _ hy)

/-- Resolving a specifier looks at the files of the project and not at the disk. -/
theorem resolve_offDisk (c : Config) (known : Path → Bool) (importer : Path) (spec : String) :
    OffDisk (resolve c known importer spec) := by
  have hplaces := places_offDisk c importer spec
  unfold resolve candidates
  cases hps : places c importer spec with
  | error e => exact .fail fun io h => hplaces io (h ▸ hps)
  | ok ps =>
    refine firstKnown_offDisk fun x hx => ?_
    obtain ⟨p, -, hx⟩ := List.mem_flatMap.mp hx
    exact placeCandidates_offDisk _ _ x hx

end Resolution

/-- A computation that does not fail for the sake of the disk, whatever is in the journal. -/
def Journaled.OffDisk (x : Journaled Fault α) : Prop :=
  ∀ j, Codemod.OffDisk (x j).1

namespace Journaled.OffDisk

variable {β : Type}

theorem pure (a : α) : OffDisk (Pure.pure a : Journaled Fault α) := fun _ => .ok a

theorem note (level : Level) (message : String) : OffDisk (Journaled.note level message) :=
  fun _ => .ok ()

theorem ofExcept {x : Except Fault α} (hx : Codemod.OffDisk x) : OffDisk (Journaled.ofExcept x) := by
  intro j
  cases x with
  | error e => exact hx
  | ok a => exact .ok a

theorem bind {x : Journaled Fault α} {k : α → Journaled Fault β} (hx : OffDisk x)
    (hk : ∀ a, OffDisk (k a)) : OffDisk (x >>= k) := by
  intro j
  cases hrun : x j with
  | mk r j₁ =>
    cases r with
    | error e =>
      rw [Journaled.bind_error hrun]
      exact .fail fun io hio => hx j io (by rw [hrun, hio])
    | ok a =>
      rw [Journaled.bind_ok hrun]
      exact hk a j₁

end Journaled.OffDisk

namespace ModuleReference

theorem specifier_offDisk (r : ModuleReference) (f : SourceFile) : OffDisk (r.specifier f) :=
  (f.textOf_offDisk _).bind fun _ => .ok _

theorem quote_offDisk (r : ModuleReference) (f : SourceFile) : OffDisk (r.quote f) :=
  (f.textOf_offDisk _).bind fun _ => .ok _

end ModuleReference

namespace NamedImport

theorem importEdits_offDisk (f : SourceFile) (r : ModuleReference) (name : String) :
    OffDisk (importEdits f r name) := by
  unfold importEdits
  split
  · exact .fail fun _ h => by cases h
  · refine (OffDisk.mapM f.textOf_offDisk _).bind fun _ =>
      (OffDisk.mapM f.textOf_offDisk _).bind fun _ => ?_
    dsimp only
    split
    · exact .ok _
    · exact (f.decode_offDisk _ _).bind fun _ => (f.decode_offDisk _ _).bind fun _ =>
        (f.textOf_offDisk _).bind fun _ => .ok _

variable {f : SourceFile} {resolve : Resolver}

theorem importPlan_offDisk (hresolve : ∀ spec, OffDisk (resolve spec)) (names : Keyed Path String)
    (r : ModuleReference) : (importPlan f resolve names r).OffDisk := by
  refine (Journaled.OffDisk.ofExcept (r.specifier_offDisk f)).bind fun spec =>
    (Journaled.OffDisk.ofExcept (hresolve spec)).bind fun target => ?_
  cases target with
  | none => exact (Journaled.OffDisk.note _ _).bind fun _ => .pure _
  | some target =>
    dsimp only
    split
    · refine (Journaled.OffDisk.ofExcept (f.textOf_offDisk _)).bind fun _ =>
        (Journaled.OffDisk.ofExcept (importEdits_offDisk f r _)).bind fun _ => ?_
      exact (Journaled.OffDisk.note _ _).bind fun _ => .pure _
    · exact .pure _

/-- Planning the imports of a file never fails for the sake of the disk. -/
theorem plan_offDisk (hresolve : ∀ spec, OffDisk (resolve spec)) (names : Keyed Path String) :
    (plan f resolve names).OffDisk := by
  unfold plan
  induction f.imports with
  | nil => exact .pure _
  | cons r rest ih =>
    exact (importPlan_offDisk hresolve names r).bind fun _ => ih.bind fun _ => .pure _

end NamedImport

theorem rootedSpecifier_offDisk (target : Path) (marker : String) (root : Option Path) :
    OffDisk (rootedSpecifier target marker root) := by
  unfold rootedSpecifier
  split
  · exact .ok _
  · exact .fail fun _ h => by cases h

namespace RootedImport

variable {f : SourceFile} {resolve : String → Except Fault (Option Path)}

theorem referencePlan_offDisk (hresolve : ∀ spec, OffDisk (resolve spec)) (marker : String)
    (root : Path) (r : ModuleReference) : (referencePlan f resolve marker root r).OffDisk := by
  refine (Journaled.OffDisk.ofExcept (r.specifier_offDisk f)).bind fun spec => ?_
  split
  · refine (Journaled.OffDisk.ofExcept (hresolve spec)).bind fun target => ?_
    cases target with
    | none => exact (Journaled.OffDisk.note _ _).bind fun _ => .pure _
    | some target =>
      refine (Journaled.OffDisk.ofExcept (rootedSpecifier_offDisk target marker root)).bind fun _ =>
        (Journaled.OffDisk.note _ _).bind fun _ => ?_
      exact (Journaled.OffDisk.ofExcept (r.quote_offDisk f)).bind fun _ => .pure _
  · exact .pure _

/-- Planning the specifiers of a file never fails for the sake of the disk. -/
theorem plan_offDisk (hresolve : ∀ spec, OffDisk (resolve spec)) (marker : String) (root : Path) :
    (plan f resolve marker root).OffDisk := by
  unfold plan
  induction f.references with
  | nil => exact .pure _
  | cons r rest ih =>
    exact (referencePlan_offDisk hresolve marker root r).bind fun _ => ih.bind fun _ => .pure _

end RootedImport

/-! ### How work on one file fails -/

namespace Workspace

/-- The ways in which work on a file can fail: before it has changed anything, and then for a reason that
is not the disk's; or in the write of the changed file, which stays in memory. -/
inductive Fails (w : Workspace) (f : SourceFile) : Fault → Workspace → Prop
  | before {e : Fault} (h : ∀ io, e ≠ .io io) : Fails w f e w
  | writing {edits : List Edit} {g : SourceFile} {io : IoFault} (hedit : f.edited edits = .ok g)
      (hdirty : g.dirty = true) (hwrite : w.disk.write g.path g.text = .error io) :
      Fails w f (.io io) (w.setFile g)

variable {w w' : Workspace} {f : SourceFile} {e : Fault} {j j' : Journal}

/-- A commit fails when its edits cannot be applied or when the file that they make cannot be written. -/
theorem commit_fails {edits : List Edit} (h : commit f edits w j = (.error e, w', j')) :
    w.Fails f e w' := by
  cases hedit : f.edited edits with
  | error e' =>
    rw [commit_error hedit] at h
    cases h
    exact .before fun io hio => f.edited_offDisk edits io (hio ▸ hedit)
  | ok g =>
    have hrun : edit f edits w j = (.ok g, w.setFile g, j) := by
      unfold edit
      rw [hedit]
      rfl
    cases hd : g.dirty with
    | false =>
      -- An unchanged file is not written, so that nothing is left that could fail.
      have hcommit : commit f edits w j = _ :=
        (Work.bind_ok hrun).trans (Work.bind_ok (save_of_clean hd (w.setFile g) j))
      cases h.symm.trans hcommit
    | true =>
      obtain ⟨j₁, hsave⟩ := save_of_dirty hd (w.setFile g) j
      rw [disk_setFile] at hsave
      cases hwrite : w.disk.write g.path g.text with
      | error io =>
        rw [hwrite] at hsave
        have hcommit : commit f edits w j = _ := (Work.bind_ok hrun).trans (Work.bind_error hsave)
        cases h.symm.trans hcommit
        exact .writing hedit hd hwrite
      | ok d =>
        rw [hwrite] at hsave
        have hcommit : commit f edits w j = _ := (Work.bind_ok hrun).trans (Work.bind_ok hsave)
        cases h.symm.trans hcommit

/-- Work that plans off the disk and commits its plan at the end fails as the commit does. -/
theorem fails_of_plan {γ : Type} {plan : Journaled Fault γ} (hplan : plan.OffDisk)
    {rest : γ → Work α}
    (hrest : ∀ c w' j j', rest c w j = (.error e, w', j') → w.Fails f e w')
    (h : (Work.ofJournaled plan >>= rest) w j = (.error e, w', j')) : w.Fails f e w' := by
  cases hrun : plan j with
  | mk r j₁ =>
    have hlook : Work.ofJournaled plan w j = (r, w, j₁) := by
      unfold Work.ofJournaled
      rw [hrun]
    cases r with
    | error e' =>
      rw [Work.bind_error hlook] at h
      cases h
      exact .before fun io hio => hplan j io (by rw [hrun, hio])
    | ok c =>
      rw [Work.bind_ok hlook] at h
      exact hrest c w' j₁ j' h

/-- Work that commits edits and then cannot fail any more fails as the commit does. -/
theorem fails_of_commit {edits : List Edit} {rest : Unit → Work α}
    (hrest : ∀ w j, ∃ a j', rest () w j = (.ok a, w, j'))
    (h : (commit f edits >>= rest) w j = (.error e, w', j')) : w.Fails f e w' := by
  cases hrun : commit f edits w j with
  | mk r state =>
    obtain ⟨w₁, j₁⟩ := state
    cases r with
    | error e' =>
      rw [Work.bind_error hrun] at h
      cases h
      exact commit_fails hrun
    | ok u =>
      rw [Work.bind_ok hrun] at h
      obtain ⟨a, j₂, hlast⟩ := hrest w₁ j₁
      cases h.symm.trans hlast

theorem nameDefaultExport_fails (h : nameDefaultExport f w j = (.error e, w', j')) :
    w.Fails f e w' := by
  have hplan : (NamedExport.plan f).OffDisk := by
    intro j
    rw [(NamedExport.plan_steady f).fst j]
    exact NamedExport.plan_offDisk f
  refine fails_of_plan hplan (fun c w' j j' hrest => ?_) h
  cases c with
  | none => cases hrest
  | some ne => exact fails_of_commit (fun _ _ => ⟨_, _, rfl⟩) hrest

theorem nameDefaultImports_fails {names : Keyed Path String}
    (h : nameDefaultImports names f w j = (.error e, w', j')) : w.Fails f e w' := by
  have hplan := NamedImport.plan_offDisk (f := f)
    (Resolution.resolve_offDisk w.config w.knows f.path) names
  refine fails_of_plan hplan (fun c w' j j' hrest => ?_) h
  exact fails_of_commit (fun _ _ => ⟨_, _, rfl⟩) hrest

theorem rootSpecifiers_fails {marker : String}
    (h : rootSpecifiers marker f w j = (.error e, w', j')) : w.Fails f e w' := by
  have hplan := RootedImport.plan_offDisk (f := f)
    (Resolution.resolve_offDisk w.config w.knows f.path) marker w.config.root
  refine fails_of_plan hplan (fun c w' j j' hrest => ?_) h
  exact fails_of_commit (fun _ _ => ⟨_, _, rfl⟩) hrest

/-- Work on files that changes all or nothing before it writes: where it fails for another reason than
the disk's the workspace is as it was, and a fault of the disk is the refused write of the changed
file. -/
structure AllOrNothing (work : SourceFile → Work α) : Prop where
  unchanged : ∀ {w w' : Workspace} {f : SourceFile} {e : Fault} {j j' : Journal},
    work f w j = (.error e, w', j') → (∀ io, e ≠ .io io) → w' = w
  refused : ∀ {w w' : Workspace} {f : SourceFile} {io : IoFault} {j j' : Journal},
    work f w j = (.error (.io io), w', j') → ∃ edits g, f.edited edits = .ok g ∧ g.dirty = true ∧
      w.disk.write g.path g.text = .error io ∧ w' = w.setFile g

theorem AllOrNothing.of_fails {work : SourceFile → Work α}
    (h : ∀ {w w' f e j j'}, work f w j = (.error e, w', j') → w.Fails f e w') :
    AllOrNothing work where
  unchanged hrun he := by
    cases h hrun with
    | before => rfl
    | writing => exact absurd rfl (he _)
  refused hrun := by
    cases h hrun with
    | before hno => exact absurd rfl (hno _)
    | writing hedit hd hwrite => exact ⟨_, _, hedit, hd, hwrite, rfl⟩

end Workspace

/-- A task that fails in a step of a pass, for another reason than the disk's, changes nothing in it. -/
theorem PassState.advance_failed {limit : Nat} {job : Job α} {s s' : PassState α} {p : Path}
    {e : Fault} (h : s.advance limit job p = some s')
    (hend : s'.phase p = .ended (.error e)) (he : ∀ io, e ≠ .io io) :
    s'.workspace = s.workspace := by
  unfold advance at h
  split at h
  case h_1 =>
    obtain ⟨-, hnext⟩ := Option.ite_none_right_eq_some.mp h
    cases hnext
    rfl
  case h_2 =>
    obtain ⟨f, -, rfl⟩ := Option.map_eq_some_iff.mp h
    cases hjob : job s.workspace.config s.workspace.knows f with
    | error e' => rw [rewrite_of_error hjob, enter_workspace]
    | ok r =>
      obtain ⟨a, edits | edits⟩ := r
      · rw [rewrite_of_none hjob, enter_workspace]
      · cases hg : f.edited edits with
        | error e' => rw [rewrite_of_unapplied hjob hg, enter_workspace]
        | ok g =>
          -- A task that has changed its file goes on to its write, or is done.
          rw [rewrite_of_edited hjob hg] at hend
          have hphase : (if g.dirty then Phase.saving g.text a else .ended (.ok a)) =
              .ended (.error e) := (if_pos rfl).symm.trans hend
          split at hphase
          · cases hphase
          · cases hphase
  case h_3 text a _ =>
    cases h
    cases hwrite : s.workspace.disk.write p text with
    | error io =>
      rw [write_of_error hwrite, enter_phase, if_pos rfl] at hend
      cases hend
      exact absurd rfl (he io)
    | ok d =>
      rw [write_of_ok hwrite] at hend
      cases (if_pos rfl).symm.trans hend
  case h_4 =>
    obtain ⟨f, -, rfl⟩ := Option.map_eq_some_iff.mp h
    cases (if_pos rfl).symm.trans hend
  case h_5 =>
    cases h
    cases (if_pos rfl).symm.trans hend
  case h_6 => cases h

open Workspace

/-- For every workspace, every file and all arguments: when the work on the file fails for another reason
than the disk's, every text, mark of change and content on disk is as before, for that file and for all
others; a fault of the disk is a refused write. So it is with every step in which a task of a pass
fails. -/
theorem failed_work_changes_nothing :
    AllOrNothing nameDefaultExport ∧ (∀ names, AllOrNothing (nameDefaultImports names)) ∧
    (∀ marker, AllOrNothing (rootSpecifiers marker)) ∧
    ∀ {α : Type} (limit : Nat) (job : Job α) (s s' : PassState α) (p : Path) (e : Fault),
      s.advance limit job p = some s' → s'.phase p = .ended (.error e) → (∀ io, e ≠ .io io) →
      s'.workspace = s.workspace := by
  refine ⟨.of_fails nameDefaultExport_fails, fun _ => .of_fails nameDefaultImports_fails,
    fun _ => .of_fails rootSpecifiers_fails, ?_⟩
  intro α limit job s s' p e hstep hend he
  exact PassState.advance_failed hstep hend he

/-- A file that imports one module below the source root and one beside it. -/
def mixedUser : SourceFile :=
  ⟨samplePath "b.ts", .typescript, Bytes.ofString "import \"./a\";\nimport \"../lib\";\n", false⟩

/-- The project of that file. -/
def mixedProject : Workspace :=
  { disk := .empty
    config := sampleProject.config
    files := [⟨⟨.root, ["p", "lib.ts"]⟩, .typescript, [], false⟩,
      ⟨samplePath "a.ts", .typescript, [], false⟩, mixedUser] }

/-- The specifier of the first module can be written from the source root, that of the second one
cannot, and the file is left alone. -/
theorem mixedProject_unchanged :
    (mixedUser.references.map fun r =>
      (RootedImport.referencePlan mixedUser (mixedProject.resolve mixedUser.path) "src"
        mixedProject.config.root r).outcome.toOption.join.isSome) = [true, false] ∧
    ∃ j, rootSpecifiers "src" mixedUser mixedProject [] =
      (.error (.rootMarkerNotFound ⟨.root, ["p", "lib.ts"]⟩ "src"), mixedProject, j) := by
  refine ⟨by decide +kernel, ?_⟩
  have hresult : (rootSpecifiers "src" mixedUser mixedProject []).1 =
      .error (.rootMarkerNotFound ⟨.root, ["p", "lib.ts"]⟩ "src") := by decide +kernel
  obtain ⟨-, -, hroots, -⟩ := failed_work_changes_nothing
  cases hrun : rootSpecifiers "src" mixedUser mixedProject [] with
  | mk r state =>
    obtain ⟨w', j'⟩ := state
    rw [hrun] at hresult
    cases hresult
    exact ⟨j', by rw [(hroots "src").unchanged hrun fun io h => by cases h]⟩

end Codemod
