import Codemod.Proofs.ScheduleIndependence

/-!
# Renames whose write was refused

The work of the first pass of a naming run can fail before its edits, while they are applied, or when the
file is written. Only in the last case has the file changed: its default export has a name in memory, the
file counts as changed, and no name is recorded. Any later pass that saves the file then writes that text.

A history is a sequence of passes, with changes of the disk between them. A naming run is two passes of
it, the second one with the names of the first.

Main statements:

* `Step.renamesUnrecorded_iff` says that a rename without a record is a refused write, and
  `exportJob_file_of_failed` that every other failure leaves the file alone;
* `unrecorded_rename_iff` says when the text of such a rename is written.
-/

namespace Codemod

variable {α β : Type}

/-! ### Faults of the disk -/

/-- A computation that does not fail for the sake of the disk. -/
def OffDisk (x : Except Fault α) : Prop :=
  ∀ e, x ≠ .error (.io e)

namespace OffDisk

theorem ok (a : α) : OffDisk (.ok a) := fun _ h => by cases h

theorem bind {x : Except Fault α} {k : α → Except Fault β} (hx : OffDisk x)
    (hk : ∀ a, OffDisk (k a)) : OffDisk (x >>= k) := by
  intro e h
  cases x with
  | error e' =>
    cases h
    exact hx e rfl
  | ok a => exact hk a e h

theorem map {x : Except Fault α} (hx : OffDisk x) (g : α → β) : OffDisk (g <$> x) := by
  intro e h
  cases x with
  | error e' =>
    cases h
    exact hx e rfl
  | ok a => cases h

theorem mapM {k : α → Except Fault β} (hk : ∀ a, OffDisk (k a)) (l : List α) :
    OffDisk (l.mapM k) := by
  induction l with
  | nil => exact ok _
  | cons a rest ih =>
    rw [List.mapM_cons]
    exact (hk a).bind fun _ => ih.bind fun _ => ok _

end OffDisk

namespace SourceFile

theorem decode_offDisk (f : SourceFile) (start stop : Nat) : OffDisk (f.decode start stop) := by
  intro e h
  unfold decode at h
  split at h
  · cases h
  · cases h

theorem textOf_offDisk (f : SourceFile) (t : Syntax.Tree) : OffDisk (f.textOf t) :=
  f.decode_offDisk _ _

theorem findDeclarations_offDisk (f : SourceFile) (name : String) :
    OffDisk (f.findDeclarations name) := by
  unfold findDeclarations
  induction f.statements with
  | nil => exact .ok _
  | cons t rest ih =>
    have hdeclares : OffDisk (f.declares name t) := by
      unfold declares
      split
      · exact .ok _
      · exact (OffDisk.mapM f.textOf_offDisk _).map _
    exact hdeclares.bind fun _ => ih.bind fun _ => .ok _

theorem replaceStatement_offDisk (f : SourceFile) (t : Syntax.Tree) (text : String) (keep : Bool) :
    OffDisk (f.replaceStatement t text keep) := by
  unfold replaceStatement
  split
  · exact .ok _
  · exact (f.decode_offDisk _ _).bind fun _ => .ok _

theorem edited_offDisk (f : SourceFile) (edits : List Edit) : OffDisk (f.edited edits) := by
  intro e h
  unfold edited at h
  split at h
  · cases h
  · split at h
    · cases h
    · cases h

theorem defaultExportsOf_offDisk (f : SourceFile) (ts : List Syntax.Tree) :
    OffDisk (f.defaultExportsOf ts).outcome := by
  induction ts with
  | nil => exact .ok _
  | cons t rest ih =>
    unfold defaultExportsOf
    split
    · rw [Journaled.outcome_bind]
      · exact ih.bind fun _ => .ok _
      · exact fun _ => Journaled.pure_steady _
    · have hrest := f.defaultExportsOf_steady rest
      rw [Journaled.outcome_bind fun _ => (Journaled.note_steady _ _).bind fun _ => hrest,
        Journaled.outcome_ofExcept]
      refine (f.textOf_offDisk t).bind fun _ => ?_
      rw [Journaled.outcome_bind fun _ => hrest]
      exact ih

end SourceFile

namespace NamedExport

theorem edits_offDisk (f : SourceFile) (d : DefaultExport) : OffDisk (edits f d) := by
  unfold edits
  split
  · refine (f.textOf_offDisk _).bind fun name => (f.findDeclarations_offDisk name).bind fun ts => ?_
    split
    · exact fun e h => by cases h
    · refine (OffDisk.mapM (fun t => ?_) _).bind fun _ => .ok _
      exact (f.textOf_offDisk t).bind fun _ => f.replaceStatement_offDisk _ _ _
  · unfold declarationEdits
    split
    · exact fun e h => by cases h
    · exact (f.textOf_offDisk _).bind fun _ => .ok _
  · unfold expressionEdits
    dsimp only
    split
    · exact (f.textOf_offDisk _).bind fun _ => (f.replaceStatement_offDisk _ _ _).bind fun _ => .ok _
    · exact fun e h => by cases h

/-- Planning a name for a default export never fails for the sake of the disk. -/
theorem plan_offDisk (f : SourceFile) : OffDisk (plan f).outcome := by
  unfold plan
  rw [Journaled.outcome_bind]
  · refine (f.defaultExportsOf_offDisk _).bind fun ds => ?_
    split
    · exact .ok _
    · rw [Journaled.outcome_map, Journaled.outcome_ofExcept]
      exact (edits_offDisk f _).map _
    · exact fun e h => by cases h
  · intro ds
    split
    · exact Journaled.pure_steady _
    · exact (Journaled.ofExcept_steady _).map _
    · exact Journaled.fail_steady _

end NamedExport

/-! ### Histories -/

/-- What happens to a project: the passes of its runs, and changes of the disk. -/
inductive Event where
  /-- The first pass of a naming run, with the workspace in which it began. -/
  | exports (before : Workspace) (s : PassState (Option String))
  | imports (s : PassState Nat)
  | roots (s : PassState Nat)
  | disk

/-- One event, from the workspace before it to that after it. -/
inductive Step : Workspace → Event → Workspace → Prop
  | exports {w : Workspace} {limit : Nat} {σ : List Path} {s : PassState (Option String)}
      (h : passBy limit exportJob σ w = some s) : Step w (.exports w s) s.workspace
  | imports {w : Workspace} {limit : Nat} {σ : List Path} {names : Keyed Path String}
      {s : PassState Nat} (h : passBy limit (importJob names) σ w = some s) :
      Step w (.imports s) s.workspace
  | roots {w : Workspace} {limit : Nat} {σ : List Path} {marker : String} {s : PassState Nat}
      (h : passBy limit (rootJob marker) σ w = some s) : Step w (.roots s) s.workspace
  | disk (w : Workspace) (fs : FileSystem) : Step w .disk { w with disk := fs }

/-- Events one after the other. -/
inductive History : Workspace → List Event → Workspace → Prop
  | nil (w : Workspace) : History w [] w
  | cons {w w₁ w' : Workspace} {ev : Event} {es : List Event} (head : Step w ev w₁)
      (tail : History w₁ es w') : History w (ev :: es) w'

theorem History.append_iff {w w' : Workspace} {es es' : List Event} :
    History w (es ++ es') w' ↔ ∃ w₁, History w es w₁ ∧ History w₁ es' w' := by
  constructor
  · intro h
    induction es generalizing w with
    | nil => exact ⟨w, .nil w, h⟩
    | cons ev rest ih =>
      cases h with
      | cons head tail =>
        obtain ⟨w₁, hleft, hright⟩ := ih tail
        exact ⟨w₁, .cons head hleft, hright⟩
  · rintro ⟨w₁, hleft, hright⟩
    induction hleft with
    | nil => exact hright
    | cons head _ ih => exact .cons head (ih hright)

namespace Event

/-- In a first pass the file at `p` was changed in memory as its default export asks for, and no name
was recorded. -/
def RenamesUnrecorded (p : Path) : Event → Prop
  | .exports before s => ∃ f g name edits, before.file? p = some f ∧
      (NamedExport.plan f).outcome = .ok (some (name, edits)) ∧ f.edited edits = .ok g ∧
      s.workspace.file? p = some g ∧ (recordsOf s.visits).get? p = none
  | _ => False

/-- A first pass reported that the file at `p` could not be written. -/
def Refuses (p : Path) : Event → Prop
  | .exports _ s => ∃ e, (⟨p, some (.io e)⟩, none) ∈ s.visits
  | _ => False

/-- A text of the file at `p` went to disk. -/
def Writes (p : Path) : Event → Prop
  | .exports _ s => ∃ b, (p, b) ∈ s.written
  | .imports s | .roots s => ∃ b, (p, b) ∈ s.written
  | .disk => False

/-- A pass reported that the file at `p` is saved: a first pass that its default export got a name,
another pass that its work is done. -/
def Saves (p : Path) : Event → Prop
  | .exports _ s => ∃ name, (recordsOf s.visits).get? p = some name
  | .imports s | .roots s => ∃ n, (⟨p, none⟩, some n) ∈ s.visits
  | .disk => False

end Event

namespace Step

variable {w w' : Workspace} {ev : Event} {p : Path} {f : SourceFile}

theorem paths (hw : w.Separate) (h : Step w ev w') : w'.paths = w.paths := by
  cases h with
  | exports h => exact (passBy_sound hw h).1.paths
  | imports h => exact (passBy_sound hw h).1.paths
  | roots h => exact (passBy_sound hw h).1.paths
  | disk => rfl

theorem separate (hw : w.Separate) (h : Step w ev w') : w'.Separate :=
  hw.congr (h.paths hw)

end Step

/-- How the work on a file with a default export ends in the first pass. -/
theorem exportJob_ends_of_plan {w : Workspace} {f : SourceFile} {name : String} {edits : List Edit}
    (h : (NamedExport.plan f).outcome = .ok (some (name, edits))) :
    exportJob w.config w.knows f = .ok (some name, some edits) := by
  unfold exportJob
  rw [h]
  rfl

theorem exportJob_offDisk (c : Config) (known : Path → Bool) (f : SourceFile) :
    OffDisk (exportJob c known f) :=
  (NamedExport.plan_offDisk f).map _

/-- A task of the first pass fails for the sake of the disk exactly when its file is left as its edits
make it and no name is told. -/
theorem exportJob_io_iff {w : Workspace} {f : SourceFile} :
    (∃ e, (exportJob.ending w f).result = .error (.io e)) ↔
      ∃ name edits g, (NamedExport.plan f).outcome = .ok (some (name, edits)) ∧
        f.edited edits = .ok g ∧ (exportJob.ending w f).file = g ∧
        ∀ n, (exportJob.ending w f).result ≠ .ok (some n) := by
  have hends := exportJob.ends w f
  generalize exportJob.ending w f = e at hends ⊢
  constructor
  · rintro ⟨io, hio⟩
    cases hends with
    | failed hjob =>
      cases hio
      exact absurd hjob (exportJob_offDisk _ _ f io)
    | idle => cases hio
    | unapplied _ hedit =>
      cases hio
      exact absurd hedit (f.edited_offDisk _ io)
    | clean => cases hio
    | refused hjob hedit =>
      obtain ⟨name, -, hplan⟩ := exportJob_eq_ok hjob
      exact ⟨name, _, _, hplan, hedit, rfl, fun n h => by cases h⟩
    | written => cases hio
  · rintro ⟨name, edits, g, hplan, hg, -, hnone⟩
    have hsame := exportJob_ends_of_plan (w := w) hplan
    cases hends with
    | failed hjob => cases hsame.symm.trans hjob
    | idle hjob => cases hsame.symm.trans hjob
    | unapplied hjob hedit =>
      cases hsame.symm.trans hjob
      cases hg.symm.trans hedit
    | clean hjob =>
      cases hsame.symm.trans hjob
      exact absurd rfl (hnone name)
    | refused => exact ⟨_, rfl⟩
    | written hjob =>
      cases hsame.symm.trans hjob
      exact absurd rfl (hnone name)

/-- Every other failure leaves the file alone. -/
theorem exportJob_file_of_failed {w : Workspace} {f : SourceFile} {e : Fault}
    (h : (exportJob.ending w f).result = .error e) (he : ∀ io, e ≠ .io io) :
    (exportJob.ending w f).file = f := by
  have hends := exportJob.ends w f
  generalize exportJob.ending w f = x at h hends ⊢
  cases hends with
  | failed | idle | unapplied => rfl
  | clean | written => cases h
  | refused =>
    cases h
    exact absurd rfl (he _)

/-- What a job wrote it also reported as done. -/
theorem Job.ok_of_written {job : Job α} {w : Workspace} {f : SourceFile} {b : Bytes}
    (h : (job.ending w f).written = some b) :
    ∃ a edits, job w.config w.knows f = .ok (a, some edits) ∧ (job.ending w f).result = .ok a := by
  have hends := job.ends w f
  generalize job.ending w f = x at h hends ⊢
  cases hends with
  | failed | idle | unapplied | clean | refused => cases h
  | written hjob => exact ⟨_, _, hjob, rfl⟩

/-- A job that commits and is done has written a file that was marked as changed. -/
theorem Job.written_of_ok {job : Job α} {w : Workspace} {f : SourceFile} {a : α}
    (hf : f.dirty = true) (hjob : job w.config w.knows f ≠ .ok (a, none))
    (h : (job.ending w f).result = .ok a) : ∃ b, (job.ending w f).written = some b := by
  have hends := job.ends w f
  generalize job.ending w f = x at h hends ⊢
  cases hends with
  | failed | unapplied | refused => cases h
  | idle hidle =>
    cases h
    exact absurd hidle hjob
  | clean _ hedit hdirty =>
    rw [SourceFile.edited_dirty hedit hf] at hdirty
    cases hdirty
  | written => exact ⟨_, rfl⟩

theorem exportJob_commits (c : Config) (known : Path → Bool) (f : SourceFile) (name : String) :
    exportJob c known f ≠ .ok (some name, none) := by
  unfold exportJob
  cases (NamedExport.plan f).outcome with
  | error e => exact fun h => by cases h
  | ok r => cases r <;> exact fun h => by cases h

theorem importJob_commits (names : Keyed Path String) (c : Config) (known : Path → Bool)
    (f : SourceFile) (n : Nat) : importJob names c known f ≠ .ok (n, none) := by
  unfold importJob
  cases (NamedImport.plan f (Resolution.resolve c known f.path) names).outcome with
  | error e => exact fun h => by cases h
  | ok plan => exact fun h => by cases h

theorem rootJob_commits (marker : String) (c : Config) (known : Path → Bool) (f : SourceFile)
    (n : Nat) : rootJob marker c known f ≠ .ok (n, none) := by
  unfold rootJob
  cases (RootedImport.plan f (Resolution.resolve c known f.path) marker c.root).outcome with
  | error e => exact fun h => by cases h
  | ok plan => exact fun h => by cases h

/-! ### One event -/

namespace Step

variable {w w' : Workspace} {ev : Event} {p : Path} {f : SourceFile}

/-- A rename goes unrecorded exactly when its write was refused. -/
theorem renamesUnrecorded_iff (hw : w.Separate) (h : Step w ev w') :
    ev.RenamesUnrecorded p ↔ ev.Refuses p := by
  cases h with
  | exports h =>
    obtain ⟨hs, hc⟩ := passBy_sound hw h
    have hrecord := fun name => @Completed.records_eq_some_iff _ _ hc hs hw.nodup p name
    constructor
    · rintro ⟨f, g, name, edits, hf, hplan, hg, hfile, hnone⟩
      obtain ⟨e, he⟩ := exportJob_io_iff.mpr ⟨name, edits, g, hplan, hg,
        Option.some.inj ((hc.file? hw.nodup hf).symm.trans hfile), fun n hn => by
          rw [(hrecord n).mpr ⟨f, hf, hn⟩] at hnone
          cases hnone⟩
      exact ⟨e, (hc.error_mem_visits_iff hw.nodup).mpr ⟨f, hf, he⟩⟩
    · rintro ⟨e, he⟩
      obtain ⟨f, hf, hresult⟩ := (hc.error_mem_visits_iff hw.nodup).mp he
      obtain ⟨name, edits, g, hplan, hg, hfile, hnone⟩ := exportJob_io_iff.mp ⟨e, hresult⟩
      refine ⟨f, g, name, edits, hf, hplan, hg, hfile ▸ hc.file? hw.nodup hf, ?_⟩
      refine Option.eq_none_iff_forall_ne_some.mpr fun n hn => ?_
      obtain ⟨f', hf', hn'⟩ := (hrecord n).mp hn
      obtain rfl : f' = f := Option.some.inj (hf'.symm.trans hf)
      exact hnone n hn'
  | imports | roots | disk => exact Iff.rfl

/-- After a refused write the file is marked as changed. -/
theorem dirty_of_refuses (hw : w.Separate) (h : Step w ev w') (hr : ev.Refuses p) :
    ∃ f, w'.file? p = some f ∧ f.dirty = true := by
  cases h with
  | exports h =>
    obtain ⟨-, hc⟩ := passBy_sound hw h
    obtain ⟨e, he⟩ := hr
    obtain ⟨f, hf, hresult⟩ := (hc.error_mem_visits_iff hw.nodup).mp he
    refine ⟨_, hc.file? hw.nodup hf, ?_⟩
    have hends := exportJob.ends w f
    generalize exportJob.ending w f = x at hresult hends ⊢
    cases hends with
    | failed hjob =>
      cases hresult
      exact absurd hjob (exportJob_offDisk _ _ f e)
    | unapplied _ hedit =>
      cases hresult
      exact absurd hedit (f.edited_offDisk _ e)
    | idle | clean | written => cases hresult
    | refused _ _ hdirty => exact hdirty
  | imports | roots | disk => exact hr.elim

/-- A marked file stays marked until it is written. -/
theorem dirty_of_dirty (hw : w.Separate) (h : Step w ev w') (hf : w.file? p = some f)
    (hd : f.dirty = true) (hn : ¬ ev.Writes p) : ∃ g, w'.file? p = some g ∧ g.dirty = true := by
  have hpass : ∀ {α : Type} {job : Job α} {s : PassState α}, Completed job w s →
      (¬ ∃ b, (p, b) ∈ s.written) → ∃ g, s.workspace.file? p = some g ∧ g.dirty = true := by
    intro α job s hc hunwritten
    refine ⟨_, hc.file? hw.nodup hf, Job.ending_dirty hd ?_⟩
    refine Option.eq_none_iff_forall_ne_some.mpr fun b hb => hunwritten ⟨b, ?_⟩
    exact (hc.mem_written_iff hw.nodup).mpr ⟨f, hf, hb⟩
  cases h with
  | exports h => exact hpass (passBy_sound hw h).2 hn
  | imports h => exact hpass (passBy_sound hw h).2 hn
  | roots h => exact hpass (passBy_sound hw h).2 hn
  | disk => exact ⟨f, hf, hd⟩

/-- What was written was reported as saved. -/
theorem saves_of_writes (hw : w.Separate) (h : Step w ev w') (hwrites : ev.Writes p) :
    ev.Saves p := by
  have hpass : ∀ {α : Type} {job : Job α} {s : PassState α}, Completed job w s →
      (∃ b, (p, b) ∈ s.written) → ∃ f a edits, w.file? p = some f ∧
        job w.config w.knows f = .ok (a, some edits) ∧ (job.ending w f).result = .ok a := by
    rintro α job s hc ⟨b, hb⟩
    obtain ⟨f, hf, hwritten⟩ := (hc.mem_written_iff hw.nodup).mp hb
    obtain ⟨a, edits, hjob, hok⟩ := Job.ok_of_written hwritten
    exact ⟨f, a, edits, hf, hjob, hok⟩
  cases h with
  | exports h =>
    obtain ⟨hs, hc⟩ := passBy_sound hw h
    obtain ⟨f, a, edits, hf, hjob, hok⟩ := hpass hc hwrites
    obtain ⟨name, rfl, -⟩ := exportJob_eq_ok hjob
    exact ⟨name, (hc.records_eq_some_iff hs hw.nodup).mpr ⟨f, hf, hok⟩⟩
  | imports h =>
    obtain ⟨-, hc⟩ := passBy_sound hw h
    obtain ⟨f, n, -, hf, -, hok⟩ := hpass hc hwrites
    exact ⟨n, (hc.ok_mem_visits_iff hw.nodup).mpr ⟨f, hf, hok⟩⟩
  | roots h =>
    obtain ⟨-, hc⟩ := passBy_sound hw h
    obtain ⟨f, n, -, hf, -, hok⟩ := hpass hc hwrites
    exact ⟨n, (hc.ok_mem_visits_iff hw.nodup).mpr ⟨f, hf, hok⟩⟩
  | disk => exact hwrites.elim

/-- A marked file that is reported as saved was written. -/
theorem writes_of_saves (hw : w.Separate) (h : Step w ev w') (hf : w.file? p = some f)
    (hd : f.dirty = true) (hsaves : ev.Saves p) : ev.Writes p := by
  cases h with
  | exports h =>
    obtain ⟨hs, hc⟩ := passBy_sound hw h
    obtain ⟨name, hname⟩ := hsaves
    obtain ⟨f', hf', hok⟩ := (hc.records_eq_some_iff hs hw.nodup).mp hname
    obtain rfl : f' = f := Option.some.inj (hf'.symm.trans hf)
    obtain ⟨b, hb⟩ := Job.written_of_ok hd (exportJob_commits _ _ _ _) hok
    exact ⟨b, (hc.mem_written_iff hw.nodup).mpr ⟨f', hf, hb⟩⟩
  | imports h =>
    obtain ⟨-, hc⟩ := passBy_sound hw h
    obtain ⟨n, hn⟩ := hsaves
    obtain ⟨f', hf', hok⟩ := (hc.ok_mem_visits_iff hw.nodup).mp hn
    obtain rfl : f' = f := Option.some.inj (hf'.symm.trans hf)
    obtain ⟨b, hb⟩ := Job.written_of_ok hd (importJob_commits _ _ _ _ _) hok
    exact ⟨b, (hc.mem_written_iff hw.nodup).mpr ⟨f', hf, hb⟩⟩
  | roots h =>
    obtain ⟨-, hc⟩ := passBy_sound hw h
    obtain ⟨n, hn⟩ := hsaves
    obtain ⟨f', hf', hok⟩ := (hc.ok_mem_visits_iff hw.nodup).mp hn
    obtain rfl : f' = f := Option.some.inj (hf'.symm.trans hf)
    obtain ⟨b, hb⟩ := Job.written_of_ok hd (rootJob_commits _ _ _ _ _) hok
    exact ⟨b, (hc.mem_written_iff hw.nodup).mpr ⟨f', hf, hb⟩⟩
  | disk => exact hsaves.elim

/-- A file whose write was refused was not written by that pass. -/
theorem not_writes_of_refuses (hw : w.Separate) (h : Step w ev w') (hr : ev.Refuses p) :
    ¬ ev.Writes p := by
  cases h with
  | exports h =>
    obtain ⟨-, hc⟩ := passBy_sound hw h
    obtain ⟨e, he⟩ := hr
    obtain ⟨f, hf, hresult⟩ := (hc.error_mem_visits_iff hw.nodup).mp he
    rintro ⟨b, hb⟩
    obtain ⟨f', hf', hwritten⟩ := (hc.mem_written_iff hw.nodup).mp hb
    obtain rfl : f' = f := Option.some.inj (hf'.symm.trans hf)
    obtain ⟨a, -, -, hok⟩ := Job.ok_of_written hwritten
    cases hok.symm.trans hresult
  | imports | roots | disk => exact hr.elim

end Step

/-! ### Histories as a whole -/

/-- An event of one kind is followed by one of another kind. -/
def Followed (P Q : Event → Prop) (es : List Event) : Prop :=
  ∃ before ev after, es = before ++ ev :: after ∧ P ev ∧ ∃ ev' ∈ after, Q ev'

namespace History

variable {w w' : Workspace} {es : List Event} {p : Path} {f : SourceFile}

theorem separate (hw : w.Separate) (h : History w es w') : w'.Separate := by
  induction h with
  | nil => exact hw
  | cons head _ ih => exact ih (head.separate hw)

/-- Every event of a history is a step between workspaces whose files stand apart. -/
theorem exists_step (hw : w.Separate) (h : History w es w') {ev : Event} (hev : ev ∈ es) :
    ∃ w₁ w₂, w₁.Separate ∧ Step w₁ ev w₂ := by
  induction h with
  | nil => cases hev
  | cons head _ ih =>
    rcases List.mem_cons.mp hev with rfl | hev
    · exact ⟨_, _, hw, head⟩
    · exact ih (head.separate hw) hev

/-- When a marked file is reported as saved, it has been written by then. -/
theorem writes_of_saves (hw : w.Separate) (h : History w es w') (hf : w.file? p = some f)
    (hd : f.dirty = true) (hsaves : ∃ ev ∈ es, ev.Saves p) : ∃ ev ∈ es, ev.Writes p := by
  induction h generalizing f with
  | nil =>
    obtain ⟨ev, hev, -⟩ := hsaves
    cases hev
  | @cons _ _ _ ev rest head _ ih =>
    -- Either this event writes the file, or it leaves it marked and cannot be the one that saves it.
    by_cases hwrites : ev.Writes p
    · exact ⟨ev, by simp, hwrites⟩
    · obtain ⟨g, hg, hgd⟩ := head.dirty_of_dirty hw hf hd hwrites
      obtain ⟨ev', hmem, hsave⟩ := hsaves
      rcases List.mem_cons.mp hmem with rfl | hmem
      · exact absurd (head.writes_of_saves hw hf hd hsave) hwrites
      · obtain ⟨ev'', hmem', hw''⟩ := ih (head.separate hw) hg hgd ⟨ev', hmem, hsave⟩
        exact ⟨ev'', List.mem_cons_of_mem _ hmem', hw''⟩

/-- The text of an unrecorded rename goes to disk exactly when a write of the first pass was refused and
a later pass reports the file as saved. -/
theorem followed_iff (hw : w.Separate) (h : History w es w') :
    Followed (·.RenamesUnrecorded p) (·.Writes p) es ↔ Followed (·.Refuses p) (·.Saves p) es := by
  constructor
  · rintro ⟨before, ev, after, rfl, hev, ev', hev', hwrites⟩
    obtain ⟨w₁, w₂, hsep, hstep⟩ := h.exists_step hw (show ev ∈ before ++ ev :: after by simp)
    obtain ⟨w₃, w₄, hsep', hstep'⟩ :=
      h.exists_step hw (show ev' ∈ before ++ ev :: after by simp [hev'])
    exact ⟨before, ev, after, rfl, (hstep.renamesUnrecorded_iff hsep).mp hev, ev', hev',
      hstep'.saves_of_writes hsep' hwrites⟩
  · rintro ⟨before, ev, after, rfl, hev, hsaves⟩
    obtain ⟨w₁, w₂, hsep, hstep⟩ := h.exists_step hw (show ev ∈ before ++ ev :: after by simp)
    obtain ⟨w₃, hbefore, hrest⟩ := History.append_iff.mp h
    have hsep₃ : w₃.Separate := hbefore.separate hw
    cases hrest with
    | cons head tail =>
      obtain ⟨f, hf, hd⟩ := head.dirty_of_refuses hsep₃ hev
      obtain ⟨ev', hev', hwrites⟩ := tail.writes_of_saves (head.separate hsep₃) hf hd hsaves
      exact ⟨before, ev, after, rfl, (hstep.renamesUnrecorded_iff hsep).mpr hev, ev', hev', hwrites⟩

end History

/-- For every history of a project and every file: a failed task of a first pass leaves the file alone,
except when its write was refused; then the file has the rename in memory, there is no record of it, and
it goes to disk exactly when a later pass reports the file as saved. -/
theorem unrecorded_rename_iff {w w' : Workspace} (hw : w.Separate) {es : List Event}
    (h : History w es w') (p : Path) :
    (∀ before s e, .exports before s ∈ es → (⟨p, some e⟩, none) ∈ s.visits → (∀ io, e ≠ .io io) →
      s.workspace.file? p = before.file? p) ∧
    (∀ ev ∈ es, ev.RenamesUnrecorded p ↔ ev.Refuses p) ∧
    (∀ ev ∈ es, ev.Refuses p → ¬ ev.Writes p) ∧
    (Followed (·.RenamesUnrecorded p) (·.Writes p) es ↔
      Followed (·.Refuses p) (·.Saves p) es) := by
  refine ⟨fun before s e hev he hio => ?_, fun ev hev => ?_, fun ev hev => ?_, h.followed_iff hw⟩
  · obtain ⟨w₁, w₂, hsep, hstep⟩ := h.exists_step hw hev
    cases hstep with
    | exports hpass =>
      obtain ⟨-, hc⟩ := passBy_sound hsep hpass
      obtain ⟨f, hf, hresult⟩ := (hc.error_mem_visits_iff hsep.nodup).mp he
      rw [hc.file? hsep.nodup hf, hf, exportJob_file_of_failed hresult hio]
  · obtain ⟨w₁, w₂, hsep, hstep⟩ := h.exists_step hw hev
    exact hstep.renamesUnrecorded_iff hsep
  · obtain ⟨w₁, w₂, hsep, hstep⟩ := h.exists_step hw hev
    exact hstep.not_writes_of_refuses hsep

/-- The sample project when its directories are gone from the disk. -/
def unwritableProject : Workspace :=
  { sampleProject with disk := .empty }

/-- A first pass over it. -/
def refusedPass : PassState (Option String) :=
  (passBy 1 exportJob (sampleSchedule "aaaabbb") unwritableProject).getD (.start unwritableProject)

/-- What the pass left, when the directories are back. -/
def restoredProject : Workspace :=
  { refusedPass.workspace with disk := sampleProject.disk }

/-- In the sample project the text of a rename without a record goes to disk. -/
theorem sampleProject_rename_written : ∃ s, History unwritableProject
      [.exports unwritableProject refusedPass, .disk, .imports s] s.workspace ∧
    Followed (·.RenamesUnrecorded (samplePath "a.ts")) (·.Writes (samplePath "a.ts"))
      [.exports unwritableProject refusedPass, .disk, .imports s] := by
  have hfirst : passBy 1 exportJob (sampleSchedule "aaaabbb") unwritableProject = some refusedPass := by
    obtain ⟨s, hs⟩ := Option.isSome_iff_exists.mp (show (passBy 1 exportJob (sampleSchedule "aaaabbb")
      unwritableProject).isSome = true by decide +kernel)
    unfold refusedPass
    rw [hs]
    rfl
  obtain ⟨s, hs, hsaved⟩ := (Option.any_eq_true _ _).mp (show (passBy 1 (importJob [])
    (sampleSchedule "aaaaabbb") restoredProject).any
      (fun s => (⟨samplePath "a.ts", none⟩, some 0) ∈ s.visits) = true by decide +kernel)
  have hhistory : History unwritableProject [.exports unwritableProject refusedPass, .disk, .imports s]
      s.workspace :=
    .cons (.exports hfirst) (.cons (.disk _ sampleProject.disk) (.cons (.imports hs) (.nil _)))
  refine ⟨s, hhistory, ?_⟩
  have hseparate : unwritableProject.Separate := sampleProject_separate.congr rfl
  refine (unrecorded_rename_iff hseparate hhistory (samplePath "a.ts")).2.2.2.mpr ?_
  have hrefused : (⟨samplePath "a.ts", some (.io (.notFound (samplePath "a.ts")))⟩, none) ∈
      refusedPass.visits := by decide +kernel
  exact ⟨[], _, _, rfl, ⟨_, hrefused⟩, .imports s, by simp, 0, of_decide_eq_true hsaved⟩

/-- The naming run of the library. -/
def libraryNaming (w : Workspace) : Option NamingResult × Workspace :=
  ((nameDefaults 64 w []).1.toOption, (nameDefaults 64 w []).2.1)

/-- A naming run reports that a file failed and records no name. When its directory is back, the next
run records no name either and writes the renamed text. -/
theorem failed_rename_reaches_disk :
    (libraryNaming unwritableProject).1.map (·.records) = some [] ∧
    (libraryNaming unwritableProject).1.map (·.exports.failed.map (·.path)) =
      some [samplePath "a.ts"] ∧
    (libraryNaming { (libraryNaming unwritableProject).2 with
      disk := sampleProject.disk }).1.map (·.records) = some [] ∧
    (libraryNaming { (libraryNaming unwritableProject).2 with
      disk := sampleProject.disk }).2.disk.content? (samplePath "a.ts") =
      some (Bytes.ofString "export const a = 1;\n") := by
  decide +kernel

end Codemod
