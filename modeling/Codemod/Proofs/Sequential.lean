import Codemod.Proofs.Interleaving

/-!
# A pass file by file

The runs of the library work on the files one after the other. Such a pass follows a schedule too: each
task makes all its steps before the next one is admitted, which every limit allows.

Main statements:

* `PassState.play_visit` says that the work on one file is a row of steps of its task;
* `pass_follows_schedule` says that a pass over all files follows a schedule.
-/

namespace Codemod

variable {α : Type}

/-- A pass that follows a schedule until every task has reported. -/
def passBy (limit : Nat) (job : Job α) (schedule : List Path) (w : Workspace) : Option (PassState α) :=
  match PassState.play limit job schedule (PassState.start w) with
  | some s => if s.done then some s else none
  | none => none

theorem passBy_eq_some {limit : Nat} {job : Job α} {σ : List Path} {w : Workspace} {s : PassState α} :
    passBy limit job σ w = some s ↔
      PassState.play limit job σ (PassState.start w) = some s ∧ s.done = true := by
  unfold passBy
  cases PassState.play limit job σ (PassState.start w) with
  | none => simp
  | some t =>
    by_cases h : t.done = true
    · simp only [h, if_true, Option.some.injEq]
      constructor
      · rintro rfl
        exact ⟨rfl, h⟩
      · exact And.left
    · simp only [h, Option.some.injEq]
      constructor
      · intro hn
        cases hn
      · rintro ⟨rfl, hd⟩
        exact absurd hd h

/-- What is known of a pass that has followed a schedule. -/
theorem passBy_sound {limit : Nat} {job : Job α} {σ : List Path} {w : Workspace} {s : PassState α}
    (hw : w.Separate) (h : passBy limit job σ w = some s) : Sound job w s ∧ Completed job w s := by
  obtain ⟨hplay, hdone⟩ := passBy_eq_some.mp h
  have hs := (Sound.start hw).play hw hplay
  exact ⟨hs, hs.completed hw hdone⟩

namespace PassState

variable {limit : Nat} {job : Job α} {s : PassState α} {p : Path}

theorem enter_enter (s : PassState α) (p : Path) (a b : Phase α) :
    (s.enter p a).enter p b = s.enter p b := by
  unfold enter
  congr 1
  funext q
  by_cases h : q = p <;> simp [h]

theorem play_one {s' : PassState α} (h : s.advance limit job p = some s') (rest : List Path) :
    play limit job (p :: rest) s = play limit job rest s' := by
  rw [play_cons, h]
  rfl

/-- What the task of a file leaves when it has moved alone from its admission to its report. -/
def visited (job : Job α) (s : PassState α) (f : SourceFile) : PassState α where
  workspace := s.workspace.settle (job.ending s.workspace f)
  phase q := if q = f.path then .reported else s.phase q
  visits := s.visits ++ [visitOf f.path (job.ending s.workspace f).result]
  written := s.written ++ ((job.ending s.workspace f).written.map fun b => (f.path, b)).toList

theorem report_eq_visited {f : SourceFile} {e : Ending α} {t : PassState α}
    (hends : job.ending s.workspace f = e) (hworkspace : t.workspace = s.workspace.settle e)
    (hphase : ∀ q, q ≠ f.path → t.phase q = s.phase q) (hvisits : t.visits = s.visits)
    (hwritten : t.written = s.written ++ (e.written.map fun b => (f.path, b)).toList) :
    t.report f.path e.result = s.visited job f := by
  have hphases : (t.enter f.path .reported).phase =
      fun q => if q = f.path then .reported else s.phase q := by
    funext q
    by_cases h : q = f.path
    · rw [enter_phase, if_pos h, if_pos h]
    · rw [enter_phase, if_neg h, if_neg h, hphase q h]
  unfold visited report
  dsimp only
  rw [hends, hphases, enter_workspace, enter_written, hworkspace, hvisits, hwritten]

/-- When a task has moved alone, its file has been worked on and it has reported. -/
theorem play_visit (hw : s.workspace.paths.Nodup) {f : SourceFile}
    (hf : s.workspace.file? f.path = some f) (hph : s.phase f.path = .waiting)
    (hfree : s.atWork s.workspace.paths < limit) :
    ∃ σ, play limit job σ s = some (s.visited job f) := by
  have hadmit : s.advance limit job f.path = some (s.enter f.path .admitted) :=
    advance_waiting hph (Workspace.mem_paths_iff.mpr ⟨f, hf⟩) hfree
  have hrewrite : (s.enter f.path .admitted).advance limit job f.path =
      some ((s.enter f.path .admitted).rewrite job f.path f) :=
    advance_admitted (if_pos rfl) hf
  have hother : ∀ ph q, q ≠ f.path → (s.enter f.path ph).phase q = s.phase q :=
    fun _ _ h => if_neg h
  -- A task that leaves its file alone is admitted, plans and reports.
  have hquiet : ∀ r, job.ending s.workspace f = ⟨r, f, none⟩ →
      (s.enter f.path .admitted).rewrite job f.path f = s.enter f.path (.ended r) →
      ∃ σ, play limit job σ s = some (s.visited job f) := by
    intro r hends hstep
    refine ⟨[f.path, f.path, f.path], ?_⟩
    rw [play_one hadmit, play_one hrewrite, hstep, play_one (advance_ended (if_pos rfl)), play_nil]
    exact congrArg some (report_eq_visited hends (Workspace.settle_self hw hf r).symm (hother _) rfl
      (List.append_nil _).symm)
  cases hjob : job s.workspace.config s.workspace.knows f with
  | error e =>
    refine hquiet _ (Job.ending_of_error hjob) ?_
    rw [rewrite_of_error (s := s.enter f.path .admitted) hjob, enter_enter]
  | ok r =>
    obtain ⟨a, edits | edits⟩ := r
    · refine hquiet _ (Job.ending_of_none hjob) ?_
      rw [rewrite_of_none (s := s.enter f.path .admitted) hjob, enter_enter]
    · have hends := Job.ending_of_some hjob
      cases hg : f.edited edits with
      | error e =>
        rw [Ending.ofCommit_of_error hg] at hends
        refine hquiet (.error e) hends ?_
        rw [rewrite_of_unapplied (s := s.enter f.path .admitted) hjob hg, enter_enter]
      | ok g =>
        have hpath := SourceFile.edited_path hg
        rw [rewrite_of_edited (s := s.enter f.path .admitted) hjob hg, enter_enter] at hrewrite
        cases hd : g.dirty with
        | false =>
          rw [Ending.ofCommit_of_clean hg hd] at hends
          rw [hd] at hrewrite
          refine ⟨[f.path, f.path, f.path], ?_⟩
          rw [play_one hadmit, play_one hrewrite, play_one (advance_ended (if_pos rfl)), play_nil]
          exact congrArg some (report_eq_visited hends rfl (hother _) rfl (List.append_nil _).symm)
        | true =>
          rw [hd, if_pos rfl] at hrewrite
          have hsave : ((s.enter f.path (.saving g.text a)).withFile g).advance limit job f.path =
              some (((s.enter f.path (.saving g.text a)).withFile g).write f.path g.text a) :=
            advance_saving (if_pos rfl)
          cases hwrite : s.workspace.disk.write g.path g.text with
          | error e =>
            rw [Ending.ofCommit_of_refused hg hd hwrite] at hends
            rw [write_of_error (hpath ▸ hwrite)] at hsave
            refine ⟨[f.path, f.path, f.path, f.path], ?_⟩
            rw [play_one hadmit, play_one hrewrite, play_one hsave,
              play_one (advance_ended (if_pos rfl)), play_nil]
            refine congrArg some (report_eq_visited hends rfl (fun q hq => ?_) rfl
              (List.append_nil _).symm)
            rw [enter_phase, if_neg hq]
            exact hother _ q hq
          | ok d =>
            rw [Ending.ofCommit_of_written hg hd hwrite] at hends
            rw [write_of_ok (hpath ▸ hwrite)] at hsave
            have hfile : (s.workspace.setFile g).file? f.path = some g := by
              rw [Workspace.file?_setFile ⟨f, hpath.symm ▸ hf⟩, if_pos hpath.symm]
            refine ⟨[f.path, f.path, f.path, f.path, f.path], ?_⟩
            rw [play_one hadmit, play_one hrewrite, play_one hsave,
              play_one (advance_saved (if_pos rfl) hfile), play_one (advance_ended (if_pos rfl)),
              play_nil]
            refine congrArg some (report_eq_visited hends ?_ (fun q hq => ?_) rfl rfl)
            · show { (s.workspace.setFile g).setFile { g with dirty := false } with disk := d } = _
              have hsame := Workspace.setFile_setFile s.workspace
                (show g.path = ({ g with dirty := false } : SourceFile).path from rfl)
              rw [FileSystem.write_eq_put hwrite, hsame]
              rfl
            · show (if q = f.path then _ else if q = f.path then _ else (s.enter f.path _).phase q) = _
              rw [if_neg hq, if_neg hq]
              exact hother _ q hq

end PassState

/-! ### The pass of the library -/

section

variable {limit : Nat} {job : Job α} {work : SourceFile → Work α} {s : PassState α}

theorem visit_eq (hjob : job.Describes work) (hw : s.workspace.paths.Nodup) {f : SourceFile}
    (hf : s.workspace.file? f.path = some f) (name : String) (j : Journal) :
    ∃ j', visit name work f.path s.workspace j =
      (visitOf f.path (job.ending s.workspace f).result, (s.visited job f).workspace, j') := by
  obtain ⟨j', hwork⟩ := hjob s.workspace f j hw hf
  unfold visit
  rw [hf]
  dsimp only
  rw [hwork]
  cases (job.ending s.workspace f).result with
  | ok a => exact ⟨_, rfl⟩
  | error e => exact ⟨_, rfl⟩

/-- Visits of files one after the other follow a schedule when no task is at work. -/
theorem visitAll_follows_schedule (hjob : job.Describes work) (hlimit : 1 ≤ limit) (name : String)
    {ps : List Path} (hps : ps.Nodup) (hmem : ∀ p ∈ ps, p ∈ s.workspace.paths)
    (hw : s.workspace.paths.Nodup) (hwait : ∀ p ∈ ps, s.phase p = .waiting)
    (hrest : ∀ p, (s.phase p).isAtWork = false) (j : Journal) :
    ∃ σ t, PassState.play limit job σ s = some t ∧
      t.visits = s.visits ++ (visitAll name work ps s.workspace j).1 ∧
      t.workspace = (visitAll name work ps s.workspace j).2.1 ∧
      (∀ p, t.phase p = if p ∈ ps then .reported else s.phase p) := by
  induction ps generalizing s j with
  | nil => exact ⟨[], s, rfl, (List.append_nil _).symm, rfl, fun p => rfl⟩
  | cons p rest ih =>
    obtain ⟨hp, hrestps⟩ := List.nodup_cons.mp hps
    obtain ⟨f, hf⟩ := Workspace.mem_paths_iff.mp (hmem p (by simp))
    obtain rfl := Workspace.path_of_file? hf
    have hfree : s.atWork s.workspace.paths < limit := by
      have hnone : s.workspace.paths.filter (fun p => (s.phase p).isAtWork) = [] :=
        List.filter_eq_nil_iff.mpr fun q _ => by rw [hrest q]; exact Bool.false_ne_true
      unfold PassState.atWork
      rw [hnone]
      exact hlimit
    obtain ⟨σ, hσ⟩ : ∃ σ, PassState.play limit job σ s = some (s.visited job f) :=
      PassState.play_visit hw hf (hwait f.path (by simp)) hfree
    obtain ⟨j₁, hvisit⟩ := visit_eq hjob hw hf name j
    have hpaths : (s.visited job f).workspace.paths = s.workspace.paths := Workspace.paths_settle _ _
    have hphase : ∀ q, (s.visited job f).phase q = if q = f.path then .reported else s.phase q :=
      fun _ => rfl
    obtain ⟨τ, t, hτ, hvisits, hws, hph⟩ := ih (s := s.visited job f) hrestps
      (fun q hq => hpaths ▸ hmem q (List.mem_cons_of_mem _ hq)) (hpaths ▸ hw)
      (fun q hq => by
        have hne : q ≠ f.path := fun e => hp (e ▸ hq)
        rw [hphase, if_neg hne, hwait q (List.mem_cons_of_mem _ hq)])
      (fun q => by
        rw [hphase]
        split
        · rfl
        · exact hrest q) j₁
    refine ⟨σ ++ τ, t, ?_, ?_, ?_, fun q => ?_⟩
    · rw [PassState.play_append, hσ]
      exact hτ
    · rw [hvisits, visitAll, hvisit]
      exact List.append_assoc ..
    · rw [hws, visitAll, hvisit]
    · rw [hph, hphase]
      by_cases hq : q = f.path
      · simp [hq]
      · by_cases hr : q ∈ rest <;> simp [hq, hr]

/-- A pass over all files follows a schedule, whatever the limit is. -/
theorem pass_follows_schedule (hjob : job.Describes work) (hlimit : 1 ≤ limit) (name : String)
    {w : Workspace} (hw : w.Separate) (j : Journal) :
    ∃ σ s, passBy limit job σ w = some s ∧ s.visits = (pass name work w j).1.2 ∧
      s.workspace = (pass name work w j).2.1 := by
  obtain ⟨σ, s, hplay, hvisits, hws, hph⟩ :=
    visitAll_follows_schedule (s := PassState.start w) hjob hlimit name hw.nodup (fun _ hp => hp)
      hw.nodup (fun _ _ => rfl) (fun _ => rfl) j
  have hs := (Sound.start hw).play hw hplay
  refine ⟨σ, s, passBy_eq_some.mpr ⟨hplay, ?_⟩, hvisits, hws⟩
  refine List.all_eq_true.mpr fun p hp => ?_
  rw [hph, if_pos (hs.paths ▸ hp)]
  rfl

end

end Codemod
