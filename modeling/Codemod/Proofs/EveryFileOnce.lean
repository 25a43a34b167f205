import Codemod.Proofs.Job
import Codemod.Proofs.SiblingTasks

/-!
# Every file is worked on once

A pass that is over has worked once on every file that it was given, and its report has one outcome for
each of them. This holds for every job, every limit that allows work at all and every interleaving of the
tasks. The passes of the library, which work on the files one after the other, are among the runs that this
is said of.

Main statements:

* `pass_follows_schedule_of_steady` says that a pass of the library is a run under any limit, and
  `nameDefaults_follows_schedules_of_steady` and `rootAllSpecifiers_follows_schedule_of_steady` that the
  passes of its two kinds of runs are;
* `exists_run` says that a run comes to its report from wherever it is;
* `every_file_once` says what a run does and what it reports.
-/

namespace Codemod

variable {α β σ τ : Type} {n : Nat}

/-! ### Work that only appends to the journal -/

namespace Work

/-- Whether the work does the same on every journal, and appends the same lines. -/
def Steady (x : Work α) : Prop :=
  ∀ w j, x w j = ((x w []).1, (x w []).2.1, j ++ (x w []).2.2)

theorem ofJournaled_steady {x : Journaled Fault α} (h : x.Steady) : Steady (ofJournaled x) := by
  intro w j
  rw [ofJournaled_run h, ofJournaled_run h, List.nil_append]

theorem pure_steady (a : α) : Steady (Pure.pure a : Work α) :=
  ofJournaled_steady (Journaled.pure_steady a)

theorem fail_steady (e : Fault) : Steady (fail e : Work α) :=
  ofJournaled_steady (Journaled.fail_steady e)

theorem note_steady (level : Level) (message : String) : Steady (note level message) :=
  ofJournaled_steady (Journaled.note_steady level message)

theorem workspace_steady : Steady workspace := by
  intro w j
  simp [workspace]

theorem put_steady (w : Workspace) : Steady (put w) := by
  intro w' j
  simp [put]

theorem ofExcept_steady (x : Except Fault α) : Steady (ofExcept x) := by
  cases x with
  | ok a => exact pure_steady a
  | error e => exact fail_steady e

/-- Steady work in a row is steady. -/
theorem Steady.bind {x : Work α} {k : α → Work β} (hx : x.Steady) (hk : ∀ a, (k a).Steady) :
    Steady (x >>= k) := by
  intro w j
  rcases h : x w [] with ⟨a | e, w', lines⟩
  · have hrun : ∀ j, x w j = (.error a, w', j ++ lines) := fun j => by rw [hx w j, h]
    rw [bind_error (hrun j), bind_error (hrun [])]
    rfl
  · have hrun : ∀ j, x w j = (.ok e, w', j ++ lines) := fun j => by rw [hx w j, h]
    rw [bind_ok (hrun j), bind_ok (hrun []), hk e w' (j ++ lines), hk e w' ([] ++ lines)]
    simp

end Work

namespace Workspace

open Work

theorem save_steady (f : SourceFile) : (save f).Steady := by
  unfold save
  split
  · refine workspace_steady.bind fun w => ?_
    split
    · exact fail_steady _
    · exact (put_steady _).bind fun _ => (note_steady _ _).bind fun _ => pure_steady _
  · exact pure_steady _

theorem commit_steady (f : SourceFile) (edits : List Edit) : (commit f edits).Steady := by
  have hedit : (edit f edits).Steady := (ofExcept_steady _).bind fun _ =>
    workspace_steady.bind fun _ => (put_steady _).bind fun _ => pure_steady _
  exact hedit.bind fun _ => (save_steady _).bind fun _ => pure_steady _

theorem nameDefaultExport_steady (f : SourceFile) : (nameDefaultExport f).Steady := by
  refine (ofJournaled_steady (NamedExport.plan_steady f)).bind fun plan => ?_
  rcases plan with _ | ⟨name, edits⟩
  · exact pure_steady _
  · exact (commit_steady f edits).bind fun _ => (note_steady _ _).bind fun _ => pure_steady _

theorem nameDefaultImports_steady (names : Keyed Path String) (f : SourceFile) :
    (nameDefaultImports names f).Steady :=
  workspace_steady.bind fun _ => (ofJournaled_steady (NamedImport.plan_steady f _ names)).bind fun _ =>
    (commit_steady f _).bind fun _ => pure_steady _

theorem rootSpecifiers_steady (marker : String) (f : SourceFile) : (rootSpecifiers marker f).Steady :=
  workspace_steady.bind fun _ => (ofJournaled_steady (RootedImport.plan_steady f _ marker _)).bind fun _ =>
    (commit_steady f _).bind fun _ => pure_steady _

end Workspace

/-! ### The passes of the library -/

/-- The work of a pass on the file at a path, without a pause. -/
def Routine.ofWork (work : SourceFile → Work α) (p : Path) : Routine Workspace Unit where
  start := ()
  resume _ w :=
    match w.file? p with
    | none => (.ends none, w, [])
    | some f =>
      match work f w [] with
      | (.ok _, w, lines) => (.ends none, w, lines)
      | (.error e, w, lines) => (.ends (some e), w, lines)

namespace FanOut

variable {work : SourceFile → Work α}

/-- A task whose work ends in one stretch can go all the way alone. -/
theorem goes_of_ends {name : String} {p : Path} {r : Routine σ τ} {w w' : σ} {e : Option Fault}
    {lines : Journal} (h : r.resume r.start w = (.ends e, w', lines)) :
    Stage.waiting.Goes name p r w ⟨.finished e, w',
      lines ++ (e.map fun e => ⟨.error, s!"[{name}] {p.toString}: {e.message}"⟩).toList,
      [.begins, .ends e, .reports ⟨p, e⟩]⟩ := by
  cases e with
  | none => exact .step .acquire (.step .begin (.step (.close h) (.step .release Stage.Moves.report.goes)))
  | some e =>
    have hall : Stage.waiting.Goes name p r w _ := .step .acquire (.step .begin
      (.step (.close h) (.step (.complain e) (Stage.Moves.leave e).goes)))
    simpa using hall

/-- The task of a file does what a visit does. -/
theorem goes_visit (hwork : ∀ f, (work f).Steady) (name : String) (p : Path) (w : Workspace)
    (j : Journal) : ∃ e lines, (visit name work p w j).1.1 = ⟨p, e⟩ ∧
      (visit name work p w j).2.2 = j ++ lines ∧
      Stage.waiting.Goes name p (Routine.ofWork work p) w ⟨.finished e, (visit name work p w j).2.1,
        lines, [.begins, .ends e, .reports ⟨p, e⟩]⟩ := by
  cases hf : w.file? p with
  | none =>
    have hvisit : visit name work p w j = ((⟨p, none⟩, none), w, j) := by
      simp only [visit, hf]
    have hends : (Routine.ofWork work p).resume () w = (.ends none, w, []) := by
      simp only [Routine.ofWork, hf]
    rw [hvisit]
    exact ⟨none, [], rfl, by simp, goes_of_ends hends⟩
  | some f =>
    rcases hrun : work f w [] with ⟨e | a, w', lines⟩
    · have hvisit : visit name work p w j = ((⟨p, some e⟩, none), w',
          j ++ lines ++ [⟨.error, s!"[{name}] {p.toString}: {e.message}"⟩]) := by
        simp only [visit, hf, hwork f w j, hrun]
      have hends : (Routine.ofWork work p).resume () w = (.ends (some e), w', lines) := by
        simp only [Routine.ofWork, hf, hrun]
      rw [hvisit]
      exact ⟨some e, _, rfl, List.append_assoc .., goes_of_ends hends⟩
    · have hvisit : visit name work p w j = ((⟨p, none⟩, some a), w', j ++ lines) := by
        simp only [visit, hf, hwork f w j, hrun]
      have hends : (Routine.ofWork work p).resume () w = (.ends none, w', lines) := by
        simp only [Routine.ofWork, hf, hrun]
      rw [hvisit]
      exact ⟨none, lines, rfl, rfl, by simpa using goes_of_ends hends⟩

/-- Where no task has a place, a task that waits goes all the way, as the library visits its file. -/
theorem exists_play_visit (hwork : ∀ f, (work f).Steady) {f : FanOut Workspace Unit n} {i : Fin n}
    (hf : f.routine i = Routine.ofWork work (f.path i)) (hlimit : 1 ≤ f.limit) {s : State Workspace Unit n}
    (hwaiting : s.stage i = .waiting) (hfree : ∀ k, (s.stage k).holds = false) :
    ∃ schedule t, f.play schedule s = some t ∧
      t.outcomes = s.outcomes ++ [(visit f.name work (f.path i) s.world s.journal).1.1] ∧
      (t.world, t.journal) = (visit f.name work (f.path i) s.world s.journal).2 ∧
      (t.stage i).isFinished = true ∧ (∀ k, (t.stage k).holds = false) ∧
      ∀ k, k ≠ i → t.stage k = s.stage k := by
  obtain ⟨e, lines, houtcome, hlines, hgoes⟩ := goes_visit hwork f.name (f.path i) s.world s.journal
  have hadmits : f.Admits s i := by
    intro _
    have hnone : s.holders = ∅ := Finset.eq_empty_of_forall_notMem fun k hk => by
      rw [State.mem_holders, hfree k] at hk
      cases hk
    rw [hnone, Finset.card_empty]
    exact hlimit
  rw [← hf, ← hwaiting] at hgoes
  obtain ⟨schedule, hplay⟩ := exists_play_of_goes hadmits hgoes
  refine ⟨schedule, _, hplay, ?_, ?_, ?_, fun k => ?_, fun k hk => s.after_stage_of_ne hk _⟩
  · rw [State.outcomes_after, houtcome]
    rfl
  · simp only [State.after, ← hlines]
  · rw [State.after_stage_self]
    rfl
  · by_cases hk : k = i
    · rw [hk, State.after_stage_self]
      rfl
    · rw [s.after_stage_of_ne hk]
      exact hfree k

/-- A run in which no task has a place goes on, task by task, as the library visits their files. -/
theorem exists_play_visitAll (hwork : ∀ f, (work f).Steady) {f : FanOut Workspace Unit n}
    (hf : ∀ i, f.routine i = Routine.ofWork work (f.path i)) (hlimit : 1 ≤ f.limit) {is : List (Fin n)}
    (his : is.Nodup) {s : State Workspace Unit n} (hwaiting : ∀ i ∈ is, s.stage i = .waiting)
    (hfree : ∀ i, (s.stage i).holds = false) :
    ∃ schedule t, f.play schedule s = some t ∧
      t.outcomes = s.outcomes ++ (visitAll f.name work (is.map f.path) s.world s.journal).1.map (·.1) ∧
      (t.world, t.journal) = (visitAll f.name work (is.map f.path) s.world s.journal).2 ∧
      (∀ i ∈ is, (t.stage i).isFinished = true) ∧ ∀ i ∉ is, t.stage i = s.stage i := by
  induction is generalizing s with
  | nil => exact ⟨[], s, rfl, by simp [visitAll], rfl, by simp, fun _ _ => rfl⟩
  | cons i rest ih =>
    obtain ⟨hi, hrest⟩ := List.nodup_cons.mp his
    obtain ⟨hiwaiting, hwaiting⟩ := List.forall_mem_cons.mp hwaiting
    obtain ⟨first, s₁, hfirst, houtcome, hleft, hself, hfree₁, hothers⟩ :=
      exists_play_visit hwork (hf i) hlimit hiwaiting hfree
    have hne : ∀ k ∈ rest, k ≠ i := fun k hk h => hi (h ▸ hk)
    obtain ⟨more, t, hmore, houtcomes, hworld, hdone, hsame⟩ := ih hrest
      (fun k hk => (hothers k (hne k hk)).trans (hwaiting k hk)) hfree₁
    have hcons : visitAll f.name work ((i :: rest).map f.path) s.world s.journal =
        ((visit f.name work (f.path i) s.world s.journal).1 ::
          (visitAll f.name work (rest.map f.path) s₁.world s₁.journal).1,
          (visitAll f.name work (rest.map f.path) s₁.world s₁.journal).2) := by
      rw [List.map_cons, visitAll]
      simp only [← hleft]
    refine ⟨first ++ more, t, ?_, ?_, ?_, ?_, fun k hk => ?_⟩
    · rw [play_append, hfirst]
      exact hmore
    · rw [hcons, houtcomes, houtcome, List.map_cons, List.append_assoc]
      rfl
    · rw [hcons, hworld]
    · refine List.forall_mem_cons.mpr ⟨?_, hdone⟩
      rw [hsame i hi]
      exact hself
    · obtain ⟨hki, hk⟩ := not_or.mp (mt List.mem_cons.mpr hk)
      rw [hsame k hk, hothers k hki]

/-- A pass of the library is a run of its tasks, whatever the limit. -/
theorem pass_follows_schedule_of_steady (hwork : ∀ f, (work f).Steady) (name : String) {limit : Nat}
    (hlimit : 1 ≤ limit) (w : Workspace) (j : Journal) :
    ∃ schedule, (ofJob name limit w.paths (Routine.ofWork work)).run schedule w j =
      some ((pass name work w j).1.1, (pass name work w j).2) := by
  obtain ⟨schedule, t, hplay, houtcomes, hworld, hdone, -⟩ := exists_play_visitAll hwork
    (f := ofJob name limit w.paths (Routine.ofWork work)) (fun _ => rfl) hlimit
    (List.nodup_finRange _) (s := .start w j) (fun _ _ => rfl) (fun _ => rfl)
  have hpaths : (List.finRange w.paths.length).map (ofJob name limit w.paths (Routine.ofWork work)).path =
      w.files.map (·.path) := List.map_get_finRange _
  rw [hpaths] at houtcomes hworld
  refine ⟨schedule, run_eq_some.mpr ⟨t, hplay, ?_, ?_, ?_, ?_⟩⟩
  · exact State.done_iff.mpr fun i => hdone i (List.mem_finRange i)
  · simp only [report, houtcomes]
    rfl
  · exact (congrArg Prod.fst hworld).symm
  · have hjournal : t.journal = _ := congrArg Prod.snd hworld
    rw [hjournal]
    rfl

/-- Both passes of a naming run are runs under its limit. -/
theorem nameDefaults_follows_schedules_of_steady {limit : Nat} (hlimit : 1 ≤ limit) (w : Workspace)
    (j : Journal) :
    ∃ records exports imports w₁ j₁ w₂ j₂,
      nameDefaults limit w j = (.ok ⟨records, exports, imports⟩, w₂, j₂) ∧
      (∃ schedule, (ofJob "rename-default-exports" limit w.paths (.ofWork Workspace.nameDefaultExport)).run
        schedule w j = some (exports, w₁, j₁)) ∧
      ∃ schedule, (ofJob "repair-default-imports" limit w₁.paths
        (.ofWork (Workspace.nameDefaultImports records))).run schedule w₁ j₁ = some (imports, w₂, j₂) := by
  have hpos : ¬ (limit : Int) ≤ 0 := by omega
  unfold nameDefaults
  rw [if_neg hpos]
  exact ⟨_, _, _, _, _, _, _, rfl,
    pass_follows_schedule_of_steady Workspace.nameDefaultExport_steady _ hlimit w j,
    pass_follows_schedule_of_steady (Workspace.nameDefaultImports_steady _) _ hlimit _ _⟩

/-- The pass of a rooting run is a run under its limit. -/
theorem rootAllSpecifiers_follows_schedule_of_steady {limit : Nat} (hlimit : 1 ≤ limit) (marker : String)
    (w : Workspace) (j : Journal) :
    ∃ report w' j', rootAllSpecifiers marker limit w j = (.ok report, w', j') ∧
      ∃ schedule, (ofJob "relative-to-absolute" limit w.paths
        (.ofWork (Workspace.rootSpecifiers marker))).run schedule w j = some (report, w', j') := by
  have hpos : ¬ (limit : Int) ≤ 0 := by omega
  unfold rootAllSpecifiers
  rw [if_neg hpos]
  exact ⟨_, _, _, rfl,
    pass_follows_schedule_of_steady (Workspace.rootSpecifiers_steady marker) _ hlimit w j⟩

/-! ### What a run does and reports -/

/-- What a run that is over has done, `fault i` being how the work of the task `i` ended: the work of each
task has begun once and ended once, and the report has one outcome for each task. -/
structure Accounted (f : FanOut σ τ n) (s : State σ τ n) (fault : Fin n → Option Fault) : Prop where
  ended : ∀ i, (f.routine i).CanEnd (fault i)
  once : ∀ i, s.eventsOf i = [.begins, .ends (fault i), .reports ⟨f.path i, fault i⟩]
  outcomes : (f.report s).outcomes.Perm ((List.finRange n).map fun i => ⟨f.path i, fault i⟩)
  ok : (f.report s).ok = true ↔ ∀ i, fault i = none

section

variable {f : FanOut σ τ n} {s : State σ τ n}

theorem Sound.exists_accounted (hs : f.Sound s) (hdone : s.done = true) : ∃ fault, f.Accounted s fault := by
  choose fault hended hevents using hs.exists_fault hdone
  have hperm := State.outcomes_perm hevents
  refine ⟨fault, hended, hevents, hperm, ?_⟩
  rw [Report.ok_iff]
  simp only [report, hperm.mem_iff, List.forall_mem_map, List.mem_finRange, true_imp_iff]

/-- A run comes to its end from wherever it is. -/
theorem exists_done (hlimit : 1 ≤ f.limit) (hacc : Acc f.Later s) :
    ∃ schedule t, f.play schedule s = some t ∧ t.done = true := by
  induction hacc with
  | intro s _ ih =>
    cases hdone : s.done with
    | true => exact ⟨[], s, rfl, hdone⟩
    | false =>
      obtain ⟨i, t, ht⟩ := exists_advance hlimit hdone
      obtain ⟨schedule, u, hplay, hu⟩ := ih t ⟨i, ht⟩
      refine ⟨i :: schedule, u, ?_, hu⟩
      rw [play_cons, ht]
      exact hplay

/-- A run that was begun can be brought to its report, if the work of each task comes to an end. -/
theorem exists_run (hlimit : 1 ≤ f.limit) (hf : ∀ i, (f.routine i).Terminates) {w : σ} {j : Journal}
    {schedule : List (Fin n)} (h : f.play schedule (.start w j) = some s) :
    ∃ more r, f.run (schedule ++ more) w j = some r := by
  have hacc : Acc f.Later s :=
    play_keeps (fun _ i _ hs ht => hs.inv ⟨i, ht⟩) (acc_start hf w j) h
  obtain ⟨more, t, hplay, hdone⟩ := exists_done hlimit hacc
  have hall : f.play (schedule ++ more) (.start w j) = some t := by
    rw [play_append, h]
    exact hplay
  exact ⟨more, _, run_eq_some.mpr ⟨t, hall, hdone, rfl, rfl, rfl⟩⟩

end

/-- For every list of files, every job and every interleaving of the tasks, if the limit is at least one:
no more tasks than the limit are under way at any time, and a run that is not done can go on. A run that is
done has worked once on every file and gives a report with one outcome for each, which has the fault of the
work on that file, or none if that work ended well. If the work comes to an end on every file, every run
does and can be brought to its report. Whatever tasks fail, the others go the same way in runs in which
these do not. The passes of the library are runs of this kind. -/
theorem every_file_once (name : String) {limit : Nat} (hlimit : 1 ≤ limit) (files : List Path)
    (job : Path → Routine σ τ) (w : σ) (j : Journal) :
    let f := ofJob name limit files job
    (∀ schedule s, f.play schedule (.start w j) = some s →
      (∀ tasks : Finset (Fin files.length), (∀ i ∈ tasks, s.UnderWay i) → tasks.card ≤ limit) ∧
      (s.done = false → ∃ i t, f.advance s i = some t) ∧
      (s.done = true → (∃ fault, f.Accounted s fault) ∧ f.run schedule w j =
        some (f.report s, s.world, s.journal ++ [⟨.info, (f.report s).summary⟩]))) ∧
    ((∀ p ∈ files, (job p).Terminates) → Acc f.Later (.start w j) ∧
      ∀ schedule s, f.play schedule (.start w j) = some s →
        ∃ more r, f.run (schedule ++ more) w j = some r) ∧
    (∀ c, (∀ schedule s, f.play schedule (.start w j) = some s →
        ∃ schedule' s', (f.mended c).play schedule' (.start w j) = some s' ∧ SameForOthers c s s') ∧
      ∀ schedule' s', (f.mended c).play schedule' (.start w j) = some s' →
        ∃ schedule s, f.play schedule (.start w j) = some s ∧ SameForOthers c s' s) ∧
    ∀ {α : Type} (work : SourceFile → Work α), (∀ f, (work f).Steady) → ∀ (w : Workspace) (j : Journal),
      ∃ schedule, (ofJob name limit w.paths (Routine.ofWork work)).run schedule w j =
        some ((pass name work w j).1.1, (pass name work w j).2) := by
  intro f
  refine ⟨fun schedule s h => ?_, fun hjob => ?_, fun c => ⟨fun schedule s h => ?_, fun schedule s h => ?_⟩,
    fun work hwork w j => pass_follows_schedule_of_steady hwork name hlimit w j⟩
  · have hs : f.Sound s := (Sound.start f w j).play h
    exact ⟨fun tasks => hs.card_underWay_le, exists_advance hlimit, fun hdone =>
      ⟨hs.exists_accounted hdone, run_eq_some.mpr ⟨s, h, hdone, rfl, rfl, rfl⟩⟩⟩
  · have hf : ∀ i, (f.routine i).Terminates := fun i => hjob _ (List.get_mem files i)
    exact ⟨acc_start hf w j, fun schedule s h => exists_run hlimit hf h⟩
  · exact (mended_simulates f c).exists_play h
  · exact (simulates_mended f c).exists_play h

end FanOut

/-- Work that pauses once, counts its pauses in the shared state, and ends as given. -/
def pausingRoutine (fault : Option Fault) : Routine Nat Bool where
  start := false
  resume paused w := if paused then (.ends fault, w, []) else (.pauses true, w + 1, [])

theorem pausingRoutine_terminates (fault : Option Fault) : (pausingRoutine fault).Terminates := by
  have hpaused : Acc (pausingRoutine fault).Follows true :=
    ⟨_, fun _ ⟨_, h⟩ => by simp [pausingRoutine] at h⟩
  refine ⟨_, fun x ⟨w, h⟩ => ?_⟩
  cases h
  exact hpaused

/-- Two files, of which the first is listed twice. -/
def sampleFiles : List Path := [⟨.root, ["p", "a.ts"]⟩, ⟨.root, ["p", "b.ts"]⟩, ⟨.root, ["p", "a.ts"]⟩]

/-- Work that fails on the second file. -/
def sampleJob (p : Path) : Routine Nat Bool :=
  pausingRoutine (if p.name = "b.ts" then some (.unnamedDeclaration p) else none)

/-- The tasks on the sample files, two of which may work at a time. -/
def sampleTasks : FanOut Nat Bool sampleFiles.length :=
  FanOut.ofJob "sample" 2 sampleFiles sampleJob

/-- The first two tasks overlap, and the third one is admitted as soon as the second one has reported its
failure and given its place back. -/
def sampleOrder : List (Fin 3) :=
  [0, 1, 0, 1, 1, 0, 1, 1, 1, 2, 0, 2, 0, 0, 2, 2, 2, 2]

theorem sampleTasks_accounted :
    (∃ s fault, sampleTasks.play sampleOrder (.start 0 []) = some s ∧ s.done = true ∧
      sampleTasks.Accounted s fault) ∧
    ∀ schedule s, sampleTasks.play schedule (.start 0 []) = some s →
      ∃ more r, sampleTasks.run (schedule ++ more) 0 [] = some r := by
  obtain ⟨hway, hend, -⟩ := FanOut.every_file_once "sample" (show 1 ≤ 2 by decide) sampleFiles
    sampleJob 0 []
  obtain ⟨s, hplay, hdone⟩ := Option.map_eq_some_iff.mp
    (show (sampleTasks.play sampleOrder (.start 0 [])).map (·.done) = some true by decide +kernel)
  obtain ⟨fault, hfault⟩ := ((hway sampleOrder s hplay).2.2 hdone).1
  exact ⟨⟨s, fault, hplay, hdone, hfault⟩, (hend fun p _ => pausingRoutine_terminates _).2⟩

end Codemod
