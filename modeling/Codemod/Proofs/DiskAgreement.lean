import Codemod.Proofs.RefusedWrite
import Mathlib.Logic.Relation

/-!
# What is on disk and what is in memory

A file that is not marked as changed stands on disk as it is in memory. Every operation on a project keeps
this: edits, saves, the three works on one file and whole runs, in any order, whether they succeed or
fail. The disk may refuse any write, for whatever reason; a refused write leaves it as it was. Nobody else
writes to it.

A task that is at its write has handed over a text, and the invariant has to say of that text that it is
the one in memory. This is what `Consistent` adds for the phases between the change in memory and the
note that the file is saved.

Main statements:

* `Tracked.moves` says that every step of a pass keeps memory and disk together, and `Tracked.run` that
  every row of steps does;
* `Operation.agrees` says that every operation does;
* `Workspace.Separate.callsAreOperations` says that the calls of the library are operations;
* `disk_agrees_with_memory` puts this together for the operations on a loaded project.
-/

namespace Codemod

open Workspace

variable {α : Type}

/-! ### Passes on a disk that may refuse any write -/

namespace PassState

/-- A step of the task of `p`: the one that the pass allows it, or the refusal of its write. -/
inductive Moves (limit : Nat) (job : Job α) (p : Path) (s : PassState α) : PassState α → Prop
  | own {s' : PassState α} (h : s.advance limit job p = some s') : Moves limit job p s s'
  | refused {text : Bytes} {a : α} (h : s.phase p = .saving text a) (io : IoFault) :
      Moves limit job p s (s.enter p (.ended (.error (.io io))))

/-- The steps of any tasks in a row. -/
def Run (limit : Nat) (job : Job α) : PassState α → PassState α → Prop :=
  Relation.ReflTransGen fun s s' => ∃ p, Moves limit job p s s'

/-- A pass over all files that began in `w`. -/
structure Pass (limit : Nat) (job : Job α) (w : Workspace) (s : PassState α) : Prop where
  run : Run limit job (start w) s
  done : s.done = true

/-- The work on the file at `p` alone. -/
structure Alone (job : Job α) (p : Path) (w : Workspace) (s : PassState α) : Prop where
  run : Run 1 job (start w) s
  phase : ∀ q, s.phase q = if q = p then .reported else .waiting

/-- The paths whose texts went to disk. -/
def saved (s : PassState α) : List Path :=
  s.written.map (·.1)

end PassState

/-! ### The task of one file -/

/-- A job that always commits what it has planned. -/
def Job.Commits (job : Job α) : Prop :=
  ∀ c known f a, job c known f ≠ .ok (a, none)

/-- In the given phase of its task a file is in memory as `f` is, and `x` stands at its path. -/
structure Consistent (job : Job α) (ph : Phase α) (f : SourceFile) (x : Option Entry) : Prop where
  clean : f.dirty = false → x = some (.file f.text)
  saving : ∀ text a, ph = .saving text a → text = f.text
  saved : ∀ a, ph = .saved a → x = some (.file f.text)
  settled : job.Commits → ∀ a, ph = .ended (.ok a) → x = some (.file f.text)

/-- Whether nothing is known of the disk in a phase but what the mark of change tells. -/
def Phase.isPlain : Phase α → Bool
  | .saving _ _ | .saved _ | .ended (.ok _) => false
  | .waiting | .admitted | .ended (.error _) | .reported => true

namespace Consistent

variable {job : Job α} {ph ph' : Phase α} {f g : SourceFile} {x : Option Entry}

theorem of_clean (hclean : f.dirty = false → x = some (.file f.text)) (hph : ph.isPlain = true) :
    Consistent job ph f x where
  clean := hclean
  saving _ _ h := by
    rw [h] at hph
    cases hph
  saved _ h := by
    rw [h] at hph
    cases hph
  settled _ _ h := by
    rw [h] at hph
    cases hph

/-- Where the text in memory is on disk everything is in order, whatever the phase is. -/
theorem of_written (hx : x = some (.file f.text)) (hsaving : ∀ text a, ph ≠ .saving text a) :
    Consistent job ph f x where
  clean _ := hx
  saving text a h := absurd h (hsaving text a)
  saved _ _ := hx
  settled _ _ _ := hx

/-- A task has planned: it fails, has nothing to commit, or has changed its file in memory. -/
theorem failed (h : Consistent job ph f x) (e : Fault) : Consistent job (.ended (.error e)) f x :=
  of_clean h.clean rfl

theorem idle (h : Consistent job ph f x) {a : α} (hjob : ¬ job.Commits) :
    Consistent job (.ended (.ok a)) f x where
  clean := h.clean
  saving _ _ h := by cases h
  saved _ h := by cases h
  settled hcommits := absurd hcommits hjob

theorem edited (h : Consistent job ph f x) {edits : List Edit} (hg : f.edited edits = .ok g) (a : α) :
    Consistent job (if g.dirty then .saving g.text a else .ended (.ok a)) g x := by
  cases hd : g.dirty with
  | true =>
    refine ⟨fun hclean => ?_, fun text b hph => ?_, fun b hph => ?_, fun _ b hph => ?_⟩
    · cases hd.symm.trans hclean
    · cases hph
      rfl
    · cases hph
    · cases hph
  | false =>
    -- Edits mark the file, so that an unmarked one is the file as it was.
    have hsame : g = f := by
      rcases (SourceFile.edited_eq_ok hg).2 with hgf | hgf
      · exact hgf
      · rw [hgf] at hd
        cases hd
    subst hsame
    exact of_written (h.clean hd) fun _ _ hph => by cases hph

end Consistent

/-! ### A pass under way -/

/-- What a pass that began in `w` keeps: the files are those of `w`, each of them is consistent with its
place on disk, no task of another path has moved, and what was not written is as it was. -/
structure Tracked (job : Job α) (w : Workspace) (s : PassState α) : Prop where
  paths : s.workspace.paths = w.paths
  standing : ∀ p ∈ w.paths, ∃ f, s.workspace.file? p = some f ∧
    Consistent job (s.phase p) f (s.workspace.disk.lookup? p)
  idle : ∀ p, p ∉ w.paths → s.phase p = .waiting
  reported : job.Commits → ∀ p ∈ w.paths, s.phase p = .reported →
    (∃ e, (⟨p, some e⟩, none) ∈ s.visits) ∨
      ∃ f, s.workspace.file? p = some f ∧ s.workspace.disk.lookup? p = some (.file f.text)
  unwritten : ∀ q, q ∉ s.saved → s.workspace.disk.lookup? q = w.disk.lookup? q

/-- Every file that is not marked as changed stands on disk as it is in memory. -/
def Workspace.Agrees (w : Workspace) : Prop :=
  ∀ f ∈ w.files, f.dirty = false → w.disk.lookup? f.path = some (.file f.text)

namespace Tracked

variable {job : Job α} {w : Workspace} {s s' : PassState α} {p : Path} {limit : Nat}

theorem start (hw : w.paths.Nodup) (h : w.Agrees) : Tracked job w (PassState.start w) where
  paths := rfl
  standing p hp := by
    obtain ⟨f, hf, rfl⟩ := List.mem_map.mp hp
    exact ⟨f, file?_of_mem hw hf, .of_clean (h f hf) rfl⟩
  idle _ _ := rfl
  reported _ _ _ h := by cases h
  unwritten _ _ := rfl

/-- A step of the task of `p` that leaves everything else as it is keeps a pass tracked. -/
theorem of_local (hs : Tracked job w s) (hp : p ∈ w.paths) {ph : Phase α}
    (hphase : ∀ q, s'.phase q = if q = p then ph else s.phase q)
    (hpaths : s'.workspace.paths = s.workspace.paths)
    (hfile : ∀ q, q ≠ p → s'.workspace.file? q = s.workspace.file? q)
    (hdisk : ∀ q, q ≠ p → s'.workspace.disk.lookup? q = s.workspace.disk.lookup? q)
    (hhere : ∃ f, s'.workspace.file? p = some f ∧
      Consistent job ph f (s'.workspace.disk.lookup? p))
    (hvisits : ∀ v ∈ s.visits, v ∈ s'.visits)
    (hreported : job.Commits → ph = .reported → (∃ e, (⟨p, some e⟩, none) ∈ s'.visits) ∨
      ∃ f, s'.workspace.file? p = some f ∧ s'.workspace.disk.lookup? p = some (.file f.text))
    (hsaved : ∀ q, q ∉ s'.saved → q ∉ s.saved ∧
      s'.workspace.disk.lookup? q = s.workspace.disk.lookup? q) : Tracked job w s' where
  paths := hpaths.trans hs.paths
  standing q hq := by
    by_cases h : q = p
    · rw [hphase, if_pos h, h]
      exact hhere
    · rw [hphase, if_neg h, hfile q h, hdisk q h]
      exact hs.standing q hq
  idle q hq := by
    have hne : q ≠ p := fun h => hq (h ▸ hp)
    rw [hphase, if_neg hne, hs.idle q hq]
  reported hcommits q hq hph := by
    rw [hphase] at hph
    by_cases h : q = p
    · rw [if_pos h] at hph
      subst h
      exact hreported hcommits hph
    · rw [if_neg h] at hph
      rw [hfile q h, hdisk q h]
      exact (hs.reported hcommits q hq hph).imp_left fun ⟨e, he⟩ => ⟨e, hvisits _ he⟩
  unwritten q hq := by
    obtain ⟨hold, hsame⟩ := hsaved q hq
    rw [hsame, hs.unwritten q hold]

/-- A step that only takes the task of `p` on to another phase. -/
theorem enter (hs : Tracked job w s) (hp : p ∈ w.paths) {ph : Phase α} (hnew : ph.isReported = false)
    (h : ∀ f, Consistent job (s.phase p) f (s.workspace.disk.lookup? p) →
      Consistent job ph f (s.workspace.disk.lookup? p)) : Tracked job w (s.enter p ph) := by
  obtain ⟨f, hf, hc⟩ := hs.standing p hp
  refine hs.of_local hp (fun _ => rfl) rfl (fun _ _ => rfl) (fun _ _ => rfl) ⟨f, hf, h f hc⟩
    (fun _ hv => hv) (fun _ hph => ?_) fun _ hq => ⟨hq, rfl⟩
  rw [hph] at hnew
  cases hnew

/-- A task plans, and changes its file in memory. -/
theorem rewrite (hs : Tracked job w s) (hp : p ∈ w.paths) {f : SourceFile}
    (hf : s.workspace.file? p = some f) : Tracked job w (s.rewrite job p f) := by
  cases hjob : job s.workspace.config s.workspace.knows f with
  | error e =>
    rw [PassState.rewrite_of_error hjob]
    exact hs.enter hp rfl fun _ hc => hc.failed e
  | ok r =>
    obtain ⟨a, edits | edits⟩ := r
    · rw [PassState.rewrite_of_none hjob]
      exact hs.enter hp rfl fun _ hc => hc.idle fun h => h _ _ _ _ hjob
    · cases hg : f.edited edits with
      | error e =>
        rw [PassState.rewrite_of_unapplied hjob hg]
        exact hs.enter hp rfl fun _ hc => hc.failed e
      | ok g =>
        rw [PassState.rewrite_of_edited hjob hg]
        obtain ⟨f', hf', hc⟩ := hs.standing p hp
        obtain rfl : f' = f := Option.some.inj (hf'.symm.trans hf)
        have hpath : g.path = p := (SourceFile.edited_path hg).trans (path_of_file? hf)
        have hset : ∀ q, (s.workspace.setFile g).file? q =
            if q = p then some g else s.workspace.file? q := by
          intro q
          rw [file?_setFile ⟨f', hpath ▸ hf⟩, hpath]
        refine hs.of_local hp (fun _ => rfl) paths_setFile (fun q hq => (hset q).trans (if_neg hq))
          (fun _ _ => rfl) ⟨g, (hset p).trans (if_pos rfl), hc.edited hg a⟩ (fun _ hv => hv)
          (fun _ hph => ?_) fun _ hq => ⟨hq, rfl⟩
        split at hph
        · cases hph
        · cases hph

/-- The text of a task goes to disk, or is refused. -/
theorem write (hw : w.Separate) (hs : Tracked job w s) (hp : p ∈ w.paths) {text : Bytes} {a : α}
    (hph : s.phase p = .saving text a) : Tracked job w (s.write p text a) := by
  cases hwrite : s.workspace.disk.write p text with
  | error io =>
    rw [PassState.write_of_error hwrite]
    exact hs.enter hp rfl fun _ hc => hc.failed _
  | ok d =>
    rw [PassState.write_of_ok hwrite, FileSystem.write_eq_put hwrite]
    have hlook : ∀ q, (s.workspace.disk.put p (.file text)).lookup? q =
        if q = p then some (.file text) else s.workspace.disk.lookup? q :=
      fun q => FileSystem.lookup?_put _ q _ (hw.placed p hp)
    obtain ⟨f, hf, hc⟩ := hs.standing p hp
    have htext := hc.saving text a hph
    refine hs.of_local hp (fun _ => rfl) rfl (fun _ _ => rfl) (fun q hq => (hlook q).trans (if_neg hq))
      ⟨f, hf, .of_written ?_ fun _ _ h => by cases h⟩ (fun _ hv => hv) (fun _ h => by cases h)
      fun q hq => ?_
    · rw [← htext]
      exact (hlook p).trans (if_pos rfl)
    · have hmem : q ∉ s.saved ++ [p] := by simpa [PassState.saved] using hq
      rw [List.mem_append, List.mem_singleton, not_or] at hmem
      exact ⟨hmem.1, (hlook q).trans (if_neg hmem.2)⟩

/-- A task takes note that its file is saved. -/
theorem resume (hs : Tracked job w s) (hp : p ∈ w.paths) {a : α} (hph : s.phase p = .saved a)
    {f : SourceFile} (hf : s.workspace.file? p = some f) : Tracked job w (s.resume p f a) := by
  obtain ⟨f', hf', hc⟩ := hs.standing p hp
  obtain rfl : f' = f := Option.some.inj (hf'.symm.trans hf)
  have hpath : f'.path = p := path_of_file? hf
  have hset : ∀ q, (s.workspace.setFile { f' with dirty := false }).file? q =
      if q = p then some { f' with dirty := false } else s.workspace.file? q := by
    intro q
    rw [file?_setFile ⟨f', hpath ▸ hf⟩, hpath]
  exact hs.of_local hp (fun _ => rfl) paths_setFile (fun q hq => (hset q).trans (if_neg hq))
    (fun _ _ => rfl)
    ⟨_, (hset p).trans (if_pos rfl), .of_written (hc.saved a hph) fun _ _ h => by cases h⟩
    (fun _ hv => hv) (fun _ h => by cases h) fun _ hq => ⟨hq, rfl⟩

/-- A task reports. -/
theorem report (hs : Tracked job w s) (hp : p ∈ w.paths) {r : Except Fault α}
    (hph : s.phase p = .ended r) : Tracked job w (s.report p r) := by
  obtain ⟨f, hf, hc⟩ := hs.standing p hp
  refine hs.of_local hp (fun _ => rfl) rfl (fun _ _ => rfl) (fun _ _ => rfl)
    ⟨f, hf, .of_clean hc.clean rfl⟩ (fun _ hv => List.mem_append_left _ hv) (fun hcommits _ => ?_)
    fun _ hq => ⟨hq, rfl⟩
  cases r with
  | error e => exact .inl ⟨e, List.mem_append_right _ (List.mem_singleton.mpr rfl)⟩
  | ok a => exact .inr ⟨f, hf, hc.settled hcommits a hph⟩

/-- Every step keeps a pass tracked. -/
theorem moves (hw : w.Separate) (hs : Tracked job w s) (h : PassState.Moves limit job p s s') :
    Tracked job w s' := by
  -- Only the task of a file of the project can move.
  have hmem : s.phase p ≠ .waiting → p ∈ w.paths := fun hne => by
    by_contra hp
    exact hne (hs.idle p hp)
  cases h with
  | refused hph io =>
    have hp : p ∈ w.paths := hmem fun h => by cases hph.symm.trans h
    exact hs.enter hp rfl fun _ hc => hc.failed _
  | own h =>
    unfold PassState.advance at h
    split at h
    case h_1 hph =>
      obtain ⟨⟨hp, -⟩, hnext⟩ := Option.ite_none_right_eq_some.mp h
      cases hnext
      exact hs.enter (hs.paths ▸ hp) rfl fun _ hc => .of_clean hc.clean rfl
    case h_2 hph =>
      obtain ⟨f, hf, rfl⟩ := Option.map_eq_some_iff.mp h
      exact hs.rewrite (hmem fun h => by cases hph.symm.trans h) hf
    case h_3 hph =>
      cases h
      exact hs.write hw (hmem fun h => by cases hph.symm.trans h) hph
    case h_4 hph =>
      obtain ⟨f, hf, rfl⟩ := Option.map_eq_some_iff.mp h
      exact hs.resume (hmem fun h => by cases hph.symm.trans h) hph hf
    case h_5 hph =>
      cases h
      exact hs.report (hmem fun h => by cases hph.symm.trans h) hph
    case h_6 => cases h

/-- Every row of steps keeps a pass tracked. -/
theorem run (hw : w.Separate) (hs : Tracked job w s) (h : PassState.Run limit job s s') :
    Tracked job w s' := by
  induction h with
  | refl => exact hs
  | tail _ hstep ih =>
    obtain ⟨p, hmove⟩ := hstep
    exact ih.moves hw hmove

/-- Wherever a pass is, the unmarked files stand on disk as they are in memory. -/
theorem agrees (hw : w.Separate) (hs : Tracked job w s) : s.workspace.Agrees := by
  intro f hf hclean
  have hnodup : s.workspace.paths.Nodup := hs.paths ▸ hw.nodup
  obtain ⟨f', hf', hc⟩ := hs.standing f.path (hs.paths ▸ List.mem_map.mpr ⟨f, hf, rfl⟩)
  obtain rfl : f' = f := Option.some.inj (hf'.symm.trans (file?_of_mem hnodup hf))
  exact hc.clean hclean

/-- When a pass whose job commits is done without a failure, all files stand on disk as they are in
memory. -/
theorem agrees_of_ok (hs : Tracked job w s) (hw : w.Separate) (hjob : job.Commits)
    (hdone : s.done = true) (hok : ∀ v ∈ s.visits, v.1.fault = none) :
    ∀ f ∈ s.workspace.files, s.workspace.disk.lookup? f.path = some (.file f.text) := by
  intro f hf
  have hmem : f.path ∈ s.workspace.paths := List.mem_map.mpr ⟨f, hf, rfl⟩
  have hreported : s.phase f.path = .reported := by
    have := List.all_eq_true.mp hdone f.path hmem
    cases hph : s.phase f.path with
    | reported => rfl
    | waiting | admitted | saving | saved | ended =>
      rw [hph] at this
      cases this
  rcases hs.reported hjob f.path (hs.paths ▸ hmem) hreported with ⟨e, he⟩ | ⟨f', hf', hx⟩
  · cases hok _ he
  · have hnodup : s.workspace.paths.Nodup := hs.paths ▸ hw.nodup
    obtain rfl : f' = f := Option.some.inj (hf'.symm.trans (file?_of_mem hnodup hf))
    exact hx

end Tracked

/-! ### Operations on a project -/

/-- Saves a file that is marked as changed. -/
def saveJob : Job Bool := fun _ _ f => .ok (f.dirty, some [])

/-- A save ends as its job says. -/
theorem saveJob_ends : saveJob.Describes save := by
  intro w f j hw hf
  have hjob : saveJob w.config w.knows f = .ok (f.dirty, some []) := rfl
  rw [Job.ending_of_some hjob]
  cases hd : f.dirty with
  | false =>
    rw [Ending.ofCommit_of_clean (SourceFile.edited_nil f) hd, save_of_clean hd, settle_map,
      settle_self hw hf]
    exact ⟨j, rfl⟩
  | true =>
    obtain ⟨j', hsave⟩ := save_of_dirty hd w j
    refine ⟨j', hsave.trans ?_⟩
    cases hwrite : w.disk.write f.path f.text with
    | error e =>
      rw [Ending.ofCommit_of_refused (SourceFile.edited_nil f) hd hwrite, settle_map,
        settle_self hw hf]
      rfl
    | ok d =>
      rw [Ending.ofCommit_of_written (SourceFile.edited_nil f) hd hwrite,
        FileSystem.write_eq_put hwrite]
      rfl

/-- A naming run on a disk that may refuse any write. -/
structure NamingRun.From (limit : Nat) (w : Workspace) (r : NamingRun) : Prop where
  exports : PassState.Pass limit exportJob w r.exports
  imports : PassState.Pass limit (importJob r.records) r.exports.workspace r.imports

/-- One operation, from the workspace before it to that after it, with the paths whose texts went to
disk. -/
inductive Operation : Workspace → List Path → Workspace → Prop
  | edit {w w' : Workspace} {f : SourceFile} {edits : List Edit} {r : Except Fault SourceFile}
      {j j' : Journal} (hf : w.file? f.path = some f)
      (h : Workspace.edit f edits w j = (r, w', j')) : Operation w [] w'
  | save {w : Workspace} {p : Path} {s : PassState Bool} (h : PassState.Alone saveJob p w s) :
      Operation w s.saved s.workspace
  | exports {w : Workspace} {p : Path} {s : PassState (Option String)}
      (h : PassState.Alone exportJob p w s) : Operation w s.saved s.workspace
  | imports {w : Workspace} {p : Path} {names : Keyed Path String} {s : PassState Nat}
      (h : PassState.Alone (importJob names) p w s) : Operation w s.saved s.workspace
  | roots {w : Workspace} {p : Path} {marker : String} {s : PassState Nat}
      (h : PassState.Alone (rootJob marker) p w s) : Operation w s.saved s.workspace
  | naming {w : Workspace} {limit : Nat} {r : NamingRun} (h : NamingRun.From limit w r) :
      Operation w (r.exports.saved ++ r.imports.saved) r.workspace
  | rooting {w : Workspace} {limit : Nat} {marker : String} {s : PassState Nat}
      (h : PassState.Pass limit (rootJob marker) w s) : Operation w s.saved s.workspace

/-- Operations one after the other. -/
inductive Operations : Workspace → List Path → Workspace → Prop
  | nil (w : Workspace) : Operations w [] w
  | cons {w w₁ w' : Workspace} {saved rest : List Path} (head : Operation w saved w₁)
      (tail : Operations w₁ rest w') : Operations w (saved ++ rest) w'

/-- What operations keep: the files of the project, the agreement of disk and memory, and what stands
at the places that were not written. -/
structure Workspace.Kept (w : Workspace) (saved : List Path) (w' : Workspace) : Prop where
  paths : w'.paths = w.paths
  agrees : w'.Agrees
  unwritten : ∀ q, q ∉ saved → w'.disk.lookup? q = w.disk.lookup? q

theorem Workspace.Kept.trans {w w₁ w' : Workspace} {saved rest : List Path} (h : w.Kept saved w₁)
    (h' : w₁.Kept rest w') : w.Kept (saved ++ rest) w' where
  paths := h'.paths.trans h.paths
  agrees := h'.agrees
  unwritten q hq := by
    rw [List.mem_append, not_or] at hq
    rw [h'.unwritten q hq.2, h.unwritten q hq.1]

theorem edit_kept {w w' : Workspace} (ha : w.Agrees) {f : SourceFile} {edits : List Edit}
    {r : Except Fault SourceFile} {j j' : Journal} (hf : w.file? f.path = some f)
    (h : edit f edits w j = (r, w', j')) : w.Kept [] w' := by
  cases hg : f.edited edits with
  | error e =>
    have hrun : edit f edits w j = (.error e, w, j) := by
      unfold edit
      rw [hg]
      rfl
    cases h.symm.trans hrun
    exact ⟨rfl, ha, fun _ _ => rfl⟩
  | ok g =>
    have hrun : edit f edits w j = (.ok g, w.setFile g, j) := by
      unfold edit
      rw [hg]
      rfl
    cases h.symm.trans hrun
    refine ⟨paths_setFile, fun x hx hclean => ?_, fun _ _ => rfl⟩
    obtain ⟨y, hy, rfl⟩ := List.mem_map.mp hx
    split at hclean
    case isFalse hne =>
      rw [if_neg hne]
      exact ha y hy hclean
    case isTrue heq =>
      rw [if_pos heq]
      -- Edits mark the file, so that an unmarked one is the file as it was.
      rcases (SourceFile.edited_eq_ok hg).2 with rfl | hgf
      · exact ha g (mem_of_file? hf) hclean
      · rw [hgf] at hclean
        cases hclean

section

variable {w w' : Workspace} {saved : List Path} (hw : w.Separate) (ha : w.Agrees)

include hw ha

theorem PassState.Run.tracked {limit : Nat} {job : Job α} {s : PassState α}
    (h : PassState.Run limit job (PassState.start w) s) : Tracked job w s :=
  (Tracked.start hw.nodup ha).run hw h

theorem PassState.Run.kept {limit : Nat} {job : Job α} {s : PassState α}
    (h : PassState.Run limit job (PassState.start w) s) : w.Kept s.saved s.workspace :=
  have hs := h.tracked hw ha
  ⟨hs.paths, hs.agrees hw, hs.unwritten⟩

/-- Every operation keeps disk and memory in agreement. -/
theorem Operation.agrees (h : Operation w saved w') : w.Kept saved w' := by
  cases h with
  | edit hf h => exact edit_kept ha hf h
  | save h | exports h | imports h | roots h => exact h.run.kept hw ha
  | rooting h => exact h.run.kept hw ha
  | naming h =>
    have hfirst := h.exports.run.kept hw ha
    exact hfirst.trans (h.imports.run.kept (hw.congr hfirst.paths) hfirst.agrees)

/-- Every row of operations keeps disk and memory in agreement. -/
theorem Operations.agrees (h : Operations w saved w') : w.Kept saved w' := by
  induction h with
  | nil w => exact ⟨rfl, ha, fun _ _ => rfl⟩
  | cons head _ ih =>
    have hhead := head.agrees hw ha
    exact hhead.trans (ih (hw.congr hhead.paths) hhead.agrees)

/-- When a naming run reports no failure, all files stand on disk as they are in memory. -/
theorem NamingRun.From.all_on_disk {limit : Nat} {r : NamingRun} (h : NamingRun.From limit w r)
    (hok : r.result.ok = true) :
    ∀ f ∈ r.workspace.files, r.workspace.disk.lookup? f.path = some (.file f.text) := by
  have hfirst := h.exports.run.kept hw ha
  have hmiddle := hw.congr hfirst.paths
  have hsecond := h.imports.run.tracked hmiddle hfirst.agrees
  -- The files that the first pass left alone are saved by the second one.
  refine hsecond.agrees_of_ok hmiddle (importJob_commits r.records) h.imports.done ?_
  exact Report.fault_eq_none_of_visits (Bool.and_eq_true_iff.mp hok).2

/-- When a rooting run reports no failure, all files stand on disk as they are in memory. -/
theorem PassState.Pass.all_on_disk {limit : Nat} {marker name : String} {s : PassState Nat}
    (h : PassState.Pass limit (rootJob marker) w s)
    (hok : (Report.mk name (s.visits.map (·.1))).ok = true) :
    ∀ f ∈ s.workspace.files, s.workspace.disk.lookup? f.path = some (.file f.text) :=
  (h.run.tracked hw ha).agrees_of_ok hw (rootJob_commits marker) h.done
    (Report.fault_eq_none_of_visits hok)

end

/-! ### The calls of the library -/

theorem PassState.Run.of_play {limit : Nat} {job : Job α} {σ : List Path} {s s' : PassState α}
    (h : PassState.play limit job σ s = some s') : PassState.Run limit job s s' := by
  induction σ generalizing s with
  | nil =>
    cases h
    exact .refl
  | cons p rest ih =>
    obtain ⟨s₁, hstep, hrest⟩ := Option.bind_eq_some_iff.mp h
    exact (ih hrest).head ⟨p, .own hstep⟩

/-- A task that is not on a schedule does not move. -/
theorem PassState.play_phase_of_notMem {limit : Nat} {job : Job α} {σ : List Path}
    {s s' : PassState α} {p : Path} (h : PassState.play limit job σ s = some s') (hp : p ∉ σ) :
    s'.phase p = s.phase p := by
  induction σ generalizing s with
  | nil =>
    cases h
    rfl
  | cons q rest ih =>
    rw [List.mem_cons, not_or] at hp
    obtain ⟨s₁, hstep, hrest⟩ := Option.bind_eq_some_iff.mp h
    obtain ⟨ph, -, hphase⟩ := PassState.advance_phase hstep
    rw [ih hrest hp.2, hphase, if_neg hp.1]

theorem PassState.Pass.of_passBy {limit : Nat} {job : Job α} {σ : List Path} {w : Workspace}
    {s : PassState α} (h : passBy limit job σ w = some s) : PassState.Pass limit job w s := by
  obtain ⟨hplay, hdone⟩ := passBy_eq_some.mp h
  exact ⟨.of_play hplay, hdone⟩

/-- A naming run that follows schedules is one on a disk that refuses what it has to refuse. -/
theorem NamingRun.From.of_schedules {limit : Nat} {σ₁ σ₂ : List Path} {w : Workspace} {r : NamingRun}
    (h : nameDefaultsBy limit σ₁ σ₂ w = some r) : NamingRun.From limit w r := by
  obtain ⟨hexports, himports⟩ := nameDefaultsBy_eq_some.mp h
  exact ⟨.of_passBy hexports, .of_passBy himports⟩

/-- Work that a job describes is that of its task alone. -/
theorem PassState.Alone.of_describes {job : Job α} {work : SourceFile → Work α}
    (hjob : job.Describes work) {w : Workspace} (hw : w.paths.Nodup) {f : SourceFile}
    (hf : w.file? f.path = some f) (j : Journal) :
    ∃ s, PassState.Alone job f.path w s ∧ s.workspace = (work f w j).2.1 := by
  have hfree : (PassState.start w : PassState α).atWork w.paths < 1 := by
    simp [PassState.atWork, PassState.start, Phase.isAtWork]
  obtain ⟨σ, hplay⟩ := PassState.play_visit (s := .start w) hw hf rfl hfree
  obtain ⟨j', hwork⟩ := hjob w f j hw hf
  refine ⟨_, ⟨.of_play hplay, fun _ => rfl⟩, ?_⟩
  rw [hwork]
  rfl

/-- What the calls of the library do to a workspace are operations. -/
structure Workspace.CallsAreOperations (w : Workspace) : Prop where
  save : ∀ f j, w.file? f.path = some f → ∃ saved, Operation w saved (Workspace.save f w j).2.1
  exports : ∀ f j, w.file? f.path = some f →
    ∃ saved, Operation w saved (nameDefaultExport f w j).2.1
  imports : ∀ names f j, w.file? f.path = some f →
    ∃ saved, Operation w saved (nameDefaultImports names f w j).2.1
  roots : ∀ marker f j, w.file? f.path = some f →
    ∃ saved, Operation w saved (rootSpecifiers marker f w j).2.1
  naming : ∀ (limit : Nat) j, 1 ≤ limit → ∃ saved, Operation w saved (nameDefaults limit w j).2.1
  rooting : ∀ marker (limit : Nat) j, 1 ≤ limit →
    ∃ saved, Operation w saved (rootAllSpecifiers marker limit w j).2.1

theorem Workspace.Separate.callsAreOperations {w : Workspace} (hw : w.Separate) :
    w.CallsAreOperations where
  save f j hf := by
    obtain ⟨s, hs, hws⟩ := PassState.Alone.of_describes saveJob_ends hw.nodup hf j
    exact ⟨s.saved, hws ▸ .save hs⟩
  exports f j hf := by
    obtain ⟨s, hs, hws⟩ := PassState.Alone.of_describes exportJob_ends hw.nodup hf j
    exact ⟨s.saved, hws ▸ .exports hs⟩
  imports names f j hf := by
    obtain ⟨s, hs, hws⟩ := PassState.Alone.of_describes (importJob_ends names) hw.nodup hf j
    exact ⟨s.saved, hws ▸ .imports hs⟩
  roots marker f j hf := by
    obtain ⟨s, hs, hws⟩ := PassState.Alone.of_describes (rootJob_ends marker) hw.nodup hf j
    exact ⟨s.saved, hws ▸ .roots hs⟩
  naming limit j hlimit := by
    obtain ⟨σ₁, σ₂, r, hr, -, hws⟩ := nameDefaults_follows_schedules hw hlimit j
    rw [hws]
    exact ⟨_, .naming (.of_schedules hr)⟩
  rooting marker limit j hlimit := by
    obtain ⟨σ, s, hs, -, hws⟩ := rootAllSpecifiers_follows_schedule hw hlimit marker j
    rw [hws]
    exact ⟨_, .rooting (.of_passBy hs)⟩

/-! ### Loaded projects -/

section

variable {disk : FileSystem} {cwd : Path} {name : String} {j j' : Journal} {w : Workspace}

/-- The files of a loaded project stand on disk as they are in memory. -/
theorem Workspace.load_agrees (h : load disk cwd name j = (.ok w, j')) : w.Agrees := by
  intro f hf _
  exact (load_fresh h f hf).content

theorem FileSystem.content?_of_lookup? {fs : FileSystem} {p : Path} {b : Bytes}
    (h : fs.lookup? p = some (.file b)) : fs.content? p = some b := by
  unfold content?
  rw [h]

/-- For every project loaded from disk and all operations on it, in any order, with any failures and any
refused writes: a file that is not marked as changed has on disk the text that it has in memory, and a
path whose text did not go to disk in one of them has the content that it had. After a naming run or a
rooting run whose reports are all in order every file of the project has on disk the text that it has in
memory. -/
theorem disk_agrees_with_memory {w₀ : Workspace} (hload : load disk cwd name j = (.ok w₀, j'))
    {saved : List Path} (h : Operations w₀ saved w) :
    (∀ f ∈ w.files, f.dirty = false → w.disk.content? f.path = some f.text) ∧
    (∀ p, p ∉ saved → w.disk.content? p = disk.content? p) ∧
    (∀ limit r, NamingRun.From limit w r → r.result.ok = true →
      ∀ f ∈ r.workspace.files, r.workspace.disk.content? f.path = some f.text) ∧
    (∀ limit marker s, PassState.Pass limit (rootJob marker) w s →
      (Report.mk "relative-to-absolute" (s.visits.map (·.1))).ok = true →
      ∀ f ∈ s.workspace.files, s.workspace.disk.content? f.path = some f.text) ∧
    w.CallsAreOperations := by
  have hw₀ := load_separate hload
  obtain ⟨hpaths, hagrees, hunwritten⟩ := h.agrees hw₀ (load_agrees hload)
  have hw := hw₀.congr hpaths
  refine ⟨fun f hf hclean => FileSystem.content?_of_lookup? (hagrees f hf hclean), fun p hp => ?_,
    fun limit r hr hok f hf => ?_, fun limit marker s hs hok f hf => ?_, hw.callsAreOperations⟩
  · unfold FileSystem.content?
    rw [hunwritten p hp, (load_eq_ok hload).1]
  · exact FileSystem.content?_of_lookup? (hr.all_on_disk hw hagrees hok f hf)
  · exact FileSystem.content?_of_lookup? (hs.all_on_disk hw hagrees hok f hf)

end

/-- The disk of the sample project, with its configuration. -/
def sampleDisk : FileSystem :=
  sampleProject.disk.put ⟨.root, ["p", "tsconfig.json"]⟩ (.file (Bytes.ofString "\x7b\x7d"))

/-- The sample project as it is loaded from there. -/
def loadedProject : Workspace :=
  (load sampleDisk ⟨.root, ["p"]⟩ "tsconfig.json" []).1.toOption.getD sampleProject

theorem loadedProject_load :
    ∃ j, load sampleDisk ⟨.root, ["p"]⟩ "tsconfig.json" [] = (.ok loadedProject, j) := by
  have hsome : (load sampleDisk ⟨.root, ["p"]⟩ "tsconfig.json" []).1.toOption.isSome = true := by
    decide +kernel
  obtain ⟨w, hw⟩ := Option.isSome_iff_exists.mp hsome
  unfold loadedProject
  rw [hw]
  exact Journaled.exists_run_of_toOption hw

/-- The task of the module with the default export at its write. -/
def stoppedTask : PassState (Option String) :=
  (PassState.play 1 exportJob (sampleSchedule "aa") (.start loadedProject)).getD (.start loadedProject)

/-- A reason for the disk to refuse its text. -/
def sampleRefusal : IoFault := .notFound (samplePath "a.ts")

/-- The work on that module, whose write is refused. -/
def refusedTask : PassState (Option String) :=
  (stoppedTask.enter (samplePath "a.ts") (.ended (.error (.io sampleRefusal)))).report
    (samplePath "a.ts") (.error (.io sampleRefusal))

theorem refusedTask_alone : PassState.Alone exportJob (samplePath "a.ts") loadedProject refusedTask := by
  have hplay : PassState.play 1 exportJob (sampleSchedule "aa") (.start loadedProject) =
      some stoppedTask := by
    obtain ⟨s, hs⟩ := Option.isSome_iff_exists.mp (show (PassState.play 1 exportJob
      (sampleSchedule "aa") (.start loadedProject)).isSome = true by decide +kernel)
    unfold stoppedTask
    rw [hs]
    rfl
  have hsaving : (match stoppedTask.phase (samplePath "a.ts") with
      | .saving _ _ => true
      | _ => false) = true := by decide +kernel
  split at hsaving
  case h_2 => cases hsaving
  case h_1 text a hph =>
    have hphase : (stoppedTask.enter (samplePath "a.ts") (.ended (.error (.io sampleRefusal)))).phase
        (samplePath "a.ts") = .ended (.error (.io sampleRefusal)) := by
      rw [PassState.enter_phase, if_pos rfl]
    have hstopped : PassState.Run 1 exportJob (.start loadedProject) stoppedTask := .of_play hplay
    refine ⟨(hstopped.tail ⟨_, .refused hph sampleRefusal⟩).tail
      ⟨_, .own (PassState.advance_ended hphase)⟩, fun q => ?_⟩
    show (if q = samplePath "a.ts" then _ else if q = samplePath "a.ts" then _ else stoppedTask.phase q) = _
    by_cases hq : q = samplePath "a.ts"
    · rw [if_pos hq, if_pos hq]
    · have hother : q ∉ sampleSchedule "aa" := by
        show q ∉ [samplePath "a.ts", samplePath "a.ts"]
        simp [hq]
      rw [if_neg hq, if_neg hq, if_neg hq, PassState.play_phase_of_notMem hplay hother]
      rfl

/-- The module with the default export is changed, its write is refused, and it is still marked; the
naming run that follows reports no failure, and everything is on disk. -/
theorem loadedProject_on_disk :
    Operations loadedProject [] refusedTask.workspace ∧
    ∃ r, NamingRun.From 2 refusedTask.workspace r ∧ r.result.ok = true ∧
      ∀ f ∈ r.workspace.files, r.workspace.disk.content? f.path = some f.text := by
  have hoperations : Operations loadedProject [] refusedTask.workspace := by
    have hnone : refusedTask.saved = [] := by decide +kernel
    exact hnone ▸ .cons (.exports refusedTask_alone) (.nil _)
  obtain ⟨r, hr, hok⟩ := (Option.any_eq_true _ _).mp (show (nameDefaultsBy 2 (sampleSchedule "abaabb")
    (sampleSchedule "abaaabba") refusedTask.workspace).any (·.result.ok) = true by decide +kernel)
  have hrun : NamingRun.From 2 refusedTask.workspace r := .of_schedules hr
  obtain ⟨j, hload⟩ := loadedProject_load
  refine ⟨hoperations, r, hrun, hok, ?_⟩
  exact (disk_agrees_with_memory hload hoperations).2.2.1 2 r hrun hok

end Codemod
