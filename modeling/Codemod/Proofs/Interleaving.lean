import Codemod.Proofs.Job
import Codemod.Run

/-!
# Interleaved passes

A pass starts one task for every file, and at most `limit` tasks work at the same time. A task takes five
steps: it is admitted, it plans and changes its file in memory, it writes the file to disk, it takes note
that the file is saved, and it reports how its work ended. Between two steps of one task any other task
may move; while a task is at its write, the others go on rewriting their own files. A schedule is the list
of the tasks that move, one after the other.

What a task does is decided by the workspace in which the pass began: no step of another task reaches its
file, neither in memory nor on disk. `Sound` says this of every state on the way.

Main statements:

* `Sound.advance` says that every step keeps a pass sound, and `Sound.play` that every schedule does;
* `Sound.done_of_stuck` says that a pass stops only when every task has reported, and
  `Sound.exists_done` that it can be brought to this from wherever it is;
* `Sound.completed` says how a pass ends, whatever the schedule was.
-/

namespace Codemod

variable {α : Type}

/-- How far the task of one file has got. -/
inductive Phase (α : Type) where
  /-- It is not admitted yet. -/
  | waiting
  /-- It may work and has not begun. -/
  | admitted
  /-- It has changed its file in memory and hands this text to the disk. -/
  | saving (text : Bytes) (value : α)
  /-- The text is on disk. -/
  | saved (value : α)
  /-- Its work has ended. -/
  | ended (result : Except Fault α)
  /-- Its outcome is in the report, and its place is free again. -/
  | reported

namespace Phase

/-- Whether a task in this phase takes a place among those that work. -/
def isAtWork : Phase α → Bool
  | waiting | reported => false
  | _ => true

/-- Whether the outcome is in the report. -/
def isReported : Phase α → Bool
  | reported => true
  | _ => false

/-- Whether the write of a task in this phase is behind it, if it had one. -/
def hasWritten : Phase α → Bool
  | waiting | admitted | saving _ _ => false
  | _ => true

/-- How many steps a task in this phase has before it at most. -/
def stepsLeft : Phase α → Nat
  | waiting => 5
  | admitted => 4
  | saving _ _ => 3
  | saved _ => 2
  | ended _ => 1
  | reported => 0

end Phase

/-- A pass under way. -/
structure PassState (α : Type) where
  workspace : Workspace
  phase : Path → Phase α
  /-- The outcomes that were reported, with the values of the tasks that gave one. -/
  visits : List (Outcome × Option α)
  /-- The texts that went to disk. -/
  written : List (Path × Bytes)

/-- What is reported of a task. -/
def visitOf (p : Path) : Except Fault α → Outcome × Option α
  | .ok a => (⟨p, none⟩, some a)
  | .error e => (⟨p, some e⟩, none)

@[simp] theorem visitOf_path (p : Path) (r : Except Fault α) : (visitOf p r).1.path = p := by
  cases r <;> rfl

namespace PassState

/-- A pass in which no task has moved. -/
def start (w : Workspace) : PassState α := ⟨w, fun _ => .waiting, [], []⟩

/-- The number of tasks at work among those of the given files. -/
def atWork (s : PassState α) (ps : List Path) : Nat :=
  (ps.filter fun p => (s.phase p).isAtWork).length

/-- The same pass with one task in another phase. -/
def enter (s : PassState α) (p : Path) (ph : Phase α) : PassState α :=
  { s with phase := fun q => if q = p then ph else s.phase q }

/-- The same pass with a file in the place of that at the same path. -/
def withFile (s : PassState α) (g : SourceFile) : PassState α :=
  { s with workspace := s.workspace.setFile g }

/-- A task plans, and changes its file in memory. -/
def rewrite (job : Job α) (p : Path) (s : PassState α) (f : SourceFile) : PassState α :=
  match job s.workspace.config s.workspace.knows f with
  | .error e => s.enter p (.ended (.error e))
  | .ok (a, none) => s.enter p (.ended (.ok a))
  | .ok (a, some edits) =>
    match f.edited edits with
    | .error e => s.enter p (.ended (.error e))
    | .ok g => (s.enter p (if g.dirty then .saving g.text a else .ended (.ok a))).withFile g

/-- The text of a task goes to disk, or is refused. -/
def write (p : Path) (s : PassState α) (text : Bytes) (a : α) : PassState α :=
  match s.workspace.disk.write p text with
  | .error e => s.enter p (.ended (.error (.io e)))
  | .ok disk =>
    { s.enter p (.saved a) with
      workspace := { s.workspace with disk := disk }, written := s.written ++ [(p, text)] }

/-- A task takes note that its file is saved. -/
def resume (p : Path) (s : PassState α) (f : SourceFile) (a : α) : PassState α :=
  (s.enter p (.ended (.ok a))).withFile { f with dirty := false }

/-- A task reports how its work ended. -/
def report (p : Path) (s : PassState α) (r : Except Fault α) : PassState α :=
  { s.enter p .reported with visits := s.visits ++ [visitOf p r] }

/-- The next step of one task, if it can move. -/
def advance (limit : Nat) (job : Job α) (s : PassState α) (p : Path) : Option (PassState α) :=
  match s.phase p with
  | .waiting =>
    if p ∈ s.workspace.paths ∧ s.atWork s.workspace.paths < limit then some (s.enter p .admitted)
    else none
  | .admitted => (s.workspace.file? p).map (s.rewrite job p)
  | .saving text a => some (s.write p text a)
  | .saved a => (s.workspace.file? p).map fun f => s.resume p f a
  | .ended r => some (s.report p r)
  | .reported => none

/-- The steps of a schedule, if each of them is allowed. -/
def play (limit : Nat) (job : Job α) (schedule : List Path) (s : PassState α) : Option (PassState α) :=
  schedule.foldlM (advance limit job) s

/-- Whether every task has reported. -/
def done (s : PassState α) : Bool :=
  s.workspace.paths.all fun p => (s.phase p).isReported

/-- Whether no task can move any more. -/
def Stuck (limit : Nat) (job : Job α) (s : PassState α) : Prop :=
  ∀ p, s.advance limit job p = none

@[simp] theorem enter_workspace (s : PassState α) (p : Path) (ph : Phase α) :
    (s.enter p ph).workspace = s.workspace := rfl

@[simp] theorem enter_visits (s : PassState α) (p : Path) (ph : Phase α) :
    (s.enter p ph).visits = s.visits := rfl

@[simp] theorem enter_written (s : PassState α) (p : Path) (ph : Phase α) :
    (s.enter p ph).written = s.written := rfl

@[simp] theorem enter_phase (s : PassState α) (p q : Path) (ph : Phase α) :
    (s.enter p ph).phase q = if q = p then ph else s.phase q := rfl

@[simp] theorem play_nil (limit : Nat) (job : Job α) (s : PassState α) :
    play limit job [] s = some s := rfl

theorem play_cons (limit : Nat) (job : Job α) (p : Path) (rest : List Path) (s : PassState α) :
    play limit job (p :: rest) s = (s.advance limit job p).bind (play limit job rest) := rfl

theorem play_append (limit : Nat) (job : Job α) (σ τ : List Path) (s : PassState α) :
    play limit job (σ ++ τ) s = (play limit job σ s).bind (play limit job τ) := by
  induction σ generalizing s with
  | nil => rfl
  | cons p rest ih =>
    rw [List.cons_append, play_cons, play_cons]
    cases s.advance limit job p with
    | none => rfl
    | some s' => exact ih s'

section

variable {limit : Nat} {job : Job α} {s : PassState α} {p : Path} {f : SourceFile}

theorem rewrite_of_error {e : Fault} (h : job s.workspace.config s.workspace.knows f = .error e) :
    s.rewrite job p f = s.enter p (.ended (.error e)) := by
  unfold rewrite
  rw [h]

theorem rewrite_of_none {a : α} (h : job s.workspace.config s.workspace.knows f = .ok (a, none)) :
    s.rewrite job p f = s.enter p (.ended (.ok a)) := by
  unfold rewrite
  rw [h]

theorem rewrite_of_unapplied {a : α} {edits : List Edit} {e : Fault}
    (h : job s.workspace.config s.workspace.knows f = .ok (a, some edits))
    (he : f.edited edits = .error e) : s.rewrite job p f = s.enter p (.ended (.error e)) := by
  unfold rewrite
  rw [h]
  dsimp only
  rw [he]

theorem rewrite_of_edited {a : α} {edits : List Edit} {g : SourceFile}
    (h : job s.workspace.config s.workspace.knows f = .ok (a, some edits))
    (hg : f.edited edits = .ok g) : s.rewrite job p f =
      (s.enter p (if g.dirty then .saving g.text a else .ended (.ok a))).withFile g := by
  unfold rewrite
  rw [h]
  dsimp only
  rw [hg]

theorem write_of_error {text : Bytes} {a : α} {e : IoFault}
    (h : s.workspace.disk.write p text = .error e) :
    s.write p text a = s.enter p (.ended (.error (.io e))) := by
  unfold write
  rw [h]

theorem write_of_ok {text : Bytes} {a : α} {disk : FileSystem}
    (h : s.workspace.disk.write p text = .ok disk) :
    s.write p text a = { s.enter p (.saved a) with
      workspace := { s.workspace with disk := disk }, written := s.written ++ [(p, text)] } := by
  unfold write
  rw [h]

theorem advance_waiting (h : s.phase p = .waiting) (hp : p ∈ s.workspace.paths)
    (hfree : s.atWork s.workspace.paths < limit) :
    s.advance limit job p = some (s.enter p .admitted) := by
  unfold advance
  rw [h]
  exact if_pos ⟨hp, hfree⟩

theorem advance_admitted (h : s.phase p = .admitted) (hf : s.workspace.file? p = some f) :
    s.advance limit job p = some (s.rewrite job p f) := by
  unfold advance
  rw [h, hf]
  rfl

theorem advance_saving {text : Bytes} {a : α} (h : s.phase p = .saving text a) :
    s.advance limit job p = some (s.write p text a) := by
  unfold advance
  rw [h]

theorem advance_saved {a : α} (h : s.phase p = .saved a) (hf : s.workspace.file? p = some f) :
    s.advance limit job p = some (s.resume p f a) := by
  unfold advance
  rw [h, hf]
  rfl

theorem advance_ended {r : Except Fault α} (h : s.phase p = .ended r) :
    s.advance limit job p = some (s.report p r) := by
  unfold advance
  rw [h]

theorem advance_reported (h : s.phase p = .reported) : s.advance limit job p = none := by
  unfold advance
  rw [h]

theorem rewrite_phase (job : Job α) (p : Path) (s : PassState α) (f : SourceFile) :
    ∃ ph, ph.stepsLeft < 4 ∧ ∀ q, (s.rewrite job p f).phase q = if q = p then ph else s.phase q := by
  unfold rewrite
  split
  · exact ⟨_, by simp [Phase.stepsLeft], fun _ => rfl⟩
  · exact ⟨_, by simp [Phase.stepsLeft], fun _ => rfl⟩
  · split
    · exact ⟨_, by simp [Phase.stepsLeft], fun _ => rfl⟩
    · refine ⟨_, ?_, fun _ => rfl⟩
      split <;> simp [Phase.stepsLeft]

theorem write_phase (p : Path) (s : PassState α) (text : Bytes) (a : α) :
    ∃ ph, ph.stepsLeft < 3 ∧ ∀ q, (s.write p text a).phase q = if q = p then ph else s.phase q := by
  unfold write
  split
  · exact ⟨_, by simp [Phase.stepsLeft], fun _ => rfl⟩
  · exact ⟨_, by simp [Phase.stepsLeft], fun _ => rfl⟩

/-- A step takes its own task on and leaves the others where they are. -/
theorem advance_phase {s' : PassState α} (h : s.advance limit job p = some s') :
    ∃ ph, ph.stepsLeft < (s.phase p).stepsLeft ∧
      ∀ q, s'.phase q = if q = p then ph else s.phase q := by
  unfold advance at h
  cases hph : s.phase p with
  | waiting =>
    rw [hph] at h
    obtain ⟨-, hnext⟩ := Option.ite_none_right_eq_some.mp h
    cases hnext
    exact ⟨.admitted, by simp [Phase.stepsLeft], fun _ => rfl⟩
  | admitted =>
    rw [hph] at h
    obtain ⟨f, -, rfl⟩ := Option.map_eq_some_iff.mp h
    exact rewrite_phase job p s f
  | saving text a =>
    rw [hph] at h
    cases h
    exact write_phase p s text a
  | saved a =>
    rw [hph] at h
    obtain ⟨f, -, rfl⟩ := Option.map_eq_some_iff.mp h
    exact ⟨.ended (.ok a), by simp [Phase.stepsLeft], fun _ => rfl⟩
  | ended r =>
    rw [hph] at h
    cases h
    exact ⟨.reported, by simp [Phase.stepsLeft], fun _ => rfl⟩
  | reported => rw [hph] at h; cases h

/-- How many steps the tasks of the given files have before them at most. -/
def stepsLeft (s : PassState α) (ps : List Path) : Nat :=
  (ps.map fun p => (s.phase p).stepsLeft).sum

/-- Every step brings a pass nearer to its end. -/
theorem stepsLeft_lt_of_advance {s' : PassState α} {ps : List Path}
    (h : s.advance limit job p = some s') (hp : p ∈ ps) : s'.stepsLeft ps < s.stepsLeft ps := by
  obtain ⟨ph, hlt, hphase⟩ := advance_phase h
  refine List.sum_lt_sum _ _ (fun q _ => ?_) ⟨p, hp, ?_⟩
  · rw [hphase]
    by_cases hq : q = p
    · rw [if_pos hq, hq]
      exact hlt.le
    · rw [if_neg hq]
  · rw [hphase, if_pos rfl]
    exact hlt

end

end PassState

/-! ### Writes at separate places -/

namespace FileSystem

theorem blocked?_congr {fs fs' : FileSystem} {p : Path}
    (h : ∀ d ∈ directoriesAbove p, fs.lookup? d = fs'.lookup? d) : fs.blocked? p = fs'.blocked? p := by
  unfold blocked?
  generalize directoriesAbove p = ds at h
  induction ds with
  | nil => rfl
  | cons d rest ih =>
    simp only [List.findSome?_cons]
    rw [h d (by simp), ih fun e he => h e (by simp [he])]

/-- Whether a write succeeds is decided by what stands at its place and above it. -/
theorem write_congr {fs fs' : FileSystem} {p : Path} (b : Bytes)
    (habove : ∀ d ∈ directoriesAbove p, fs.lookup? d = fs'.lookup? d)
    (hp : fs.lookup? p = fs'.lookup? p) :
    (∃ e, fs.write p b = .error e ∧ fs'.write p b = .error e) ∨
      (fs.write p b = .ok (fs.put p (.file b)) ∧ fs'.write p b = .ok (fs'.put p (.file b))) := by
  unfold write
  rw [blocked?_congr habove, hp]
  cases fs'.blocked? p with
  | some e => exact .inl ⟨e, rfl, rfl⟩
  | none =>
    cases fs'.lookup? p with
    | none => exact .inr ⟨rfl, rfl⟩
    | some entry =>
      cases entry with
      | directory => exact .inl ⟨_, rfl, rfl⟩
      | file c => exact .inr ⟨rfl, rfl⟩

end FileSystem

/-! ### What is true on the way -/

/-- What stands at the path of a file when the work on it has ended, `before` having stood there. -/
def Ending.entry (e : Ending α) (before : Option Entry) : Option Entry :=
  match e.written with
  | none => before
  | some b => some (.file b)

/-- How far the task of a file can have got: in which phase it is, how its file is in memory, and what
stands at its path. All of this is decided by the workspace in which the pass began. -/
inductive Stage (job : Job α) (w : Workspace) (f : SourceFile) :
    Phase α → SourceFile → Option Entry → Prop
  | waiting : Stage job w f .waiting f (w.disk.lookup? f.path)
  | admitted : Stage job w f .admitted f (w.disk.lookup? f.path)
  | saving {a : α} {edits : List Edit} {g : SourceFile}
      (hjob : job w.config w.knows f = .ok (a, some edits)) (hg : f.edited edits = .ok g)
      (hd : g.dirty = true) : Stage job w f (.saving g.text a) g (w.disk.lookup? f.path)
  | saved {a : α} {edits : List Edit} {g : SourceFile} {d : FileSystem}
      (hjob : job w.config w.knows f = .ok (a, some edits)) (hg : f.edited edits = .ok g)
      (hd : g.dirty = true) (hwrite : w.disk.write g.path g.text = .ok d) :
      Stage job w f (.saved a) g (some (.file g.text))
  | ended : Stage job w f (.ended (job.ending w f).result) (job.ending w f).file
      ((job.ending w f).entry (w.disk.lookup? f.path))
  | reported : Stage job w f .reported (job.ending w f).file
      ((job.ending w f).entry (w.disk.lookup? f.path))

namespace Stage

variable {job : Job α} {w : Workspace} {f g : SourceFile} {x : Option Entry}

theorem of_admitted (h : Stage job w f .admitted g x) : g = f ∧ x = w.disk.lookup? f.path := by
  cases h
  exact ⟨rfl, rfl⟩

theorem of_saving {b : Bytes} {a : α} (h : Stage job w f (.saving b a) g x) :
    ∃ edits, job w.config w.knows f = .ok (a, some edits) ∧ f.edited edits = .ok g ∧
      g.dirty = true ∧ b = g.text ∧ x = w.disk.lookup? f.path := by
  cases h with
  | saving hjob hg hd => exact ⟨_, hjob, hg, hd, rfl, rfl⟩

theorem of_saved {a : α} (h : Stage job w f (.saved a) g x) :
    ∃ edits d, job w.config w.knows f = .ok (a, some edits) ∧ f.edited edits = .ok g ∧
      g.dirty = true ∧ w.disk.write g.path g.text = .ok d ∧ x = some (.file g.text) := by
  cases h with
  | saved hjob hg hd hwrite => exact ⟨_, _, hjob, hg, hd, hwrite, rfl⟩

theorem of_ended {r : Except Fault α} (h : Stage job w f (.ended r) g x) :
    r = (job.ending w f).result ∧ g = (job.ending w f).file ∧
      x = (job.ending w f).entry (w.disk.lookup? f.path) := by
  cases h
  exact ⟨rfl, rfl, rfl⟩

theorem of_reported (h : Stage job w f .reported g x) :
    g = (job.ending w f).file ∧ x = (job.ending w f).entry (w.disk.lookup? f.path) := by
  cases h
  exact ⟨rfl, rfl⟩

/-- The stage at the end of the work, spelled out. -/
theorem ended_of {e : Ending α} (h : job.ending w f = e) :
    Stage job w f (.ended e.result) e.file (e.entry (w.disk.lookup? f.path)) :=
  h ▸ .ended

end Stage

/-- A state that a pass which began in `w` can be in: every task is at a stage of its own, what lies
elsewhere on disk is as it was, and the report holds the tasks that have reported, each of them once. -/
structure Sound (job : Job α) (w : Workspace) (s : PassState α) : Prop where
  config : s.workspace.config = w.config
  paths : s.workspace.paths = w.paths
  elsewhere : ∀ q, q ∉ w.paths → s.workspace.disk.lookup? q = w.disk.lookup? q
  stage : ∀ f ∈ w.files, ∃ g, s.workspace.file? f.path = some g ∧
    Stage job w f (s.phase f.path) g (s.workspace.disk.lookup? f.path)
  idle : ∀ q, q ∉ w.paths → s.phase q = .waiting
  visits_nodup : (s.visits.map (·.1.path)).Nodup
  mem_visits : ∀ v, v ∈ s.visits ↔ ∃ f ∈ w.files, (s.phase f.path).isReported = true ∧
    v = visitOf f.path (job.ending w f).result
  mem_written : ∀ q b, (q, b) ∈ s.written ↔ ∃ f ∈ w.files, f.path = q ∧
    (s.phase f.path).hasWritten = true ∧ (job.ending w f).written = some b

namespace Sound

variable {job : Job α} {w : Workspace} {s s' : PassState α} {p : Path} {limit : Nat}

theorem knows (hs : Sound job w s) : s.workspace.knows = w.knows :=
  Workspace.knows_congr hs.paths

/-- Before any task has moved. -/
theorem start (hw : w.Separate) : Sound job w (PassState.start w : PassState α) where
  config := rfl
  paths := rfl
  elsewhere _ _ := rfl
  stage f hf := ⟨f, Workspace.file?_of_mem hw.nodup hf, .waiting⟩
  idle _ _ := rfl
  visits_nodup := List.nodup_nil
  mem_visits v := by simp [PassState.start, Phase.isReported]
  mem_written q b := by simp [PassState.start, Phase.hasWritten]

theorem mem_written_of (hs : Sound job w s) (hw : w.paths.Nodup) {f : SourceFile} (hf : f ∈ w.files)
    {b : Bytes} : (f.path, b) ∈ s.written ↔
      (s.phase f.path).hasWritten = true ∧ (job.ending w f).written = some b := by
  rw [hs.mem_written]
  constructor
  · rintro ⟨g, hg, hpath, h⟩
    obtain rfl : g = f := List.inj_on_of_nodup_map hw hg hf hpath
    exact h
  · exact fun h => ⟨f, hf, rfl, h⟩

/-- A step of the task of `f` that is no report keeps a pass sound, if it takes the task to a stage of
its own and leaves everything else as it is. -/
theorem of_local (hs : Sound job w s) {f : SourceFile} (hf : f ∈ w.files) {ph : Phase α}
    (hold : (s.phase f.path).isReported = false) (hnew : ph.isReported = false)
    (hphase : ∀ q, s'.phase q = if q = f.path then ph else s.phase q)
    (hconfig : s'.workspace.config = s.workspace.config)
    (hpaths : s'.workspace.paths = s.workspace.paths)
    (hfile : ∀ q, q ≠ f.path → s'.workspace.file? q = s.workspace.file? q)
    (hdisk : ∀ q, q ≠ f.path → s'.workspace.disk.lookup? q = s.workspace.disk.lookup? q)
    (hstage : ∃ g, s'.workspace.file? f.path = some g ∧
      Stage job w f ph g (s'.workspace.disk.lookup? f.path))
    (hvisits : s'.visits = s.visits)
    (hothers : ∀ q b, q ≠ f.path → ((q, b) ∈ s'.written ↔ (q, b) ∈ s.written))
    (hwritten : ∀ b, (f.path, b) ∈ s'.written ↔
      ph.hasWritten = true ∧ (job.ending w f).written = some b)
    (hw : w.paths.Nodup) : Sound job w s' where
  config := hconfig.trans hs.config
  paths := hpaths.trans hs.paths
  elsewhere q hq := by
    have hne : q ≠ f.path := fun e => hq (e ▸ List.mem_map.mpr ⟨f, hf, rfl⟩)
    rw [hdisk q hne, hs.elsewhere q hq]
  stage g hg := by
    by_cases h : g.path = f.path
    · obtain rfl : g = f := List.inj_on_of_nodup_map hw hg hf h
      rw [hphase, if_pos rfl]
      exact hstage
    · rw [hphase, if_neg h, hfile _ h, hdisk _ h]
      exact hs.stage g hg
  idle q hq := by
    have hne : q ≠ f.path := fun e => hq (e ▸ List.mem_map.mpr ⟨f, hf, rfl⟩)
    rw [hphase, if_neg hne, hs.idle q hq]
  visits_nodup := hvisits ▸ hs.visits_nodup
  mem_visits v := by
    have hsame : ∀ q, (s'.phase q).isReported = (s.phase q).isReported := by
      intro q
      rw [hphase]
      by_cases h : q = f.path
      · rw [if_pos h, h, hold, hnew]
      · rw [if_neg h]
    rw [hvisits, hs.mem_visits]
    simp only [hsame]
  mem_written q b := by
    by_cases hq : q = f.path
    · rw [hq, hwritten]
      constructor
      · exact fun h => ⟨f, hf, rfl, by rw [hphase, if_pos rfl]; exact h⟩
      · rintro ⟨g, hg, hpath, h⟩
        obtain rfl : g = f := List.inj_on_of_nodup_map hw hg hf hpath
        rwa [hphase, if_pos rfl] at h
    · rw [hothers q b hq, hs.mem_written]
      constructor
      · rintro ⟨g, hg, hpath, h⟩
        exact ⟨g, hg, hpath, by rwa [hphase, if_neg (hpath ▸ hq)]⟩
      · rintro ⟨g, hg, hpath, h⟩
        rw [hphase, if_neg (hpath ▸ hq)] at h
        exact ⟨g, hg, hpath, h⟩

/-- The task of a file is admitted. -/
theorem enter (hw : w.paths.Nodup) (hs : Sound job w s) {f : SourceFile} (hf : f ∈ w.files)
    (hph : s.phase f.path = .waiting) : Sound job w (s.enter f.path .admitted) := by
  obtain ⟨g, hg, hst⟩ := hs.stage f hf
  rw [hph] at hst
  refine hs.of_local hf (by rw [hph]; rfl) rfl (fun _ => rfl) rfl rfl (fun _ _ => rfl)
    (fun _ _ => rfl) ⟨g, hg, ?_⟩ rfl (fun _ _ _ => .rfl) (fun b => ?_) hw
  case refine_2 => exact (hs.mem_written_of hw hf).trans (by rw [hph]; rfl)
  show Stage job w f .admitted g (s.workspace.disk.lookup? f.path)
  generalize s.workspace.disk.lookup? f.path = x at hst
  cases hst
  exact .admitted

/-- The task of a file plans, and changes its file in memory. -/
theorem rewrite (hw : w.paths.Nodup) (hs : Sound job w s) {f : SourceFile} (hf : f ∈ w.files)
    (hph : s.phase f.path = .admitted) :
    ∃ g, s.workspace.file? f.path = some g ∧ Sound job w (s.rewrite job f.path g) := by
  obtain ⟨f', hf', hst⟩ := hs.stage f hf
  rw [hph] at hst
  obtain ⟨rfl, hx⟩ := hst.of_admitted
  refine ⟨f', hf', ?_⟩
  have hold : (s.phase f'.path).isReported = false := by rw [hph]; rfl
  have hnone : ∀ b, (f'.path, b) ∉ s.written := by
    intro b hb
    have := ((hs.mem_written_of hw hf).mp hb).1
    rw [hph] at this
    cases this
  -- A task that leaves its file alone has ended.
  have hquiet : ∀ r, job.ending w f' = ⟨r, f', none⟩ → Sound job w (s.enter f'.path (.ended r)) := by
    intro r hr
    refine hs.of_local hf hold rfl (fun _ => rfl) rfl rfl (fun _ _ => rfl) (fun _ _ => rfl)
      ⟨f', hf', ?_⟩ rfl (fun _ _ _ => .rfl) (fun b => iff_of_false (hnone b) ?_) hw
    case refine_2 => rw [hr]; simp
    show Stage job w f' _ f' (s.workspace.disk.lookup? f'.path)
    rw [hx]
    exact Stage.ended_of hr
  have hsame : job s.workspace.config s.workspace.knows f' = job w.config w.knows f' := by
    rw [hs.config, hs.knows]
  cases hjob : job w.config w.knows f' with
  | error e =>
    rw [PassState.rewrite_of_error (hsame.trans hjob)]
    exact hquiet _ (Job.ending_of_error hjob)
  | ok r =>
    obtain ⟨a, edits | edits⟩ := r
    · rw [PassState.rewrite_of_none (hsame.trans hjob)]
      exact hquiet _ (Job.ending_of_none hjob)
    · cases hg : f'.edited edits with
      | error e =>
        rw [PassState.rewrite_of_unapplied (hsame.trans hjob) hg]
        refine hquiet (.error e) ?_
        rw [Job.ending_of_some hjob, Ending.ofCommit_of_error hg]
        rfl
      | ok g =>
        have hpath := SourceFile.edited_path hg
        rw [PassState.rewrite_of_edited (hsame.trans hjob) hg]
        have hset : ∀ q, (s.workspace.setFile g).file? q =
            if q = f'.path then some g else s.workspace.file? q := by
          intro q
          rw [Workspace.file?_setFile ⟨f', hpath ▸ hf'⟩, hpath]
        have hstep : ∀ ph : Phase α, ph.isReported = false →
            Stage job w f' ph g (w.disk.lookup? f'.path) →
            (∀ b, ¬ (ph.hasWritten = true ∧ (job.ending w f').written = some b)) →
            Sound job w ((s.enter f'.path ph).withFile g) := by
          intro ph hnew hstage hunwritten
          refine hs.of_local hf hold hnew (fun _ => rfl) rfl Workspace.paths_setFile
            (fun q hq => (hset q).trans (if_neg hq)) (fun _ _ => rfl)
            ⟨g, (hset _).trans (if_pos rfl), ?_⟩ rfl (fun _ _ _ => .rfl)
            (fun b => iff_of_false (hnone b) (hunwritten b)) hw
          show Stage job w f' ph g (s.workspace.disk.lookup? f'.path)
          rw [hx]
          exact hstage
        cases hd : g.dirty with
        | true => exact hstep _ rfl (.saving hjob hg hd) (by simp [Phase.hasWritten])
        | false =>
          have hend : job.ending w f' = ⟨.ok a, g, none⟩ := by
            rw [Job.ending_of_some hjob, Ending.ofCommit_of_clean hg hd]
            rfl
          exact hstep _ rfl (Stage.ended_of hend) (by rw [hend]; simp)

/-- The text of a task goes to disk, or is refused. -/
theorem write (hw : w.Separate) (hs : Sound job w s) {f : SourceFile} (hf : f ∈ w.files) {b : Bytes}
    {a : α} (hph : s.phase f.path = .saving b a) : Sound job w (s.write f.path b a) := by
  obtain ⟨g, hg, hst⟩ := hs.stage f hf
  rw [hph] at hst
  obtain ⟨edits, hjob, hedit, hd, rfl, hx⟩ := hst.of_saving
  have hpath := SourceFile.edited_path hedit
  have hp : f.path ∈ w.paths := List.mem_map.mpr ⟨f, hf, rfl⟩
  have hold : (s.phase f.path).isReported = false := by rw [hph]; rfl
  have hends := Job.ending_of_some hjob
  -- No other task has touched what decides whether the write succeeds.
  have habove : ∀ d ∈ FileSystem.directoriesAbove f.path,
      s.workspace.disk.lookup? d = w.disk.lookup? d :=
    fun d hdir => hs.elsewhere d fun hmem => hw.apart f.path hp d hmem hdir
  have hnone : ∀ b, (f.path, b) ∉ s.written := by
    intro b hb
    have := ((hs.mem_written_of hw.nodup hf).mp hb).1
    rw [hph] at this
    cases this
  rcases FileSystem.write_congr g.text habove hx with ⟨e, hnow, hthen⟩ | ⟨hnow, hthen⟩
  · have hend : job.ending w f = ⟨.error (.io e), g, none⟩ := by
      rw [hends, Ending.ofCommit_of_refused hedit hd (hpath ▸ hthen)]
      rfl
    rw [PassState.write_of_error hnow]
    refine hs.of_local hf hold rfl (fun _ => rfl) rfl rfl (fun _ _ => rfl) (fun _ _ => rfl)
      ⟨g, hg, ?_⟩ rfl (fun _ _ _ => .rfl) (fun b => iff_of_false (hnone b) ?_) hw.nodup
    · show Stage job w f _ g (s.workspace.disk.lookup? f.path)
      rw [hx]
      exact Stage.ended_of hend
    · rw [hend]
      simp
  · have hend : job.ending w f = ⟨.ok a, { g with dirty := false }, some g.text⟩ := by
      rw [hends, Ending.ofCommit_of_written hedit hd (hpath.symm ▸ hthen)]
      rfl
    rw [PassState.write_of_ok hnow]
    refine hs.of_local hf hold rfl (fun _ => rfl) rfl rfl (fun _ _ => rfl) (fun q hq => ?_)
      ⟨g, hg, ?_⟩ rfl (fun q b hq => ?_) (fun b => ?_) hw.nodup
    · show (s.workspace.disk.put f.path _).lookup? q = _
      rw [FileSystem.lookup?_put _ _ _ (hw.placed _ hp), if_neg hq]
    · show Stage job w f _ g ((s.workspace.disk.put f.path _).lookup? f.path)
      rw [FileSystem.lookup?_put _ _ _ (hw.placed _ hp), if_pos rfl]
      exact .saved hjob hedit hd (hpath.symm ▸ hthen)
    · show (q, b) ∈ s.written ++ [(f.path, g.text)] ↔ _
      simp [hq]
    · show (f.path, b) ∈ s.written ++ [(f.path, g.text)] ↔ _
      rw [hend]
      simp [hnone, Phase.hasWritten, eq_comm]

/-- The task of a file takes note that it is saved. -/
theorem resume (hw : w.paths.Nodup) (hs : Sound job w s) {f : SourceFile} (hf : f ∈ w.files) {a : α}
    (hph : s.phase f.path = .saved a) :
    ∃ g, s.workspace.file? f.path = some g ∧ Sound job w (s.resume f.path g a) := by
  obtain ⟨g, hg, hst⟩ := hs.stage f hf
  rw [hph] at hst
  obtain ⟨edits, d, hjob, hedit, hd, hwrite, hx⟩ := hst.of_saved
  have hpath := SourceFile.edited_path hedit
  refine ⟨g, hg, ?_⟩
  have hend : job.ending w f = ⟨.ok a, { g with dirty := false }, some g.text⟩ := by
    rw [Job.ending_of_some hjob, Ending.ofCommit_of_written hedit hd hwrite]
    rfl
  have hset : ∀ q, (s.workspace.setFile { g with dirty := false }).file? q =
      if q = f.path then some { g with dirty := false } else s.workspace.file? q := by
    intro q
    rw [Workspace.file?_setFile ⟨g, hpath.symm ▸ hg⟩]
    exact hpath ▸ rfl
  refine hs.of_local hf (by rw [hph]; rfl) rfl (fun _ => rfl) rfl Workspace.paths_setFile
    (fun q hq => (hset q).trans (if_neg hq)) (fun _ _ => rfl)
    ⟨_, (hset _).trans (if_pos rfl), ?_⟩ rfl (fun _ _ _ => .rfl) (fun b => ?_) hw
  case refine_2 => exact (hs.mem_written_of hw hf).trans (by rw [hph]; rfl)
  show Stage job w f _ _ (s.workspace.disk.lookup? f.path)
  rw [hx]
  exact Stage.ended_of hend

/-- The task of a file reports. -/
theorem report (hw : w.paths.Nodup) (hs : Sound job w s) {f : SourceFile} (hf : f ∈ w.files)
    {r : Except Fault α} (hph : s.phase f.path = .ended r) : Sound job w (s.report f.path r) := by
  obtain ⟨g, hg, hst⟩ := hs.stage f hf
  rw [hph] at hst
  obtain ⟨rfl, rfl, hx⟩ := hst.of_ended
  have hfresh : f.path ∉ s.visits.map (·.1.path) := by
    intro hmem
    obtain ⟨v, hv, hvp⟩ := List.mem_map.mp hmem
    obtain ⟨f', hf', hrep, rfl⟩ := (hs.mem_visits v).mp hv
    rw [visitOf_path] at hvp
    rw [hvp, hph] at hrep
    cases hrep
  have hbehind : ∀ f' : SourceFile, ((s.report f.path (job.ending w f).result).phase f'.path).hasWritten =
      (s.phase f'.path).hasWritten := by
    intro f'
    show Phase.hasWritten (if f'.path = f.path then _ else _) = _
    by_cases h : f'.path = f.path
    · rw [if_pos h, h, hph]
      rfl
    · rw [if_neg h]
  refine ⟨hs.config, hs.paths, hs.elsewhere, fun f' hf' => ?_, fun q hq => ?_, ?_, fun v => ?_,
    fun q b => ?_⟩
  · by_cases h : f'.path = f.path
    · obtain rfl : f' = f := List.inj_on_of_nodup_map hw hf' hf h
      refine ⟨_, hg, ?_⟩
      show Stage job w f' (if f'.path = f'.path then _ else _) _ (s.workspace.disk.lookup? f'.path)
      rw [if_pos rfl, hx]
      exact .reported
    · obtain ⟨g', hg', hst'⟩ := hs.stage f' hf'
      refine ⟨g', hg', ?_⟩
      show Stage job w f' (if f'.path = f.path then _ else _) _ _
      rw [if_neg h]
      exact hst'
  · have hne : q ≠ f.path := fun e => hq (e ▸ List.mem_map.mpr ⟨f, hf, rfl⟩)
    show (if q = f.path then _ else s.phase q) = _
    rw [if_neg hne, hs.idle q hq]
  · show ((s.visits ++ [visitOf f.path _]).map fun v : Outcome × Option α => v.1.path).Nodup
    rw [List.map_append, List.map_singleton, visitOf_path]
    exact List.nodup_append.mpr ⟨hs.visits_nodup, by simp, by
      rintro q hq q' hq' rfl
      exact hfresh (List.mem_singleton.mp hq' ▸ hq)⟩
  · show v ∈ s.visits ++ [_] ↔ ∃ f' ∈ w.files, (Phase.isReported (if f'.path = f.path then _ else _)) = true ∧ _
    rw [List.mem_append, List.mem_singleton, hs.mem_visits]
    constructor
    · rintro (⟨f', hf', hrep, rfl⟩ | rfl)
      · refine ⟨f', hf', ?_, rfl⟩
        by_cases h : f'.path = f.path
        · rw [if_pos h]; rfl
        · rwa [if_neg h]
      · exact ⟨f, hf, by rw [if_pos rfl]; rfl, rfl⟩
    · rintro ⟨f', hf', hrep, rfl⟩
      by_cases h : f'.path = f.path
      · obtain rfl : f' = f := List.inj_on_of_nodup_map hw hf' hf h
        exact .inr rfl
      · rw [if_neg h] at hrep
        exact .inl ⟨f', hf', hrep, rfl⟩
  · simp only [hbehind]
    exact hs.mem_written q b

/-- A task that moves is the task of a file of the project. -/
theorem mem_of_advance (hs : Sound job w s) (h : s.advance limit job p = some s') : p ∈ w.paths := by
  by_contra hp
  unfold PassState.advance at h
  rw [hs.idle p hp] at h
  simp only [hs.paths, hp, false_and, if_false] at h
  cases h

/-- Every step keeps a pass sound. -/
theorem advance (hw : w.Separate) (hs : Sound job w s) (h : s.advance limit job p = some s') :
    Sound job w s' := by
  obtain ⟨f, hf, rfl⟩ := List.mem_map.mp (hs.mem_of_advance h)
  cases hph : s.phase f.path with
  | waiting =>
    unfold PassState.advance at h
    rw [hph] at h
    obtain ⟨-, hnext⟩ := Option.ite_none_right_eq_some.mp h
    cases hnext
    exact hs.enter hw.nodup hf hph
  | admitted =>
    obtain ⟨g, hg, hnext⟩ := hs.rewrite hw.nodup hf hph
    rw [PassState.advance_admitted hph hg] at h
    cases h
    exact hnext
  | saving b a =>
    rw [PassState.advance_saving hph] at h
    cases h
    exact hs.write hw hf hph
  | saved a =>
    obtain ⟨g, hg, hnext⟩ := hs.resume hw.nodup hf hph
    rw [PassState.advance_saved hph hg] at h
    cases h
    exact hnext
  | ended r =>
    rw [PassState.advance_ended hph] at h
    cases h
    exact hs.report hw.nodup hf hph
  | reported =>
    rw [PassState.advance_reported hph] at h
    cases h

/-- Every schedule keeps a pass sound. -/
theorem play (hw : w.Separate) (hs : Sound job w s) {σ : List Path}
    (h : PassState.play limit job σ s = some s') : Sound job w s' := by
  induction σ generalizing s with
  | nil => cases h; exact hs
  | cons p rest ih =>
    rw [PassState.play_cons] at h
    obtain ⟨s₁, hstep, hrest⟩ := Option.bind_eq_some_iff.mp h
    exact ih (hs.advance hw hstep) hrest

/-- A pass stops only when every task has reported: as long as one has not, some task can move. -/
theorem done_of_stuck (hw : w.Separate) (hs : Sound job w s) (hlimit : 1 ≤ limit)
    (h : s.Stuck limit job) : s.done = true := by
  -- A task that has begun can go on, so that all of them wait or have reported.
  have hresting : ∀ f ∈ w.files, (s.phase f.path).isAtWork = false := by
    intro f hf
    have hstop := h f.path
    cases hph : s.phase f.path with
    | waiting => rfl
    | admitted =>
      obtain ⟨g, hg, -⟩ := hs.rewrite hw.nodup hf hph
      rw [PassState.advance_admitted hph hg] at hstop
      cases hstop
    | saving b a => rw [PassState.advance_saving hph] at hstop; cases hstop
    | saved a =>
      obtain ⟨g, hg, -⟩ := hs.resume hw.nodup hf hph
      rw [PassState.advance_saved hph hg] at hstop
      cases hstop
    | ended r => rw [PassState.advance_ended hph] at hstop; cases hstop
    | reported => rfl
  have hfree : s.atWork s.workspace.paths < limit := by
    have hnone : s.workspace.paths.filter (fun p => (s.phase p).isAtWork) = [] := by
      rw [hs.paths, List.filter_eq_nil_iff]
      intro p hp
      obtain ⟨f, hf, rfl⟩ := List.mem_map.mp hp
      rw [hresting f hf]
      exact Bool.false_ne_true
    unfold PassState.atWork
    rw [hnone]
    exact hlimit
  unfold PassState.done
  rw [List.all_eq_true]
  intro p hp
  obtain ⟨f, hf, rfl⟩ := List.mem_map.mp (hs.paths ▸ hp)
  have hrest := hresting f hf
  cases hph : s.phase f.path with
  | waiting =>
    have hstop := h f.path
    rw [PassState.advance_waiting hph hp hfree] at hstop
    cases hstop
  | reported => rfl
  | admitted => rw [hph] at hrest; cases hrest
  | saving b a => rw [hph] at hrest; cases hrest
  | saved a => rw [hph] at hrest; cases hrest
  | ended r => rw [hph] at hrest; cases hrest

/-- However far a pass has got, it can be brought to its end. -/
theorem exists_done (hw : w.Separate) (hs : Sound job w s) (hlimit : 1 ≤ limit) :
    ∃ σ t, PassState.play limit job σ s = some t ∧ t.done = true := by
  -- By induction on the steps that are left: a pass that is not done is not stuck.
  generalize hn : s.stepsLeft w.paths = n
  induction n using Nat.strong_induction_on generalizing s with
  | _ n ih =>
    by_cases hdone : s.done = true
    · exact ⟨[], s, rfl, hdone⟩
    · have hmoves : ∃ p s', s.advance limit job p = some s' := by
        by_contra hnone
        push Not at hnone
        refine hdone (hs.done_of_stuck hw hlimit fun p => ?_)
        exact Option.eq_none_iff_forall_ne_some.mpr (hnone p)
      obtain ⟨p, s', hstep⟩ := hmoves
      have hlt := PassState.stepsLeft_lt_of_advance hstep (hs.mem_of_advance hstep)
      obtain ⟨σ, t, hplay, ht⟩ := ih _ (hn ▸ hlt) (hs.advance hw hstep) rfl
      exact ⟨p :: σ, t, by rw [PassState.play_cons, hstep]; exact hplay, ht⟩

end Sound

/-- How a pass that began in `w` has ended: every file as the work on it left it, in memory and on disk,
and one visit for each. -/
structure Completed (job : Job α) (w : Workspace) (s : PassState α) : Prop where
  config : s.workspace.config = w.config
  files : s.workspace.files = w.files.map fun f => (job.ending w f).file
  lookup? : ∀ f ∈ w.files, s.workspace.disk.lookup? f.path =
    (job.ending w f).entry (w.disk.lookup? f.path)
  elsewhere : ∀ q, q ∉ w.paths → s.workspace.disk.lookup? q = w.disk.lookup? q
  visits : s.visits.Perm (w.files.map fun f => visitOf f.path (job.ending w f).result)
  mem_written : ∀ q b, (q, b) ∈ s.written ↔
    ∃ f ∈ w.files, f.path = q ∧ (job.ending w f).written = some b

/-- A pass in which every task has reported has ended as the works on the single files do. -/
theorem Sound.completed {job : Job α} {w : Workspace} {s : PassState α} (hw : w.Separate)
    (hs : Sound job w s) (h : s.done = true) : Completed job w s := by
  have hall : ∀ f ∈ w.files, s.phase f.path = .reported := by
    intro f hf
    have hrep := List.all_eq_true.mp h f.path (hs.paths.symm ▸ List.mem_map.mpr ⟨f, hf, rfl⟩)
    cases hph : s.phase f.path with
    | reported => rfl
    | waiting => rw [hph] at hrep; cases hrep
    | admitted => rw [hph] at hrep; cases hrep
    | saving b a => rw [hph] at hrep; cases hrep
    | saved a => rw [hph] at hrep; cases hrep
    | ended r => rw [hph] at hrep; cases hrep
  have hend : ∀ f ∈ w.files, s.workspace.file? f.path = some (job.ending w f).file ∧
      s.workspace.disk.lookup? f.path = (job.ending w f).entry (w.disk.lookup? f.path) := by
    intro f hf
    obtain ⟨g, hg, hst⟩ := hs.stage f hf
    rw [hall f hf] at hst
    obtain ⟨rfl, hx⟩ := hst.of_reported
    exact ⟨hg, hx⟩
  refine ⟨hs.config, ?_, fun f hf => (hend f hf).2, hs.elsewhere, ?_, fun q b => ?_⟩
  · have hpaths : (w.files.map fun f => (job.ending w f).file).map (·.path) = w.paths := by
      rw [List.map_map]
      exact List.map_congr_left fun f _ => Job.ending_path job w f
    refine List.ext_getElem ?_ fun i hi hi' => ?_
    · have := congrArg List.length (hs.paths.trans hpaths.symm)
      rwa [Workspace.paths, List.length_map, List.length_map] at this
    · have hlen : i < w.files.length := by simpa using hi'
      have hmem := List.getElem_mem hlen
      have hsame : (s.workspace.files[i]).path = (w.files[i]).path := by
        have := congrArg (·[i]?) hs.paths
        simpa [Workspace.paths, hi, hlen] using this
      have hfound := Workspace.file?_of_mem (hs.paths ▸ hw.nodup) (List.getElem_mem hi)
      rw [hsame, (hend _ hmem).1] at hfound
      rw [List.getElem_map]
      exact (Option.some.inj hfound).symm
  · have hnodup : (w.files.map fun f => visitOf f.path (job.ending w f).result).Nodup := by
      refine List.Nodup.of_map (fun v : Outcome × Option α => v.1.path) ?_
      rw [List.map_map]
      simpa [Function.comp_def, Workspace.paths] using hw.nodup
    refine (List.perm_ext_iff_of_nodup (.of_map _ hs.visits_nodup) hnodup).mpr fun v => ?_
    rw [hs.mem_visits, List.mem_map]
    constructor
    · rintro ⟨f, hf, -, rfl⟩
      exact ⟨f, hf, rfl⟩
    · rintro ⟨f, hf, rfl⟩
      exact ⟨f, hf, by rw [hall f hf]; rfl, rfl⟩
  · rw [hs.mem_written]
    constructor
    · rintro ⟨f, hf, hpath, -, hb⟩
      exact ⟨f, hf, hpath, hb⟩
    · rintro ⟨f, hf, hpath, hb⟩
      exact ⟨f, hf, hpath, by rw [hall f hf]; rfl, hb⟩

namespace Completed

variable {job : Job α} {w : Workspace} {s : PassState α} {p : Path} {f : SourceFile}

theorem paths (h : Completed job w s) : s.workspace.paths = w.paths := by
  unfold Workspace.paths
  rw [h.files, List.map_map]
  exact List.map_congr_left fun f _ => Job.ending_path job w f

/-- Every file is in memory as the work on it left it. -/
theorem file? (h : Completed job w s) (hw : w.paths.Nodup) (hf : w.file? p = some f) :
    s.workspace.file? p = some (job.ending w f).file := by
  obtain rfl := Workspace.path_of_file? hf
  rw [← Job.ending_path job w f]
  refine Workspace.file?_of_mem (h.paths ▸ hw) ?_
  rw [h.files]
  exact List.mem_map.mpr ⟨f, Workspace.mem_of_file? hf, rfl⟩

/-- What is reported of a path is how the work on the file there ended. -/
theorem mem_visits_iff (h : Completed job w s) (hw : w.paths.Nodup) {v : Outcome × Option α} :
    v ∈ s.visits ↔
      ∃ f, w.file? v.1.path = some f ∧ v = visitOf v.1.path (job.ending w f).result := by
  rw [h.visits.mem_iff, List.mem_map]
  constructor
  · rintro ⟨f, hf, rfl⟩
    rw [visitOf_path]
    exact ⟨f, Workspace.file?_of_mem hw hf, rfl⟩
  · rintro ⟨f, hf, hv⟩
    refine ⟨f, Workspace.mem_of_file? hf, ?_⟩
    rw [Workspace.path_of_file? hf, ← hv]

theorem mem_written_iff (h : Completed job w s) (hw : w.paths.Nodup) {b : Bytes} :
    (p, b) ∈ s.written ↔ ∃ f, w.file? p = some f ∧ (job.ending w f).written = some b := by
  rw [h.mem_written]
  constructor
  · rintro ⟨f, hf, rfl, hb⟩
    exact ⟨f, Workspace.file?_of_mem hw hf, hb⟩
  · rintro ⟨f, hf, hb⟩
    exact ⟨f, Workspace.mem_of_file? hf, Workspace.path_of_file? hf, hb⟩

/-- A failure is reported of a file exactly when the work on it failed. -/
theorem error_mem_visits_iff (h : Completed job w s) (hw : w.paths.Nodup) {e : Fault} :
    (⟨p, some e⟩, none) ∈ s.visits ↔
      ∃ f, w.file? p = some f ∧ (job.ending w f).result = .error e := by
  rw [h.mem_visits_iff hw]
  refine exists_congr fun f => and_congr_right fun _ => ?_
  cases (job.ending w f).result with
  | ok a => simp [visitOf]
  | error e' => simp [visitOf, eq_comm]

/-- A value is reported of a file exactly when the work on it gave that value. -/
theorem ok_mem_visits_iff (h : Completed job w s) (hw : w.paths.Nodup) {a : α} :
    (⟨p, none⟩, some a) ∈ s.visits ↔
      ∃ f, w.file? p = some f ∧ (job.ending w f).result = .ok a := by
  rw [h.mem_visits_iff hw]
  refine exists_congr fun f => and_congr_right fun _ => ?_
  cases (job.ending w f).result with
  | ok a' => simp [visitOf, eq_comm]
  | error e => simp [visitOf]

end Completed
end Codemod
