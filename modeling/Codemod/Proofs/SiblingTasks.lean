import Codemod.Proofs.FanOut

/-!
# Failing tasks and their siblings

A task that fails reports before it gives its place back, and a task that ends well reports after it. All
else that a task does to the others is what its work does to the shared state before it ends, and that is
there whether the work fails or not. Hence the siblings of a failing task cannot tell that it failed: what
happens to them in a run happens to them in a run in which that task ends well, and the other way round.

The two runs need not follow the same schedule. Where a task that ends well gives its place back, the one
that fails reports first, so it makes two steps there and none when the other one reports.

Main statements:

* `Simulates.follow` says that a run is followed step by step by a run of other tasks, if each step of a
  task can be followed by steps of the same task;
* `mended_simulates` and `simulates_mended` say that tasks that fail and the same tasks without their
  failures follow each other.
-/

namespace Codemod

variable {σ τ : Type} {n : Nat}

/-- The same turn without the fault. -/
def Turn.mended : Turn τ → Turn τ
  | pauses x => pauses x
  | ends _ => ends none

/-- Work that does the same and ends well where the other fails. -/
def Routine.mended (r : Routine σ τ) : Routine σ τ where
  start := r.start
  resume x w := ((r.resume x w).1.mended, (r.resume x w).2)

namespace Routine

variable {r : Routine σ τ} {x y : τ} {w w' : σ} {lines : Journal} {e : Option Fault}

theorem mended_pauses (h : r.resume x w = (.pauses y, w', lines)) :
    r.mended.resume x w = (.pauses y, w', lines) := by
  simp only [mended, h, Turn.mended]

theorem mended_ends (h : r.resume x w = (.ends e, w', lines)) :
    r.mended.resume x w = (.ends none, w', lines) := by
  simp only [mended, h, Turn.mended]

end Routine

namespace FanOut

/-- The same tasks, of which those in `c` do not fail. -/
def mended (f : FanOut σ τ n) (c : Fin n → Bool) : FanOut σ τ n :=
  { f with routine := fun i => if c i then (f.routine i).mended else f.routine i }

/-! ### Runs that follow runs -/

/-- Two runs that agree about the shared state and about all tasks but those in `c`. The stages of these
are related by `R`. -/
structure Alike (R : Fin n → Stage τ → Stage τ → Prop) (c : Fin n → Bool) (s s' : State σ τ n) :
    Prop where
  world : s'.world = s.world
  stage : ∀ i, R i (s.stage i) (s'.stage i)
  events : ∀ i, c i = false → s'.eventsOf i = s.eventsOf i

/-- Whatever a task of `f` does in one step, the same task of `g` can do alone, and it waits, has a place
and is finished where the stages tell. -/
structure Simulates (R : Fin n → Stage τ → Stage τ → Prop) (c : Fin n → Bool) (f g : FanOut σ τ n) :
    Prop where
  limit : g.limit = f.limit
  start : ∀ i, R i .waiting .waiting
  waiting : ∀ {i a b}, R i a b → b.isWaiting = true → a.isWaiting = true
  holds : ∀ {i a b}, R i a b → b.holds = true → a.holds = true
  finished : ∀ {i a b}, R i a b → a.isFinished = true → b.isFinished = true
  step : ∀ {i w a b m}, R i a b → a.Moves f.name (f.path i) (f.routine i) w m →
    ∃ m', b.Goes g.name (g.path i) (g.routine i) w m' ∧ R i m.stage m'.stage ∧ m'.world = m.world ∧
      (c i = false → m'.events = m.events)

section

variable {R : Fin n → Stage τ → Stage τ → Prop} {c : Fin n → Bool} {f g : FanOut σ τ n}
  {s s' t : State σ τ n} {i : Fin n} {schedule : List (Fin n)}

theorem Alike.after (h : Alike R c s s') {m m' : Move σ τ} (hstage : R i m.stage m'.stage)
    (hworld : m'.world = m.world) (hevents : c i = false → m'.events = m.events) :
    Alike R c (s.after i m) (s'.after i m') where
  world := hworld
  stage k := by
    by_cases hk : k = i
    · subst hk
      rwa [State.after_stage_self, State.after_stage_self]
    · rw [State.after_stage_of_ne _ hk, State.after_stage_of_ne _ hk]
      exact h.stage k
  events k hc := by
    rw [State.eventsOf_after, State.eventsOf_after, h.events k hc]
    by_cases hk : k = i
    · subst hk
      rw [hevents hc]
    · rw [if_neg hk, if_neg hk]

theorem Alike.done (h : Alike R c s s') (hsim : Simulates R c f g) (hdone : s.done = true) :
    s'.done = true :=
  State.done_iff.mpr fun i => hsim.finished (h.stage i) (State.done_iff.mp hdone i)

namespace Simulates

/-- Where the one task may move, the other may. -/
theorem admits (hsim : Simulates R c f g) (h : Alike R c s s') (hadmits : f.Admits s i) :
    g.Admits s' i := by
  intro hwait
  have hsub : s'.holders ⊆ s.holders := fun k hk =>
    State.mem_holders.mpr (hsim.holds (h.stage k) (State.mem_holders.mp hk))
  rw [hsim.limit]
  exact (Finset.card_le_card hsub).trans_lt (hadmits (hsim.waiting (h.stage i) hwait))

/-- One step is followed. -/
theorem follow_advance (hsim : Simulates R c f g) (h : Alike R c s s')
    (hstep : f.advance s i = some t) :
    ∃ schedule' t', g.play schedule' s' = some t' ∧ Alike R c t t' := by
  obtain ⟨hadmits, m, hm, rfl⟩ := advance_eq_some.mp hstep
  obtain ⟨m', hgoes, hstage, hworld, hevents⟩ := hsim.step (h.stage i) hm
  rw [← h.world] at hgoes
  obtain ⟨schedule', hplay⟩ := exists_play_of_goes (hsim.admits h hadmits) hgoes
  exact ⟨schedule', _, hplay, h.after hstage hworld hevents⟩

/-- A whole schedule is followed. -/
theorem follow (hsim : Simulates R c f g) (h : Alike R c s s') (hplay : f.play schedule s = some t) :
    ∃ schedule' t', g.play schedule' s' = some t' ∧ Alike R c t t' := by
  induction schedule generalizing s s' with
  | nil =>
    cases hplay
    exact ⟨[], s', rfl, h⟩
  | cons i rest ih =>
    rw [play_cons] at hplay
    obtain ⟨s₁, hstep, hrest⟩ := Option.bind_eq_some_iff.mp hplay
    obtain ⟨first, s₁', hfirst, h₁⟩ := hsim.follow_advance h hstep
    obtain ⟨more, t', hmore, ht⟩ := ih h₁ hrest
    refine ⟨first ++ more, t', ?_, ht⟩
    rw [play_append, hfirst]
    exact hmore

end Simulates

end

/-- What the tasks outside `c` can tell of two runs is the same, and the second one is done if the first
one is. -/
structure SameForOthers (c : Fin n → Bool) (s s' : State σ τ n) : Prop where
  world : s'.world = s.world
  events : ∀ i, c i = false → s'.eventsOf i = s.eventsOf i
  done : s.done = true → s'.done = true

theorem Simulates.exists_play {R : Fin n → Stage τ → Stage τ → Prop} {c : Fin n → Bool}
    {f g : FanOut σ τ n} (hsim : Simulates R c f g) {w : σ} {j : Journal} {schedule : List (Fin n)}
    {s : State σ τ n} (h : f.play schedule (.start w j) = some s) :
    ∃ schedule' s', g.play schedule' (.start w j) = some s' ∧ SameForOthers c s s' := by
  have hstart : Alike R c (State.start w j) (State.start w j) := ⟨rfl, hsim.start, fun _ _ => rfl⟩
  obtain ⟨schedule', s', hplay, hs⟩ := hsim.follow hstart h
  exact ⟨schedule', s', hplay, hs.world, hs.events, hs.done hsim⟩

/-! ### Tasks that fail, and the same tasks without their failures -/

namespace Stage

/-- The stage of a task that does not fail when the same task, which does, is at the given stage. -/
def mended : Stage τ → Stage τ
  | ended _ => ended none
  | reported _ => released
  | finished _ => finished none
  | st => st

/-- The stages of a task that does not fail, and of the same task which may, when the second follows the
first. It has finished when the first one has given its place back and has still to report. -/
inductive Meets : Stage τ → Stage τ → Prop where
  | waiting : Meets waiting waiting
  | admitted : Meets admitted admitted
  | running (x : τ) : Meets (running x) (running x)
  | ended (e : Option Fault) : Meets (ended none) (ended e)
  | released : Meets released released
  | early (e : Fault) : Meets released (finished (some e))
  | finished (e : Option Fault) : Meets (finished none) (finished e)

section

variable {name : String} {p : Path} {r : Routine σ τ} {w : σ} {st a b : Stage τ} {m : Move σ τ}

/-- Work without its failure makes the same step. -/
theorem Moves.mended (h : st.Moves name p r w m) :
    ∃ m', st.mended.Moves name p r.mended w m' ∧ m'.stage = m.stage.mended ∧ m'.world = m.world := by
  cases h with
  | acquire => exact ⟨_, .acquire, rfl, rfl⟩
  | begin => exact ⟨_, .begin, rfl, rfl⟩
  | pause hx => exact ⟨_, .pause (Routine.mended_pauses hx), rfl, rfl⟩
  | close hx => exact ⟨_, .close (Routine.mended_ends hx), rfl, rfl⟩
  | complain | release => exact ⟨_, .release, rfl, rfl⟩
  | leave | report => exact ⟨_, .report, rfl, rfl⟩

/-- A step of the work without its failure is followed by the work itself. -/
theorem Meets.follow (hab : Meets a b) (h : a.Moves name p r.mended w m) :
    ∃ m', b.Goes name p r w m' ∧ Meets m.stage m'.stage ∧ m'.world = m.world := by
  cases h with
  | acquire =>
    cases hab
    exact ⟨_, Moves.acquire.goes, .admitted, rfl⟩
  | begin =>
    cases hab
    exact ⟨_, Moves.begin.goes, .running _, rfl⟩
  | @pause x _ _ _ hx =>
    cases hab
    rcases hr : r.resume x w with ⟨y | e, w', lines⟩
    · cases (Routine.mended_pauses hr).symm.trans hx
      exact ⟨_, (Moves.pause hr).goes, .running _, rfl⟩
    · cases (Routine.mended_ends hr).symm.trans hx
  | @close x _ _ _ hx =>
    cases hab
    rcases hr : r.resume x w with ⟨y | e, w', lines⟩
    · cases (Routine.mended_pauses hr).symm.trans hx
    · cases (Routine.mended_ends hr).symm.trans hx
      exact ⟨_, (Moves.close hr).goes, .ended _, rfl⟩
  | release =>
    cases hab with
    | ended e =>
      cases e with
      | none => exact ⟨_, Moves.release.goes, .released, rfl⟩
      | some e => exact ⟨_, .step (.complain e) (Moves.leave e).goes, .early e, rfl⟩
  | complain | leave => cases hab
  | report =>
    cases hab with
    | released => exact ⟨_, Moves.report.goes, .finished _, rfl⟩
    | early e => exact ⟨_, .stay w _, .finished _, rfl⟩

end

end Stage

/-- Tasks without their failures follow the tasks themselves. -/
theorem mended_simulates (f : FanOut σ τ n) (c : Fin n → Bool) :
    Simulates (fun i a b => b = if c i then a.mended else a) c f (f.mended c) where
  limit := rfl
  start i := by cases c i <;> rfl
  waiting {i a b} hb hwait := by
    cases hc : c i
    · simpa [hb, hc] using hwait
    · cases a <;> simp_all [Stage.mended, Stage.isWaiting]
  holds {i a b} hb hholds := by
    cases hc : c i
    · simpa [hb, hc] using hholds
    · cases a <;> simp_all [Stage.mended, Stage.holds]
  finished {i a b} hb hfin := by
    cases hc : c i
    · simpa [hb, hc] using hfin
    · cases a <;> simp_all [Stage.mended, Stage.isFinished]
  step {i w a b m} hb hm := by
    subst hb
    cases hc : c i with
    | false => exact ⟨m, by simpa [mended, hc] using hm.goes, by simp, rfl, fun _ => rfl⟩
    | true =>
      obtain ⟨m', hm', hstage, hworld⟩ := hm.mended
      exact ⟨m', by simpa [mended, hc] using hm'.goes, by simpa using hstage, hworld, by simp⟩

/-- Tasks follow the same tasks without their failures. -/
theorem simulates_mended (f : FanOut σ τ n) (c : Fin n → Bool) :
    Simulates (fun i a b => if c i then Stage.Meets a b else b = a) c (f.mended c) f where
  limit := rfl
  start i := by
    cases c i
    · rfl
    · exact .waiting
  waiting {i a b} hab hwait := by
    cases hc : c i <;> simp only [hc, if_true, Bool.false_eq_true, if_false] at hab
    · exact hab ▸ hwait
    · cases hab <;> simp_all [Stage.isWaiting]
  holds {i a b} hab hholds := by
    cases hc : c i <;> simp only [hc, if_true, Bool.false_eq_true, if_false] at hab
    · exact hab ▸ hholds
    · cases hab <;> simp_all [Stage.holds]
  finished {i a b} hab hfin := by
    cases hc : c i <;> simp only [hc, if_true, Bool.false_eq_true, if_false] at hab
    · exact hab ▸ hfin
    · cases hab <;> simp_all [Stage.isFinished]
  step {i w a b m} hab hm := by
    cases hc : c i <;> simp only [hc, mended, if_true, Bool.false_eq_true, if_false] at hab hm ⊢
    · subst hab
      exact ⟨m, hm.goes, rfl, rfl, fun _ => rfl⟩
    · obtain ⟨m', hgoes, hmeets, hworld⟩ := hab.follow hm
      exact ⟨m', hgoes, hmeets, hworld, by simp⟩

end FanOut
end Codemod
