import Mathlib.Data.DFinsupp.WellFounded
import Mathlib.Data.Fintype.Basic
import Codemod.Run

/-!
# Tasks under a limit

A pass starts one task for every file. A task waits for a place among the `limit` tasks that may work at a
time, runs its work on the file, and puts an outcome into the report. Work that fails is reported while its
task still holds the place; work that ends well is reported after the place was given back. Between any two
steps of one task, and whenever its work pauses, the other tasks may move. A schedule is the list of the
tasks that move, one after the other.

The work may be anything: it shares a state with the other work, appends lines to the journal, pauses as
often as it likes, and ends or fails. Nothing is asked of the shared state.

Every step takes its own task one stage further, and the events of a task are those of its stage. This
decides what the history of a run holds, whatever the schedule was.

Main statements:

* `Sound.advance` says that every step keeps a run sound, and `Sound.play` that every schedule does;
* `Sound.card_underWay_le` says that no more tasks than the limit are under way;
* `exists_advance` says that a run that is not done can go on, and `acc_start` that it does not go on for
  ever when the work of every task ends;
* `Sound.exists_fault` says what has happened to a task of a run that is done, and `State.outcomes_perm`
  what the report of such a run holds.
-/

namespace Codemod

/-- How a stretch of work closes. -/
inductive Turn (τ : Type) where
  /-- The work pauses, and this is left of it. -/
  | pauses (rest : τ)
  /-- The work is over, with a fault or without. -/
  | ends (fault : Option Fault)

/-- The work on one file. The values of `τ` tell what is left of it; `σ` is the state that it shares with the
work on other files. -/
structure Routine (σ τ : Type) where
  start : τ
  /-- What the work does from here to its next pause, and the lines that it appends to the journal. -/
  resume : τ → σ → Turn τ × σ × Journal

namespace Routine

variable {σ τ : Type}

/-- What may be left of the work at a pause. -/
inductive Reaches (r : Routine σ τ) : τ → Prop where
  | start : Reaches r r.start
  | resume {x y : τ} {w : σ} (hx : Reaches r x) (h : (r.resume x w).1 = .pauses y) : Reaches r y

/-- Whether the work can end so. -/
def CanEnd (r : Routine σ τ) (fault : Option Fault) : Prop :=
  ∃ x w, r.Reaches x ∧ (r.resume x w).1 = .ends fault

/-- One pause after another. -/
def Follows (r : Routine σ τ) (y x : τ) : Prop :=
  ∃ w, (r.resume x w).1 = .pauses y

/-- Whether the work comes to an end, whatever happens to the shared state during its pauses. -/
def Terminates (r : Routine σ τ) : Prop :=
  Acc r.Follows r.start

end Routine

/-- The tasks of a pass, one for every file. -/
structure FanOut (σ τ : Type) (n : Nat) where
  name : String
  limit : Nat
  path : Fin n → Path
  routine : Fin n → Routine σ τ

namespace FanOut

variable {σ τ : Type} {n : Nat}

/-- The tasks of a job on some files. A file that is listed twice has two tasks. -/
def ofJob (name : String) (limit : Nat) (files : List Path) (job : Path → Routine σ τ) :
    FanOut σ τ files.length :=
  ⟨name, limit, files.get, fun i => job (files.get i)⟩

/-- How far a task has got. -/
inductive Stage (τ : Type) where
  /-- It waits for a place. -/
  | waiting
  /-- It has a place, and its work has not begun. -/
  | admitted
  /-- Its work has begun, and this is left of it. -/
  | running (rest : τ)
  /-- Its work is over. -/
  | ended (fault : Option Fault)
  /-- Its failure is in the report, and it still has its place. -/
  | reported (fault : Fault)
  /-- Its work ended well, and it has given its place back. -/
  | released
  /-- Its outcome is in the report, and it has no place. -/
  | finished (fault : Option Fault)

/-- What happens to a task that can be seen from outside. -/
inductive Event where
  | begins
  | ends (fault : Option Fault)
  | reports (outcome : Outcome)
  deriving DecidableEq

/-- The outcome that an event puts into the report. -/
def Event.outcome? : Event → Option Outcome
  | .reports o => some o
  | _ => none

/-- What one step of a task brings about. -/
structure Move (σ τ : Type) where
  stage : Stage τ
  world : σ
  lines : Journal
  events : List Event

namespace Stage

/-- Whether a task at this stage has a place. -/
def holds : Stage τ → Bool
  | waiting | released | finished _ => false
  | _ => true

/-- Whether a task at this stage waits for a place. -/
def isWaiting : Stage τ → Bool
  | waiting => true
  | _ => false

/-- Whether a task at this stage has nothing more to do. -/
def isFinished : Stage τ → Bool
  | finished _ => true
  | _ => false

/-- What has happened to the task of a file that is at this stage. -/
def events (p : Path) : Stage τ → List Event
  | waiting | admitted => []
  | running _ => [.begins]
  | ended e => [.begins, .ends e]
  | reported e => [.begins, .ends (some e), .reports ⟨p, some e⟩]
  | released => [.begins, .ends none]
  | finished e => [.begins, .ends e, .reports ⟨p, e⟩]

/-- Whether work can bring its task to this stage. -/
def Genuine (r : Routine σ τ) : Stage τ → Prop
  | waiting | admitted => True
  | running x => r.Reaches x
  | ended e | finished e => r.CanEnd e
  | reported e => r.CanEnd (some e)
  | released => r.CanEnd none

/-- The next step of a task. A failure is reported before the place is given back, and all else after it. -/
def move (name : String) (p : Path) (r : Routine σ τ) (w : σ) : Stage τ → Option (Move σ τ)
  | waiting => some ⟨admitted, w, [], []⟩
  | admitted => some ⟨running r.start, w, [], [.begins]⟩
  | running x =>
    match r.resume x w with
    | (.pauses y, w, lines) => some ⟨running y, w, lines, []⟩
    | (.ends e, w, lines) => some ⟨ended e, w, lines, [.ends e]⟩
  | ended (some e) =>
    some ⟨reported e, w, [⟨.error, s!"[{name}] {p.toString}: {e.message}"⟩], [.reports ⟨p, some e⟩]⟩
  | ended none => some ⟨released, w, [], []⟩
  | reported e => some ⟨finished (some e), w, [], []⟩
  | released => some ⟨finished none, w, [], [.reports ⟨p, none⟩]⟩
  | finished _ => none

/-- The steps that a task can make. -/
inductive Moves (name : String) (p : Path) (r : Routine σ τ) (w : σ) : Stage τ → Move σ τ → Prop where
  | acquire : Moves name p r w waiting ⟨admitted, w, [], []⟩
  | begin : Moves name p r w admitted ⟨running r.start, w, [], [.begins]⟩
  | pause {x y : τ} {w' : σ} {lines : Journal} (h : r.resume x w = (.pauses y, w', lines)) :
      Moves name p r w (running x) ⟨running y, w', lines, []⟩
  | close {x : τ} {e : Option Fault} {w' : σ} {lines : Journal}
      (h : r.resume x w = (.ends e, w', lines)) :
      Moves name p r w (running x) ⟨ended e, w', lines, [.ends e]⟩
  | complain (e : Fault) : Moves name p r w (ended (some e)) ⟨reported e, w,
      [⟨.error, s!"[{name}] {p.toString}: {e.message}"⟩], [.reports ⟨p, some e⟩]⟩
  | release : Moves name p r w (ended none) ⟨released, w, [], []⟩
  | leave (e : Fault) : Moves name p r w (reported e) ⟨finished (some e), w, [], []⟩
  | report : Moves name p r w released ⟨finished none, w, [], [.reports ⟨p, none⟩]⟩

section

variable {name : String} {p : Path} {r : Routine σ τ} {w : σ} {st : Stage τ} {m : Move σ τ}

theorem move_eq_some : st.move name p r w = some m ↔ Moves name p r w st m := by
  constructor
  · intro h
    cases st with
    | waiting => cases h; exact .acquire
    | admitted => cases h; exact .begin
    | running x =>
      rcases hx : r.resume x w with ⟨y | e, w', lines⟩
      · simp only [move, hx] at h
        cases h
        exact .pause hx
      · simp only [move, hx] at h
        cases h
        exact .close hx
    | ended e =>
      cases e with
      | none => cases h; exact .release
      | some e => cases h; exact .complain e
    | reported e => cases h; exact .leave e
    | released => cases h; exact .report
    | finished e => cases h
  · intro h
    cases h with
    | pause hx | close hx => simp only [move, hx]
    | _ => rfl

theorem exists_moves (name : String) (p : Path) (r : Routine σ τ) (w : σ) (h : st.isFinished = false) :
    ∃ m, Moves name p r w st m := by
  cases st with
  | waiting => exact ⟨_, .acquire⟩
  | admitted => exact ⟨_, .begin⟩
  | running x =>
    rcases hx : r.resume x w with ⟨y | e, w', lines⟩
    · exact ⟨_, .pause hx⟩
    · exact ⟨_, .close hx⟩
  | ended e =>
    cases e with
    | none => exact ⟨_, .release⟩
    | some e => exact ⟨_, .complain e⟩
  | reported e => exact ⟨_, .leave e⟩
  | released => exact ⟨_, .report⟩
  | finished e => cases h

namespace Moves

/-- No step leads back to waiting. -/
theorem isWaiting_eq_false (h : Moves name p r w st m) : m.stage.isWaiting = false := by
  cases h <;> rfl

/-- The events of a step are those that the new stage has over the old one. -/
theorem events_eq (h : Moves name p r w st m) : m.stage.events p = st.events p ++ m.events := by
  cases h <;> rfl

/-- Only the step from waiting takes a place. -/
theorem holds_of_holds (h : Moves name p r w st m) (hm : m.stage.holds = true) :
    st.holds = true ∨ st.isWaiting = true := by
  cases h with
  | acquire => exact .inr rfl
  | begin | pause | close | complain => exact .inl rfl
  | release | leave | report => cases hm

theorem genuine (h : Moves name p r w st m) (hst : st.Genuine r) : m.stage.Genuine r := by
  cases h with
  | acquire => trivial
  | begin => exact .start
  | pause hx => exact .resume hst (congrArg Prod.fst hx)
  | close hx => exact ⟨_, w, hst, congrArg Prod.fst hx⟩
  | complain | release | leave | report => exact hst

end Moves

end

/-- What a task can bring about while no other task moves, as one move. -/
inductive Goes (name : String) (p : Path) (r : Routine σ τ) : σ → Stage τ → Move σ τ → Prop where
  | stay (w : σ) (st : Stage τ) : Goes name p r w st ⟨st, w, [], []⟩
  | step {w : σ} {st : Stage τ} {m m' : Move σ τ} (hm : Moves name p r w st m)
      (hrest : Goes name p r m.world m.stage m') :
      Goes name p r w st ⟨m'.stage, m'.world, m.lines ++ m'.lines, m.events ++ m'.events⟩

/-- A step alone. -/
theorem Moves.goes {name : String} {p : Path} {r : Routine σ τ} {w : σ} {st : Stage τ} {m : Move σ τ}
    (h : Moves name p r w st m) : Goes name p r w st m := by
  simpa using Goes.step h (.stay m.world m.stage)

/-- One stage of a task after another. -/
def After (r : Routine σ τ) (b a : Stage τ) : Prop :=
  ∃ name p w m, Moves name p r w a m ∧ m.stage = b

theorem acc_of_moves {r : Routine σ τ} {st : Stage τ}
    (h : ∀ name p w m, Moves name p r w st m → Acc (After r) m.stage) : Acc (After r) st := by
  refine ⟨_, fun b hb => ?_⟩
  obtain ⟨name, p, w, m, hm, rfl⟩ := hb
  exact h name p w m hm

/-- A task has finitely many steps before it if its work comes to an end. -/
theorem acc_waiting {r : Routine σ τ} (hr : r.Terminates) : Acc (After r) waiting := by
  have hfinished : ∀ e, Acc (After r) (finished e) := fun e => acc_of_moves fun _ _ _ _ hm => by cases hm
  have hreleased : Acc (After r) released := acc_of_moves fun _ _ _ _ hm => by
    cases hm
    exact hfinished _
  have hreported : ∀ e, Acc (After r) (reported e) := fun e => acc_of_moves fun _ _ _ _ hm => by
    cases hm
    exact hfinished _
  have hended : ∀ e, Acc (After r) (ended e) := fun e => acc_of_moves fun _ _ _ _ hm => by
    cases hm with
    | complain e => exact hreported e
    | release => exact hreleased
  have hrunning : ∀ x, Acc r.Follows x → Acc (After r) (running x) := by
    intro x hx
    induction hx with
    | intro x _ ih =>
      refine acc_of_moves fun _ _ w _ hm => ?_
      cases hm with
      | pause h => exact ih _ ⟨w, congrArg Prod.fst h⟩
      | close h => exact hended _
  have hadmitted : Acc (After r) admitted := acc_of_moves fun _ _ _ _ hm => by
    cases hm
    exact hrunning _ hr
  refine acc_of_moves fun _ _ _ _ hm => ?_
  cases hm
  exact hadmitted

end Stage

/-- A run under way. -/
structure State (σ τ : Type) (n : Nat) where
  world : σ
  journal : Journal
  stage : Fin n → Stage τ
  history : List (Fin n × Event)

namespace State

/-- A run in which no task has moved. -/
def start (w : σ) (j : Journal) : State σ τ n := ⟨w, j, fun _ => .waiting, []⟩

/-- The tasks that have a place. -/
def holders (s : State σ τ n) : Finset (Fin n) :=
  Finset.univ.filter fun i => (s.stage i).holds = true

/-- What has happened to a task, in order. -/
def eventsOf (s : State σ τ n) (i : Fin n) : List Event :=
  (s.history.filter fun e => e.1 = i).map (·.2)

/-- The outcomes that are in the report, in the order in which they got there. -/
def outcomes (s : State σ τ n) : List Outcome :=
  s.history.filterMap fun e => e.2.outcome?

/-- Whether the work of a task has begun and not ended. -/
def UnderWay (s : State σ τ n) (i : Fin n) : Prop :=
  .begins ∈ s.eventsOf i ∧ ∀ e, .ends e ∉ s.eventsOf i

/-- Whether no task has anything more to do. -/
def done (s : State σ τ n) : Bool :=
  (List.finRange n).all fun i => (s.stage i).isFinished

/-- The run after a step of one task. -/
def after (s : State σ τ n) (i : Fin n) (m : Move σ τ) : State σ τ n :=
  ⟨m.world, s.journal ++ m.lines, Function.update s.stage i m.stage, s.history ++ m.events.map (i, ·)⟩

@[simp] theorem mem_holders {s : State σ τ n} {i : Fin n} : i ∈ s.holders ↔ (s.stage i).holds = true := by
  simp [holders]

theorem done_iff {s : State σ τ n} : s.done = true ↔ ∀ i, (s.stage i).isFinished = true := by
  simp [done, List.all_eq_true]

@[simp] theorem after_stage_self (s : State σ τ n) (i : Fin n) (m : Move σ τ) :
    (s.after i m).stage i = m.stage :=
  Function.update_self ..

theorem after_stage_of_ne (s : State σ τ n) {i k : Fin n} (h : k ≠ i) (m : Move σ τ) :
    (s.after i m).stage k = s.stage k :=
  Function.update_of_ne h ..

/-- Two steps of one task are one. -/
theorem after_after (s : State σ τ n) (i : Fin n) (m m' : Move σ τ) :
    (s.after i m).after i m' =
      s.after i ⟨m'.stage, m'.world, m.lines ++ m'.lines, m.events ++ m'.events⟩ := by
  simp [after, Function.update_idem]

/-- A step that brings nothing about. -/
theorem after_stay (s : State σ τ n) (i : Fin n) : s.after i ⟨s.stage i, s.world, [], []⟩ = s := by
  simp [after]

theorem eventsOf_after (s : State σ τ n) (i k : Fin n) (m : Move σ τ) :
    (s.after i m).eventsOf k = s.eventsOf k ++ if k = i then m.events else [] := by
  unfold eventsOf after
  rw [List.filter_append, List.map_append, List.filter_map]
  by_cases h : k = i
  · subst h
    simp [Function.comp_def]
  · simp [Function.comp_def, h, Ne.symm h]

theorem outcomes_after (s : State σ τ n) (i : Fin n) (m : Move σ τ) :
    (s.after i m).outcomes = s.outcomes ++ m.events.filterMap Event.outcome? := by
  simp [outcomes, after, List.filterMap_map]

end State

/-- Whether the limit lets a task move. -/
def Admits (f : FanOut σ τ n) (s : State σ τ n) (i : Fin n) : Prop :=
  (s.stage i).isWaiting = true → s.holders.card < f.limit

instance (f : FanOut σ τ n) (s : State σ τ n) (i : Fin n) : Decidable (f.Admits s i) :=
  inferInstanceAs (Decidable (_ → _))

/-- The next step of one task, if it can move. -/
def advance (f : FanOut σ τ n) (s : State σ τ n) (i : Fin n) : Option (State σ τ n) :=
  if f.Admits s i then ((s.stage i).move f.name (f.path i) (f.routine i) s.world).map (s.after i) else none

/-- The steps of a schedule, if each of them is allowed. -/
def play (f : FanOut σ τ n) (schedule : List (Fin n)) (s : State σ τ n) : Option (State σ τ n) :=
  schedule.foldlM f.advance s

/-- The report of a run. -/
def report (f : FanOut σ τ n) (s : State σ τ n) : Report := ⟨f.name, s.outcomes⟩

/-- A run along a schedule to its end. It gives the report when no task has anything more to do, and the
line about the report comes last. -/
def run (f : FanOut σ τ n) (schedule : List (Fin n)) (w : σ) (j : Journal) :
    Option (Report × σ × Journal) :=
  match f.play schedule (.start w j) with
  | some s =>
    if s.done then some (f.report s, s.world, s.journal ++ [⟨.info, (f.report s).summary⟩]) else none
  | none => none

section

variable {f : FanOut σ τ n} {s t : State σ τ n} {i : Fin n} {schedule : List (Fin n)}

theorem advance_eq_some : f.advance s i = some t ↔ f.Admits s i ∧
    ∃ m, (s.stage i).Moves f.name (f.path i) (f.routine i) s.world m ∧ s.after i m = t := by
  unfold advance
  rw [Option.ite_none_right_eq_some, Option.map_eq_some_iff]
  simp only [Stage.move_eq_some]

@[simp] theorem play_nil : f.play [] s = some s := rfl

theorem play_cons : f.play (i :: schedule) s = (f.advance s i).bind (f.play schedule) := rfl

theorem play_append {rest : List (Fin n)} :
    f.play (schedule ++ rest) s = (f.play schedule s).bind (f.play rest) :=
  List.foldlM_append

theorem run_eq_some {w w' : σ} {j j' : Journal} {r : Report} :
    f.run schedule w j = some (r, w', j') ↔ ∃ s, f.play schedule (.start w j) = some s ∧ s.done = true ∧
      r = f.report s ∧ w' = s.world ∧ j' = s.journal ++ [⟨.info, r.summary⟩] := by
  unfold run
  cases f.play schedule (.start w j) with
  | none => simp
  | some s =>
    simp only [Option.ite_none_right_eq_some, Option.some.injEq, Prod.mk.injEq, exists_eq_left']
    constructor
    · rintro ⟨hd, rfl, rfl, rfl⟩
      exact ⟨hd, rfl, rfl, rfl⟩
    · rintro ⟨hd, rfl, rfl, rfl⟩
      exact ⟨hd, rfl, rfl, rfl⟩

/-- What a task can bring about alone, a schedule brings about. -/
theorem exists_play_of_goes {m : Move σ τ} (hadmits : f.Admits s i)
    (h : (s.stage i).Goes f.name (f.path i) (f.routine i) s.world m) :
    ∃ schedule, f.play schedule s = some (s.after i m) := by
  generalize hst : s.stage i = st at h
  generalize hw : s.world = w at h
  induction h generalizing s with
  | stay w st =>
    subst hst hw
    exact ⟨[], by rw [s.after_stay i]; rfl⟩
  | @step w st m m' hm _ ih =>
    subst hst hw
    have hstay : f.Admits (s.after i m) i := by
      intro hwait
      rw [State.after_stage_self, hm.isWaiting_eq_false] at hwait
      cases hwait
    obtain ⟨schedule, hplay⟩ := ih hstay (s.after_stage_self i m) rfl
    refine ⟨i :: schedule, ?_⟩
    rw [play_cons, advance_eq_some.mpr ⟨hadmits, m, hm, rfl⟩, ← s.after_after]
    exact hplay

/-- What every step keeps, every schedule keeps. -/
theorem play_keeps {P : State σ τ n → Prop} (hstep : ∀ s i t, P s → f.advance s i = some t → P t)
    (hs : P s) (h : f.play schedule s = some t) : P t := by
  induction schedule generalizing s with
  | nil =>
    cases h
    exact hs
  | cons i rest ih =>
    rw [play_cons] at h
    obtain ⟨s', hadvance, hplay⟩ := Option.bind_eq_some_iff.mp h
    exact ih (hstep s i s' hs hadvance) hplay

end

/-! ### What is true on the way -/

/-- What is true of a run on the way, whatever the schedule. -/
structure Sound (f : FanOut σ τ n) (s : State σ τ n) : Prop where
  events : ∀ i, s.eventsOf i = (s.stage i).events (f.path i)
  places : s.holders.card ≤ f.limit
  genuine : ∀ i, (s.stage i).Genuine (f.routine i)

namespace Sound

variable {f : FanOut σ τ n} {s t : State σ τ n} {i : Fin n} {schedule : List (Fin n)}

theorem start (f : FanOut σ τ n) (w : σ) (j : Journal) : f.Sound (.start w j) where
  events _ := rfl
  places := by simp [State.holders, State.start, Stage.holds]
  genuine _ := trivial

/-- A step does not take a place when there is none. -/
theorem card_holders_after (hs : s.holders.card ≤ f.limit) (hadmits : f.Admits s i) {m : Move σ τ}
    (hm : (s.stage i).Moves f.name (f.path i) (f.routine i) s.world m) :
    (s.after i m).holders.card ≤ f.limit := by
  have hsub : (s.after i m).holders ⊆ insert i s.holders := by
    intro k hk
    rw [State.mem_holders] at hk
    rw [Finset.mem_insert, State.mem_holders]
    by_cases hki : k = i
    · exact .inl hki
    · exact .inr (by rwa [State.after_stage_of_ne _ hki] at hk)
  by_cases hwait : (s.stage i).isWaiting = true
  · calc (s.after i m).holders.card ≤ (insert i s.holders).card := Finset.card_le_card hsub
      _ ≤ s.holders.card + 1 := Finset.card_insert_le ..
      _ ≤ f.limit := hadmits hwait
  · refine (Finset.card_le_card fun k hk => ?_).trans hs
    rcases Finset.mem_insert.mp (hsub hk) with rfl | hk'
    · rw [State.mem_holders, State.after_stage_self] at hk
      exact State.mem_holders.mpr ((hm.holds_of_holds hk).resolve_right hwait)
    · exact hk'

/-- Every step keeps a run sound. -/
theorem advance (hs : f.Sound s) (h : f.advance s i = some t) : f.Sound t := by
  obtain ⟨hadmits, m, hm, rfl⟩ := advance_eq_some.mp h
  refine ⟨fun k => ?_, card_holders_after hs.places hadmits hm, fun k => ?_⟩
  · rw [State.eventsOf_after, hs.events k]
    by_cases hk : k = i
    · subst hk
      rw [if_pos rfl, State.after_stage_self, hm.events_eq]
    · rw [if_neg hk, State.after_stage_of_ne _ hk, List.append_nil]
  · by_cases hk : k = i
    · subst hk
      rw [State.after_stage_self]
      exact hm.genuine (hs.genuine k)
    · rw [State.after_stage_of_ne _ hk]
      exact hs.genuine k

/-- Every schedule keeps a run sound. -/
theorem play (hs : f.Sound s) (h : f.play schedule s = some t) : f.Sound t :=
  play_keeps (fun _ _ _ hs h => hs.advance h) hs h

/-- A task whose work is under way has a place. -/
theorem holds_of_underWay (hs : f.Sound s) (h : s.UnderWay i) : (s.stage i).holds = true := by
  unfold State.UnderWay at h
  rw [hs.events i] at h
  obtain ⟨hbegins, hends⟩ := h
  cases hst : s.stage i with
  | waiting => rw [hst] at hbegins; cases hbegins
  | released => rw [hst] at hends; exact absurd (by simp [Stage.events]) (hends none)
  | finished e => rw [hst] at hends; exact absurd (by simp [Stage.events]) (hends e)
  | admitted | running | ended | reported => rfl

/-- No more tasks than the limit are under way. -/
theorem card_underWay_le (hs : f.Sound s) {tasks : Finset (Fin n)} (h : ∀ i ∈ tasks, s.UnderWay i) :
    tasks.card ≤ f.limit :=
  (Finset.card_le_card fun i hi => State.mem_holders.mpr (hs.holds_of_underWay (h i hi))).trans hs.places

end Sound

/-! ### Runs go on and end -/

/-- A run that is not done can go on, if there is a place at all. -/
theorem exists_advance {f : FanOut σ τ n} (hlimit : 1 ≤ f.limit) {s : State σ τ n} (h : s.done = false) :
    ∃ i t, f.advance s i = some t := by
  have hmove : ∀ i, f.Admits s i → (s.stage i).isFinished = false → ∃ i t, f.advance s i = some t := by
    intro i hadmits hi
    obtain ⟨m, hm⟩ := Stage.exists_moves f.name (f.path i) (f.routine i) s.world hi
    exact ⟨i, _, advance_eq_some.mpr ⟨hadmits, m, hm, rfl⟩⟩
  obtain ⟨i, hi⟩ : ∃ i, (s.stage i).isFinished = false := by
    by_contra hall
    have hdone : s.done = true := State.done_iff.mpr fun i => by
      by_contra hi
      exact hall ⟨i, by simpa using hi⟩
    simp [h] at hdone
  -- A task that waits in vain waits for one that has a place, and such a task can move.
  rcases s.holders.eq_empty_or_nonempty with hnone | ⟨k, hk⟩
  · exact hmove i (fun _ => by rw [hnone, Finset.card_empty]; exact hlimit) hi
  · rw [State.mem_holders] at hk
    refine hmove k (fun hwait => ?_) ?_
    · cases hst : s.stage k <;> simp [hst, Stage.holds, Stage.isWaiting] at hk hwait
    · cases hst : s.stage k <;> simp [hst, Stage.holds, Stage.isFinished] at hk ⊢

/-- The steps of a run, the later state first. -/
def Later (f : FanOut σ τ n) (t s : State σ τ n) : Prop :=
  ∃ i, f.advance s i = some t

/-- A relation that is kept to where it has no endless descent has none at all. -/
theorem wellFounded_and_acc {α : Type} (R : α → α → Prop) : WellFounded fun b a => R b a ∧ Acc R a := by
  refine ⟨fun a => ⟨_, fun b hb => ?_⟩⟩
  have hacc : Acc R b := hb.2.inv hb.1
  clear hb
  induction hacc with
  | intro b _ ih => exact ⟨_, fun c hc => ih c hc.1⟩

/-- A run comes to an end if the work of each of its tasks does, whatever the schedule is. -/
theorem acc_start {f : FanOut σ τ n} (hf : ∀ i, (f.routine i).Terminates) (w : σ) (j : Journal) :
    Acc f.Later (.start w j) := by
  let R : ∀ _ : Fin n, Stage τ → Stage τ → Prop := fun i b a =>
    (Stage.After (f.routine i)) b a ∧ Acc (Stage.After (f.routine i)) a
  have hwf : WellFounded (Pi.Lex (· < ·) fun {i} => R i) :=
    Pi.Lex.wellFounded (· < ·) fun i => wellFounded_and_acc _
  have hmain : ∀ stages : Fin n → Stage τ, ∀ s : State σ τ n, s.stage = stages →
      (∀ i, Acc (Stage.After (f.routine i)) (s.stage i)) → Acc f.Later s := by
    intro stages
    induction stages using hwf.induction with
    | _ stages ih =>
      rintro s rfl hacc
      refine ⟨_, fun t ⟨i, ht⟩ => ?_⟩
      obtain ⟨-, m, hm, rfl⟩ := advance_eq_some.mp ht
      have hafter : Stage.After (f.routine i) m.stage (s.stage i) := ⟨_, _, _, m, hm, rfl⟩
      refine ih _ ⟨i, fun k hk => ?_, ?_⟩ _ rfl fun k => ?_
      · exact s.after_stage_of_ne hk.ne m
      · rw [State.after_stage_self]
        exact ⟨hafter, hacc i⟩
      · by_cases hk : k = i
        · subst hk
          rw [State.after_stage_self]
          exact (hacc k).inv hafter
        · rw [State.after_stage_of_ne _ hk]
          exact hacc k
  exact hmain _ _ rfl fun i => Stage.acc_waiting (hf i)

/-! ### The report -/

/-- A list of things that belong to indices consists of the parts that belong to each of them. -/
theorem perm_flatMap_filter {ι β : Type} [DecidableEq ι] {is : List ι} (his : is.Nodup) {l : List (ι × β)}
    (hl : ∀ e ∈ l, e.1 ∈ is) : l.Perm (is.flatMap fun i => l.filter fun e => e.1 = i) := by
  induction is generalizing l with
  | nil => rw [List.eq_nil_iff_forall_not_mem.mpr fun e he => List.not_mem_nil (hl e he), List.flatMap_nil]
  | cons i rest ih =>
    obtain ⟨hi, hrest⟩ := List.nodup_cons.mp his
    have hothers := ih hrest (l := l.filter fun e => !decide (e.1 = i)) fun e he => by
      obtain ⟨he, hne⟩ := List.mem_filter.mp he
      exact (List.mem_cons.mp (hl e he)).resolve_left (by simpa using hne)
    have hsame : (rest.flatMap fun k => (l.filter fun e => !decide (e.1 = i)).filter fun e => e.1 = k) =
        rest.flatMap fun k => l.filter fun e => e.1 = k := by
      refine List.flatMap_congr fun k hk => ?_
      rw [List.filter_filter]
      refine List.filter_congr fun e _ => ?_
      have hki : k ≠ i := fun h => hi (h ▸ hk)
      by_cases he : e.1 = k
      · simp [he, hki]
      · simp [he]
    rw [hsame] at hothers
    exact (List.filter_append_perm _ l).symm.trans (hothers.append_left _)

variable {f : FanOut σ τ n} {s : State σ τ n}

/-- The task of a run that is done has begun once, has ended once and is once in the report. -/
theorem Sound.exists_fault (hs : f.Sound s) (hdone : s.done = true) (i : Fin n) :
    ∃ e, (f.routine i).CanEnd e ∧ s.eventsOf i = [.begins, .ends e, .reports ⟨f.path i, e⟩] := by
  have hi := State.done_iff.mp hdone i
  have hevents := hs.events i
  have hgenuine := hs.genuine i
  cases hst : s.stage i with
  | finished e =>
    rw [hst] at hevents hgenuine
    exact ⟨e, hgenuine, hevents⟩
  | _ => rw [hst] at hi; cases hi

/-- The outcomes in the report are those of the tasks. -/
theorem State.outcomes_perm {fault : Fin n → Option Fault} (hfault : ∀ i, s.eventsOf i =
    [.begins, .ends (fault i), .reports ⟨f.path i, fault i⟩]) :
    s.outcomes.Perm ((List.finRange n).map fun i => ⟨f.path i, fault i⟩) := by
  have hparts := perm_flatMap_filter (List.nodup_finRange n) (l := s.history) fun e _ => List.mem_finRange _
  refine (hparts.filterMap fun e => e.2.outcome?).trans (.of_eq ?_)
  rw [List.filterMap_flatMap, List.map_eq_flatMap]
  refine List.flatMap_congr fun i _ => ?_
  calc ((s.history.filter fun e => e.1 = i).filterMap fun e => e.2.outcome?)
      = (s.eventsOf i).filterMap Event.outcome? := by
        rw [State.eventsOf, List.filterMap_map]
        rfl
    _ = [⟨f.path i, fault i⟩] := by
        rw [hfault i]
        rfl

end FanOut
end Codemod
