import Codemod.Syntax.Pattern

/-!
# Readings without fuel

What a pattern reads does not depend on the fuel once there is enough of it. Three judgments say so without
naming an amount: `Reads` says that with enough fuel a pattern reads from one place to another, `Refuses` that
it fails however much there is, and `Ran` that it has read so with some amount. Each has one law for each
connective.

Main statements:

* `Reads.both`, `Reads.right` and `Reads.more` put readings together, and `Refuses.both` and `Refuses.either`
  say when there is none;
* `Ran.both`, `Ran.either` and `Ran.many` take a reading that was found apart.
-/

namespace Codemod.Syntax.Pattern

variable {ρ : Type} {rules : ρ → Pattern ρ} {around : Surroundings} {p q : Pattern ρ}
  {s s' s'' done : Reading}

/-- Whether a pattern, with enough fuel, reads from one place to another. -/
def Reads (rules : ρ → Pattern ρ) (around : Surroundings) (p : Pattern ρ) (s s' : Reading) : Prop :=
  ∃ enough, ∀ fuel, enough ≤ fuel → run rules fuel around p s = some s'

/-- Whether a pattern fails, however much fuel there is. -/
def Refuses (rules : ρ → Pattern ρ) (around : Surroundings) (p : Pattern ρ) (s : Reading) : Prop :=
  ∀ fuel, run rules fuel around p s = none

/-- Whether a pattern reads, with some amount of fuel, from one place to another. -/
def Ran (rules : ρ → Pattern ρ) (around : Surroundings) (p : Pattern ρ) (s s' : Reading) : Prop :=
  ∃ fuel, run rules fuel around p s = some s'

/-! ### Putting readings together -/

namespace Reads

/-- One step into a pattern takes one from the fuel. -/
theorem of_step {n : Nat} (h : ∀ fuel, n ≤ fuel → run rules (fuel + 1) around p s = some s') :
    Reads rules around p s s' := by
  refine ⟨n + 1, fun fuel hfuel => ?_⟩
  cases fuel with
  | zero => cases hfuel
  | succ fuel => exact h fuel (Nat.le_of_succ_le_succ hfuel)

theorem nothing (s : Reading) : Reads rules around .nothing s s :=
  of_step (n := 0) fun _ _ => rfl

theorem token {l : Lexeme} {k : Kind} (h : s.skip.take l k = some s') :
    Reads rules around (.token l k) s s' :=
  of_step (n := 0) fun _ _ => h

theorem both (hp : Reads rules around p s s') (hq : Reads rules around q s' s'') :
    Reads rules around (.both p q) s s'' := by
  obtain ⟨n, hp⟩ := hp
  obtain ⟨m, hq⟩ := hq
  refine of_step (n := max n m) fun fuel hfuel => ?_
  rw [run_both, hp fuel (by omega)]
  exact hq fuel (by omega)

/-- The first of two choices is taken where it succeeds. -/
theorem left (hp : Reads rules around p s s') : Reads rules around (.either p q) s s' := by
  obtain ⟨n, hp⟩ := hp
  refine of_step (n := n) fun fuel hfuel => ?_
  rw [run_either, hp fuel hfuel]
  rfl

/-- The second of two choices is taken where the first fails. -/
theorem right (hp : Refuses rules around p s) (hq : Reads rules around q s s') :
    Reads rules around (.either p q) s s' := by
  obtain ⟨m, hq⟩ := hq
  refine of_step (n := m) fun fuel hfuel => ?_
  rw [run_either, hp fuel]
  exact hq fuel hfuel

/-- A repetition ends where there is nothing more to repeat. -/
theorem finish (hp : Refuses rules around p s) : Reads rules around (.many p) s s :=
  of_step (n := 0) fun fuel _ => by
    rw [run_many, hp fuel]

/-- A repetition goes on behind what was read once. -/
theorem more (hp : Reads rules around p s s') (hne : s'.offset ≠ s.offset)
    (hmore : Reads rules around (.many p) s' s'') : Reads rules around (.many p) s s'' := by
  obtain ⟨n, hp⟩ := hp
  obtain ⟨m, hmore⟩ := hmore
  refine of_step (n := max n m) fun fuel hfuel => ?_
  rw [run_many, hp fuel (by omega)]
  dsimp only
  rw [if_neg hne]
  exact hmore fuel (by omega)

theorem node {k : Kind} (hp : Reads rules around p s.skip.inner done) :
    Reads rules around (.node k p) s (s.skip.close k done) := by
  obtain ⟨n, hp⟩ := hp
  refine of_step (n := n) fun fuel hfuel => ?_
  rw [run_node, hp fuel hfuel]
  rfl

theorem part {r : Role} (hp : Reads rules around p s.skip.inner done) :
    Reads rules around (.part r p) s (s.skip.closePart r done) := by
  obtain ⟨n, hp⟩ := hp
  refine of_step (n := n) fun fuel hfuel => ?_
  rw [run_part, hp fuel hfuel]
  rfl

theorem ahead (hp : Reads rules around p s s') : Reads rules around (.ahead p) s s := by
  obtain ⟨n, hp⟩ := hp
  refine of_step (n := n) fun fuel hfuel => ?_
  rw [run_ahead, hp fuel hfuel]
  rfl

theorem inside {around' : Surroundings} (hp : Reads rules around' p s s') :
    Reads rules around (.inside around' p) s s' := by
  obtain ⟨n, hp⟩ := hp
  exact of_step (n := n) hp

end Reads

namespace Refuses

/-- Without fuel every pattern fails, and with fuel it takes a step. -/
theorem of_step (h : ∀ fuel, run rules (fuel + 1) around p s = none) : Refuses rules around p s := by
  intro fuel
  cases fuel with
  | zero => rfl
  | succ fuel => exact h fuel

theorem token {l : Lexeme} {k : Kind} (h : s.skip.take l k = none) :
    Refuses rules around (.token l k) s :=
  of_step fun _ => h

/-- A row fails where its second part fails behind whatever the first part reads. -/
theorem both (hq : ∀ s', Ran rules around p s s' → Refuses rules around q s') :
    Refuses rules around (.both p q) s := by
  refine of_step fun fuel => ?_
  rw [run_both]
  cases hp : run rules fuel around p s with
  | none => rfl
  | some s' => exact hq s' ⟨fuel, hp⟩ fuel

theorem first (hp : Refuses rules around p s) : Refuses rules around (.both p q) s :=
  both fun s' ⟨fuel, hs'⟩ => by
    rw [hp fuel] at hs'
    cases hs'

theorem either (hp : Refuses rules around p s) (hq : Refuses rules around q s) :
    Refuses rules around (.either p q) s := by
  refine of_step fun fuel => ?_
  rw [run_either, hp fuel]
  exact hq fuel

theorem node {k : Kind} (hp : Refuses rules around p s.skip.inner) :
    Refuses rules around (.node k p) s :=
  of_step fun fuel => by
    rw [run_node, hp fuel]
    rfl

theorem part {r : Role} (hp : Refuses rules around p s.skip.inner) :
    Refuses rules around (.part r p) s :=
  of_step fun fuel => by
    rw [run_part, hp fuel]
    rfl

theorem ahead (hp : Refuses rules around p s) : Refuses rules around (.ahead p) s :=
  of_step fun fuel => by
    rw [run_ahead, hp fuel]
    rfl

end Refuses

/-! ### Taking readings apart -/

namespace Ran

/-- A pattern that has read something took a step. -/
theorem exists_step (h : Ran rules around p s s') : ∃ fuel, run rules (fuel + 1) around p s = some s' := by
  obtain ⟨fuel, h⟩ := h
  cases fuel with
  | zero => cases h
  | succ fuel => exact ⟨fuel, h⟩

theorem nothing (h : Ran rules around .nothing s s') : s' = s := by
  obtain ⟨fuel, h⟩ := h.exists_step
  cases h
  rfl

theorem token {l : Lexeme} {k : Kind} (h : Ran rules around (.token l k) s s') :
    s.skip.take l k = some s' := by
  obtain ⟨fuel, h⟩ := h.exists_step
  exact h

theorem both (h : Ran rules around (.both p q) s s'') :
    ∃ s', Ran rules around p s s' ∧ Ran rules around q s' s'' := by
  obtain ⟨fuel, h⟩ := h.exists_step
  rw [run_both] at h
  obtain ⟨s', hp, hq⟩ := Option.bind_eq_some_iff.mp h
  exact ⟨s', ⟨fuel, hp⟩, ⟨fuel, hq⟩⟩

theorem either (h : Ran rules around (.either p q) s s') :
    Ran rules around p s s' ∨ Ran rules around q s s' := by
  obtain ⟨fuel, h⟩ := h.exists_step
  rw [run_either] at h
  cases hp : run rules fuel around p s with
  | none =>
    rw [hp] at h
    exact .inr ⟨fuel, h⟩
  | some t =>
    rw [hp] at h
    cases h
    exact .inl ⟨fuel, hp⟩

theorem node {k : Kind} (h : Ran rules around (.node k p) s s') :
    ∃ done, Ran rules around p s.skip.inner done ∧ s' = s.skip.close k done := by
  obtain ⟨fuel, h⟩ := h.exists_step
  obtain ⟨done, hdone, rfl⟩ := Option.map_eq_some_iff.mp h
  exact ⟨done, ⟨fuel, hdone⟩, rfl⟩

theorem part {r : Role} (h : Ran rules around (.part r p) s s') :
    ∃ done, Ran rules around p s.skip.inner done ∧ s' = s.skip.closePart r done := by
  obtain ⟨fuel, h⟩ := h.exists_step
  obtain ⟨done, hdone, rfl⟩ := Option.map_eq_some_iff.mp h
  exact ⟨done, ⟨fuel, hdone⟩, rfl⟩

theorem ahead (h : Ran rules around (.ahead p) s s') : s' = s := by
  obtain ⟨fuel, h⟩ := h.exists_step
  obtain ⟨done, -, rfl⟩ := Option.map_eq_some_iff.mp h
  rfl

theorem exists_ahead (h : Ran rules around (.ahead p) s s') : ∃ done, Ran rules around p s done := by
  obtain ⟨fuel, h⟩ := h.exists_step
  obtain ⟨done, hdone, -⟩ := Option.map_eq_some_iff.mp h
  exact ⟨done, fuel, hdone⟩

theorem ending {e : Ending} (h : Ran rules around (.ending e) s s') : ∃ t, s' = s.after t := by
  obtain ⟨fuel, h⟩ := h.exists_step
  obtain ⟨t, -, rfl⟩ := Option.map_eq_some_iff.mp h
  exact ⟨t, rfl⟩

theorem inside {around' : Surroundings} (h : Ran rules around (.inside around' p) s s') :
    Ran rules around' p s s' := by
  obtain ⟨fuel, h⟩ := h.exists_step
  exact ⟨fuel, h⟩

/-- What a repetition reads is read step by step. -/
theorem many {P : Reading → Reading → Prop} (h : Ran rules around (.many p) s s') (hstop : ∀ s, P s s)
    (hmore : ∀ s s' s'', Ran rules around p s s' → P s' s'' → P s s'') : P s s' := by
  obtain ⟨fuel, h⟩ := h
  induction fuel generalizing s with
  | zero => cases h
  | succ fuel ih =>
    rw [run_many] at h
    cases hp : run rules fuel around p s with
    | none =>
      rw [hp] at h
      cases h
      exact hstop _
    | some middle =>
      rw [hp] at h
      dsimp only at h
      split at h
      · cases h
        exact hmore _ _ _ ⟨fuel, hp⟩ (hstop _)
      · exact hmore _ _ _ ⟨fuel, hp⟩ (ih h)

end Ran

end Codemod.Syntax.Pattern
