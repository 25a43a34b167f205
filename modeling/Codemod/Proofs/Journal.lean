import Mathlib.Data.List.Forall2
import Codemod.NamedExport
import Codemod.NamedImport
import Codemod.RootedImport

/-!
# Journaled computations that only append

A computation that never looks at the journal it appends to gives the same value whatever was written
before. Its outcome can then be read off a run that starts with an empty journal, and the outcome of a
sequence of steps is the sequence of the outcomes.

Main statements:

* `Journaled.outcome_bind` says that outcomes follow one another as computations do;
* `NamedExport.plan_steady`, `NamedImport.plan_steady` and `RootedImport.plan_steady` say that no plan
  depends on what is in the journal.
-/

namespace Codemod

open Syntax

/-- Going on with a value that is there. -/
theorem Except.ok_bind {ε α β : Type} (a : α) (f : α → Except ε β) : (.ok a >>= f) = f a := rfl

/-- Two steps in a row give a value only if the first one does. -/
theorem Except.bind_eq_ok {ε α β : Type} {x : Except ε α} {f : α → Except ε β} {b : β}
    (h : x >>= f = .ok b) : ∃ a, x = .ok a ∧ f a = .ok b := by
  cases x with
  | error e => cases h
  | ok a => exact ⟨a, rfl, h⟩

/-- Two steps in a row fail where the first one does, or the second one after it. -/
theorem Except.bind_eq_error {ε α β : Type} {x : Except ε α} {f : α → Except ε β} {e : ε}
    (h : x >>= f = .error e) : x = .error e ∨ ∃ a, x = .ok a ∧ f a = .error e := by
  cases x with
  | error e' =>
    cases h
    exact .inl rfl
  | ok a => exact .inr ⟨a, rfl, h⟩

/-- A function applied to what may be there gives a value only where there is one. -/
theorem Except.map_eq_ok {ε α β : Type} {x : Except ε α} {f : α → β} {b : β} (h : f <$> x = .ok b) :
    ∃ a, x = .ok a ∧ f a = b := by
  cases x with
  | error e => cases h
  | ok a => exact ⟨a, rfl, Except.ok.inj h⟩

/-- A step for each item gives values only if each of the steps does. -/
theorem Except.forall₂_of_mapM_eq_ok {ε α β : Type} {k : α → Except ε β} {l : List α} {r : List β}
    (h : l.mapM k = .ok r) : l.Forall₂ (fun a b => k a = .ok b) r := by
  induction l generalizing r with
  | nil =>
    cases h
    exact .nil
  | cons a rest ih =>
    rw [List.mapM_cons] at h
    obtain ⟨b, hb, h⟩ := Except.bind_eq_ok h
    obtain ⟨more, hmore, h⟩ := Except.bind_eq_ok h
    cases h
    exact .cons hb (ih hmore)

/-- Of two lists whose items belong together one by one, each item of the second belongs to one of the
first. -/
theorem exists_mem_of_forall₂ {α β : Type} {R : α → β → Prop} {l : List α} {r : List β}
    (h : l.Forall₂ R r) : ∀ b ∈ r, ∃ a ∈ l, R a b := by
  induction h with
  | nil => simp
  | cons ha _ ih =>
    intro b hb
    rcases List.mem_cons.mp hb with rfl | hb
    · exact ⟨_, List.mem_cons_self .., ha⟩
    · obtain ⟨a, hmem, ha⟩ := ih b hb
      exact ⟨a, List.mem_cons_of_mem _ hmem, ha⟩

theorem Except.exists_of_mem_mapM {ε α β : Type} {k : α → Except ε β} {l : List α} {r : List β}
    (h : l.mapM k = .ok r) : ∀ b ∈ r, ∃ a ∈ l, k a = .ok b :=
  exists_mem_of_forall₂ (Except.forall₂_of_mapM_eq_ok h)

/-- A step for each item gives values exactly where each of the steps does. -/
theorem Except.exists_mapM_iff {ε α β : Type} {k : α → Except ε β} {l : List α} :
    (∃ r, l.mapM k = .ok r) ↔ ∀ a ∈ l, ∃ b, k a = .ok b := by
  induction l with
  | nil => exact ⟨fun _ a ha => absurd ha List.not_mem_nil, fun _ => ⟨[], rfl⟩⟩
  | cons a rest ih =>
    rw [List.mapM_cons, List.forall_mem_cons, ← ih]
    constructor
    · rintro ⟨r, hr⟩
      obtain ⟨b, hb, hr⟩ := Except.bind_eq_ok hr
      obtain ⟨more, hmore, -⟩ := Except.bind_eq_ok hr
      exact ⟨⟨b, hb⟩, more, hmore⟩
    · rintro ⟨⟨b, hb⟩, more, hmore⟩
      exact ⟨b :: more, by rw [hb, hmore]; rfl⟩

namespace Journaled

variable {ε α β : Type}

/-- What a computation gives, the journal aside. -/
def outcome (x : Journaled ε α) : Except ε α := (x []).1

/-- A computation that gives the same value on every journal, and appends the same lines. -/
def Steady (x : Journaled ε α) : Prop :=
  ∀ j, x j = (x.outcome, j ++ (x []).2)

theorem pure_steady (a : α) : Steady (pure a : Journaled ε α) := by
  intro j
  simp [pure, outcome]

theorem fail_steady (e : ε) : Steady (fail e : Journaled ε α) := by
  intro j
  simp [fail, outcome]

theorem note_steady (level : Level) (message : String) :
    Steady (note level message : Journaled ε Unit) := by
  intro j
  simp [note, outcome]

theorem ofExcept_steady (x : Except ε α) : Steady (ofExcept x) := by
  cases x with
  | ok a => exact pure_steady a
  | error e => exact fail_steady e

@[simp] theorem outcome_ofExcept (x : Except ε α) : outcome (ofExcept x) = x := by
  cases x <;> rfl

/-- Going on with a value that is there. -/
@[simp] theorem ofExcept_ok_bind (a : α) (k : α → Journaled ε β) :
    (ofExcept (.ok a) >>= k) = k a := rfl

/-- The value of a steady computation on any journal is its outcome. -/
theorem Steady.fst {x : Journaled ε α} (h : Steady x) (j : Journal) : (x j).1 = x.outcome := by
  rw [h j]

/-- Steady steps in a row are steady. -/
theorem Steady.bind {x : Journaled ε α} {f : α → Journaled ε β} (hx : Steady x)
    (hf : ∀ a, Steady (f a)) : Steady (x >>= f) := by
  intro j
  cases h : x.outcome with
  | ok a =>
    have hrun : ∀ j, (x >>= f) j = ((f a).outcome, j ++ (x []).2 ++ (f a []).2) := by
      intro j
      rw [bind_ok (by rw [hx j, h])]
      exact hf a _
    rw [outcome, hrun j, hrun []]
    simp
  | error e =>
    have hrun : ∀ j, (x >>= f) j = (.error e, j ++ (x []).2) := fun j => bind_error (by rw [hx j, h])
    rw [outcome, hrun j, hrun []]
    simp

/-- The outcome of two steps in a row. -/
theorem outcome_bind {x : Journaled ε α} {f : α → Journaled ε β} (hf : ∀ a, Steady (f a)) :
    outcome (x >>= f) = x.outcome >>= fun a => (f a).outcome := by
  show (Journaled.bind x f []).1 = _
  unfold Journaled.bind outcome
  cases h : x [] with
  | mk r j =>
    cases r with
    | ok a => exact (hf a).fst j
    | error e => rfl

/-- The outcome of a computation with a function applied to its value. -/
@[simp] theorem outcome_map (x : Journaled ε α) (g : α → β) : outcome (g <$> x) = g <$> x.outcome := by
  show (Journaled.bind x (fun a => Pure.pure (g a)) []).1 = _
  unfold Journaled.bind outcome
  cases h : x [] with
  | mk r j =>
    cases r with
    | ok a => rfl
    | error e => rfl

/-- The run behind an outcome. -/
theorem exists_run {x : Journaled ε α} {r : Except ε α} (h : x.outcome = r) : ∃ j, x [] = (r, j) :=
  ⟨(x []).2, by rw [← h]; rfl⟩

/-- The run behind a value. -/
theorem exists_run_of_toOption {x : Journaled ε α} {j : Journal} {a : α}
    (h : (x j).1.toOption = some a) : ∃ j', x j = (.ok a, j') := by
  cases hx : x j with
  | mk r j' =>
    rw [hx] at h
    cases r with
    | error e => cases h
    | ok b =>
      cases h
      exact ⟨j', rfl⟩

/-- Whether a computation fails with a fault of a certain kind. -/
def failsWith (kind : ε → Bool) (x : Journaled ε α) (j : Journal) : Bool :=
  match (x j).1 with
  | .ok _ => false
  | .error e => kind e

/-- The run behind a fault. -/
theorem exists_run_of_failsWith {kind : ε → Bool} {x : Journaled ε α} {j : Journal}
    (h : failsWith kind x j = true) : ∃ e j', x j = (.error e, j') ∧ kind e = true := by
  unfold failsWith at h
  cases hx : x j with
  | mk r j' =>
    rw [hx] at h
    cases r with
    | ok a => cases h
    | error e => exact ⟨e, j', rfl, h⟩

/-- Two steps in a row give a value only if the first one does. -/
theorem bind_eq_ok {x : Journaled ε α} {f : α → Journaled ε β} {j j' : Journal} {b : β}
    (h : (x >>= f) j = (.ok b, j')) : ∃ a j₁, x j = (.ok a, j₁) ∧ f a j₁ = (.ok b, j') := by
  cases hx : x j with
  | mk r j₁ =>
    cases r with
    | error e => rw [bind_error hx] at h; cases h
    | ok a => exact ⟨a, j₁, rfl, by rwa [bind_ok hx] at h⟩

/-- Two steps in a row fail where the first one does, or the second one after it. -/
theorem bind_eq_error {x : Journaled ε α} {f : α → Journaled ε β} {j j' : Journal} {e : ε}
    (h : (x >>= f) j = (.error e, j')) :
    x j = (.error e, j') ∨ ∃ a j₁, x j = (.ok a, j₁) ∧ f a j₁ = (.error e, j') := by
  cases hx : x j with
  | mk r j₁ =>
    cases r with
    | error e' =>
      rw [bind_error hx] at h
      cases h
      exact .inl rfl
    | ok a => exact .inr ⟨a, j₁, rfl, by rwa [bind_ok hx] at h⟩

theorem ofExcept_eq_error {x : Except ε α} {j j' : Journal} {e : ε}
    (h : ofExcept x j = (.error e, j')) : x = .error e := by
  cases x with
  | error e' => cases h; rfl
  | ok a => cases h

theorem ofExcept_eq_ok {x : Except ε α} {j j' : Journal} {a : α}
    (h : ofExcept x j = (.ok a, j')) : x = .ok a ∧ j' = j := by
  cases x with
  | error e => cases h
  | ok b => cases h; exact ⟨rfl, rfl⟩

theorem mapError_eq_ok {ε' : Type} {g : ε → ε'} {x : Journaled ε α} {j j' : Journal} {a : α}
    (h : x.mapError g j = (.ok a, j')) : x j = (.ok a, j') := by
  unfold mapError at h
  split at h
  case h_1 hx => rw [hx]; cases h; rfl
  case h_2 => cases h

/-- Applying a function to the value of a steady computation. -/
theorem Steady.map {x : Journaled ε α} (hx : Steady x) (g : α → β) : Steady (g <$> x) :=
  hx.bind fun a => pure_steady (g a)

end Journaled

open Journaled

theorem SourceFile.defaultExportsOf_steady (f : SourceFile) (ts : List Tree) :
    Steady (f.defaultExportsOf ts) := by
  induction ts with
  | nil => exact pure_steady _
  | cons t rest ih =>
    unfold SourceFile.defaultExportsOf
    split
    case h_1 d _ => exact ih.bind fun _ => pure_steady _
    case h_2 =>
      exact (ofExcept_steady _).bind fun _ => (note_steady _ _).bind fun _ => ih

/-- What is to be done to the default export of a file does not depend on the journal. -/
theorem NamedExport.plan_steady (f : SourceFile) : Steady (NamedExport.plan f) := by
  refine (f.defaultExportsOf_steady _).bind fun ds => ?_
  split
  · exact pure_steady _
  · exact (ofExcept_steady _).map _
  · exact fail_steady _

theorem NamedImport.importPlan_steady (f : SourceFile) (resolve : Resolver) (names : Keyed Path String)
    (r : ModuleReference) : Steady (importPlan f resolve names r) := by
  refine (ofExcept_steady _).bind fun spec => (ofExcept_steady _).bind fun target => ?_
  split
  · exact (note_steady _ _).bind fun _ => pure_steady _
  · split
    · refine (ofExcept_steady _).bind fun binding => (ofExcept_steady _).bind fun clause => ?_
      exact (note_steady _ _).bind fun _ => pure_steady _
    · exact pure_steady _

theorem NamedImport.plansOf_steady (f : SourceFile) (resolve : Resolver) (names : Keyed Path String)
    (rs : List ModuleReference) : Steady (plansOf f resolve names rs) := by
  induction rs with
  | nil => exact pure_steady _
  | cons r rest ih =>
    exact (importPlan_steady f resolve names r).bind fun _ => ih.bind fun _ => pure_steady _

/-- What is to be done to the imports of a file does not depend on the journal. -/
theorem NamedImport.plan_steady (f : SourceFile) (resolve : Resolver) (names : Keyed Path String) :
    Steady (NamedImport.plan f resolve names) :=
  plansOf_steady f resolve names _

theorem RootedImport.referencePlan_steady (f : SourceFile)
    (resolve : String → Except Fault (Option Path)) (marker : String) (root : Path)
    (r : ModuleReference) : Steady (referencePlan f resolve marker root r) := by
  refine (ofExcept_steady _).bind fun spec => ?_
  split
  · refine (ofExcept_steady _).bind fun target => ?_
    split
    · exact (note_steady _ _).bind fun _ => pure_steady _
    · refine (ofExcept_steady _).bind fun rooted => (note_steady _ _).bind fun _ => ?_
      exact (ofExcept_steady _).bind fun _ => pure_steady _
  · exact pure_steady _

theorem RootedImport.plansOf_steady (f : SourceFile) (resolve : String → Except Fault (Option Path))
    (marker : String) (root : Path) (rs : List ModuleReference) :
    Steady (plansOf f resolve marker root rs) := by
  induction rs with
  | nil => exact pure_steady _
  | cons r rest ih =>
    exact (referencePlan_steady f resolve marker root r).bind fun _ => ih.bind fun _ => pure_steady _

/-- What is to be done to the specifiers of a file does not depend on the journal. -/
theorem RootedImport.plan_steady (f : SourceFile) (resolve : String → Except Fault (Option Path))
    (marker : String) (root : Path) : Steady (RootedImport.plan f resolve marker root) :=
  plansOf_steady f resolve marker root _

end Codemod
