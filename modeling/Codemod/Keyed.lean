/-!
# Keyed lists

A keyed list holds values under keys, in the order in which the keys were first set. A key that is
set again keeps its place and takes the new value.

Main statements:

* `Keyed.get?_set` says what every key holds after one was set;
* `Keyed.keys_set` says that a key that is there keeps its place and a new one comes last;
* `Keyed.nodup_keys_set` says that setting never repeats a key.
-/

namespace Codemod

/-- Values under keys. -/
abbrev Keyed (κ α : Type) := List (κ × α)

namespace Keyed

variable {κ α : Type} [DecidableEq κ]

/-- The keys in order. -/
def keys (l : Keyed κ α) : List κ :=
  l.map (·.1)

/-- The value under a key. -/
def get? (l : Keyed κ α) (k : κ) : Option α :=
  match l with
  | [] => none
  | e :: rest => if e.1 = k then some e.2 else get? rest k

/-- Puts a value under a key. -/
def set (l : Keyed κ α) (k : κ) (v : α) : Keyed κ α :=
  match l with
  | [] => [(k, v)]
  | e :: rest => if e.1 = k then (k, v) :: rest else e :: set rest k v

/-- The entries of `upper` laid over those of `base`. -/
def merge (base upper : Keyed κ α) : Keyed κ α :=
  upper.foldl (fun acc e => acc.set e.1 e.2) base

/-- What a key holds after one was set. -/
theorem get?_set (l : Keyed κ α) (k j : κ) (v : α) :
    (l.set k v).get? j = if j = k then some v else l.get? j := by
  induction l with
  | nil =>
    by_cases h : j = k
    · simp [set, get?, h]
    · simp [set, get?, h, Ne.symm h]
  | cons e rest ih =>
    unfold set
    by_cases he : e.1 = k
    · by_cases h : j = k
      · simp [he, get?, h]
      · have : ¬ k = j := fun e => h e.symm
        simp [he, get?, h, this]
    · by_cases hj : e.1 = j
      · have : ¬ j = k := fun e' => he (hj.trans e')
        simp [get?, hj, this]
      · simpa [he, get?, hj] using ih

/-- The key that was set holds the value. -/
@[simp] theorem get?_set_self (l : Keyed κ α) (k : κ) (v : α) : (l.set k v).get? k = some v := by
  simp [get?_set]

/-- A key that is there keeps its place, a new one comes last. -/
theorem keys_set (l : Keyed κ α) (k : κ) (v : α) :
    (l.set k v).keys = if k ∈ l.keys then l.keys else l.keys ++ [k] := by
  induction l with
  | nil => simp [set, keys]
  | cons e rest ih =>
    unfold set
    by_cases he : e.1 = k
    · simp [he, keys]
    · have hk : ¬ k = e.1 := fun h => he h.symm
      simp only [keys] at ih
      simp only [he, if_false, keys, List.map_cons, ih, List.mem_cons, hk, false_or]
      split
      case isTrue h => simp [h]
      case isFalse h => simp [h]

/-- A key holds something exactly when it is there. -/
theorem get?_isSome_iff {l : Keyed κ α} {k : κ} : (l.get? k).isSome = true ↔ k ∈ l.keys := by
  induction l with
  | nil => simp [get?, keys]
  | cons e rest ih =>
    by_cases he : e.1 = k
    · simp [get?, keys, he]
    · have hk : ¬ k = e.1 := fun h => he h.symm
      simpa [get?, keys, he, hk] using ih

/-- Setting a key never repeats one. -/
theorem nodup_keys_set {l : Keyed κ α} {k : κ} {v : α} (h : l.keys.Nodup) :
    (l.set k v).keys.Nodup := by
  rw [keys_set]
  split
  case isTrue => exact h
  case isFalse hk =>
    rw [List.nodup_append]
    refine ⟨h, by simp, ?_⟩
    intro a ha b hb hab
    rw [List.mem_singleton] at hb
    exact hk (hb ▸ hab ▸ ha)

end Keyed
end Codemod
