import Codemod.Keyed

/-!
# Entries under keys of their own

Where no key is repeated, what a key holds says which entries there are, and the order of the entries is of no account.
Entries that are laid over others under further keys are all added.

Main statements:

* `Keyed.get?_eq_some_iff` and `Keyed.get?_perm` say this of keyed lists without repeated keys;
* `Keyed.get?_merge` says what every key holds after entries were laid over others;
* `Keyed.merge_eq_append` and `Keyed.nodup_of_length_merge` say when keys are all kept apart.
-/

namespace Codemod.Keyed

variable {κ α : Type} [DecidableEq κ] {l base upper : Keyed κ α} {k : κ} {v : α}

/-! ### Looking up -/

theorem mem_of_get? (h : l.get? k = some v) : (k, v) ∈ l := by
  induction l with
  | nil => cases h
  | cons e rest ih =>
    unfold get? at h
    split at h
    case isTrue hk =>
      cases h
      exact hk ▸ List.mem_cons_self ..
    case isFalse => exact List.mem_cons_of_mem _ (ih h)

/-- Where no key is repeated, the entries are what the keys hold. -/
theorem get?_eq_some_iff (h : l.keys.Nodup) : l.get? k = some v ↔ (k, v) ∈ l := by
  constructor
  · exact mem_of_get?
  · intro hmem
    induction l with
    | nil => cases hmem
    | cons e rest ih =>
      obtain ⟨hfresh, hrest⟩ := List.nodup_cons.mp h
      unfold get?
      rcases List.mem_cons.mp hmem with rfl | hmem
      · rw [if_pos rfl]
      · have hne : e.1 ≠ k := by
          rintro rfl
          exact hfresh (List.mem_map.mpr ⟨_, hmem, rfl⟩)
        rw [if_neg hne]
        exact ih hrest hmem

/-- The order of the entries is of no account where no key is repeated. -/
theorem get?_perm {l' : Keyed κ α} (h : l.Perm l') (hl : l.keys.Nodup) : l.get? = l'.get? := by
  have hl' : l'.keys.Nodup := by
    unfold keys at hl ⊢
    exact (h.map _).nodup_iff.mp hl
  funext k
  refine Option.ext fun v => ?_
  rw [get?_eq_some_iff hl, get?_eq_some_iff hl', h.mem_iff]

theorem get?_eq_none_iff : l.get? k = none ↔ k ∉ l.keys := by
  rw [← get?_isSome_iff]
  simp

theorem set_of_not_mem (h : k ∉ base.keys) : base.set k v = base ++ [(k, v)] := by
  induction base with
  | nil => rfl
  | cons e rest ih =>
    obtain ⟨hk, hrest⟩ := not_or.mp (mt List.mem_cons.mpr h)
    simp [set, Ne.symm hk, ih hrest]

theorem length_set_of_mem (h : k ∈ base.keys) : (base.set k v).length = base.length := by
  have hkeys := keys_set base k v
  rw [if_pos h] at hkeys
  simpa [keys] using congrArg List.length hkeys

/-! ### Laying entries over others -/

theorem length_merge_le (base upper : Keyed κ α) : (base.merge upper).length ≤ base.length + upper.length := by
  induction upper generalizing base with
  | nil => exact Nat.le_refl _
  | cons e rest ih =>
    have hrest := ih (base.set e.1 e.2)
    have hset : (base.set e.1 e.2).length ≤ base.length + 1 := by
      by_cases he : e.1 ∈ base.keys
      · rw [length_set_of_mem he]
        omega
      · simp [set_of_not_mem he]
    rw [List.length_cons]
    change (merge (base.set e.1 e.2) rest).length ≤ _
    omega

/-- Entries under keys of their own are all added. -/
theorem merge_eq_append (h : (base.keys ++ upper.keys).Nodup) : base.merge upper = base ++ upper := by
  induction upper generalizing base with
  | nil => simp [merge]
  | cons e rest ih =>
    have he : e.1 ∉ base.keys := fun hmem =>
      (List.nodup_append.mp h).2.2 e.1 hmem e.1 (List.mem_cons_self ..) rfl
    change merge (base.set e.1 e.2) rest = _
    rw [set_of_not_mem he, ih]
    · simp
    · simpa [keys] using h

/-- Only entries under keys of their own are all added. -/
theorem nodup_of_length_merge (hbase : base.keys.Nodup) (h : (base.merge upper).length = base.length + upper.length) :
    (base.keys ++ upper.keys).Nodup := by
  induction upper generalizing base with
  | nil => simpa [keys] using hbase
  | cons e rest ih =>
    have hrest := length_merge_le (base.set e.1 e.2) rest
    have hmerge : base.merge (e :: rest) = (base.set e.1 e.2).merge rest := rfl
    rw [hmerge, List.length_cons] at h
    have he : e.1 ∉ base.keys := fun hmem => by
      rw [length_set_of_mem hmem] at hrest
      omega
    have hlen : (base.set e.1 e.2).length = base.length + 1 := by simp [set_of_not_mem he]
    have hset : (base.set e.1 e.2).keys.Nodup := nodup_keys_set hbase
    have hboth := ih hset (by omega)
    simpa [set_of_not_mem he, keys] using hboth

/-- A key holds what was laid over, and else what it held. -/
theorem get?_merge (hupper : upper.keys.Nodup) (k : κ) :
    (base.merge upper).get? k = (upper.get? k).or (base.get? k) := by
  induction upper generalizing base with
  | nil => rfl
  | cons e rest ih =>
    obtain ⟨hfresh, hrest⟩ := List.nodup_cons.mp hupper
    change (merge (base.set e.1 e.2) rest).get? k = _
    rw [ih hrest, get?_set]
    by_cases hk : k = e.1
    · subst hk
      have hnone : get? rest e.1 = none := get?_eq_none_iff.mpr hfresh
      simp [hnone, get?]
    · simp [hk, get?, Ne.symm hk]

theorem nodup_keys_merge (hbase : base.keys.Nodup) : (base.merge upper).keys.Nodup := by
  induction upper generalizing base with
  | nil => exact hbase
  | cons e rest ih => exact ih (nodup_keys_set hbase)

end Codemod.Keyed
