import Codemod.NamedExport

/-!
# Blanks beside what is visible

An edit that removes a statement takes the blanks beside it along: spaces behind a word, and the rest of a
line that would be left blank. It stops where something visible begins, and it takes no line that has
something visible on it.

Main statements:

* `NamedExport.skipSpaces_le_of_visible` and `SourceFile.widenOn_le_of_visible` say that what begins with a
  visible byte is not touched from the front;
* `SourceFile.le_widenBack_of_lineVisible` says that what ends on a line that is not blank is not touched
  from behind;
* `SourceFile.widenOn_le_widenBack` says that what is taken behind one place and before a later one does not
  overlap.
-/

namespace Codemod

namespace Bytes

/-- Whether no blank stands at an offset. -/
def VisibleAt (t : Bytes) (offset : Nat) : Prop :=
  ∀ b, t[offset]? = some b → isBlank b = false

/-- Whether the line that an offset ends, up to the offset, is not blank. -/
def LineVisible (t : Bytes) (offset : Nat) : Prop :=
  ∃ k b, k < offset ∧ t[k]? = some b ∧ isBlank b = false ∧
    ∀ i, k ≤ i → i < offset → t[i]? ≠ some newline

variable {t : Bytes} {a b offset : Nat} {p : UInt8 → Bool}

theorem visibleAt_length (t : Bytes) : t.VisibleAt t.length := by
  intro b hb
  rw [List.getElem?_eq_none (Nat.le_refl _)] at hb
  cases hb

theorem LineVisible.of_last {k : Nat} {c : UInt8} (h : t[k]? = some c) (hc : isBlank c = false) :
    t.LineVisible (k + 1) := by
  refine ⟨k, c, Nat.lt_succ_self k, h, hc, fun i hi hlt => ?_⟩
  obtain rfl : i = k := by omega
  rw [h]
  rintro hnewline
  obtain rfl := Option.some.inj hnewline
  cases hc

/-- Another byte on the line leaves the line visible. -/
theorem LineVisible.succ (h : t.LineVisible offset) (hnext : t[offset]? ≠ some newline) :
    t.LineVisible (offset + 1) := by
  obtain ⟨k, c, hk, hget, hc, hline⟩ := h
  refine ⟨k, c, Nat.lt_succ_of_lt hk, hget, hc, fun i hi hlt => ?_⟩
  rcases Nat.lt_succ_iff_lt_or_eq.mp hlt with hlt | rfl
  · exact hline i hi hlt
  · exact hnext

theorem LineVisible.of_drop (h : LineVisible (t.drop a) offset) : t.LineVisible (a + offset) := by
  obtain ⟨k, c, hk, hget, hc, hline⟩ := h
  refine ⟨a + k, c, Nat.add_lt_add_left hk a, by rwa [List.getElem?_drop] at hget, hc,
    fun i hi hlt => ?_⟩
  have := hline (i - a) (by omega) (by omega)
  rwa [List.getElem?_drop, Nat.add_sub_cancel' (by omega)] at this

/-- What begins with a visible byte does not begin among blanks. -/
theorem VisibleAt.le_of_blanks (h : t.VisibleAt offset) (ha : a ≤ offset)
    (hblank : ∀ i, a ≤ i → i < b → ∃ c, t[i]? = some c ∧ isBlank c = true) : b ≤ offset := by
  refine Nat.le_of_not_lt fun hlt => ?_
  obtain ⟨c, hc, hcblank⟩ := hblank offset ha hlt
  rw [h c hc] at hcblank
  cases hcblank

/-- A text falls into the bytes that are taken and those that begin with one that is not. -/
theorem exists_takeWhile_append (p : UInt8 → Bool) (l : Bytes) :
    ∃ rest, l = l.takeWhile p ++ rest ∧ ∀ c, rest.head? = some c → p c = false := by
  refine ⟨l.dropWhile p, List.takeWhile_append_dropWhile.symm, fun c hc => ?_⟩
  have hhead := List.head?_dropWhile_not p l
  rw [hc] at hhead
  exact hhead

/-- The bytes from an offset on that are taken, and the one behind them. -/
theorem getElem?_takeWhile (p : UInt8 → Bool) (t : Bytes) (a : Nat) :
    (∀ i, a ≤ i → i < a + ((t.drop a).takeWhile p).length →
      ∃ c ∈ (t.drop a).takeWhile p, t[i]? = some c) ∧
    ∀ c, t[a + ((t.drop a).takeWhile p).length]? = some c → p c = false := by
  obtain ⟨rest, hrest, hhead⟩ := exists_takeWhile_append p (t.drop a)
  generalize (t.drop a).takeWhile p = taken at hrest ⊢
  constructor
  · intro i hi hlt
    have hin : i - a < taken.length := by omega
    refine ⟨taken[i - a], List.getElem_mem hin, ?_⟩
    have hsame : t[i]? = (t.drop a)[i - a]? := by
      rw [List.getElem?_drop, Nat.add_sub_cancel' hi]
    rw [hsame, hrest, List.getElem?_append_left hin, List.getElem?_eq_getElem hin]
  · intro c hc
    rw [← List.getElem?_drop, hrest, List.getElem?_append_right (Nat.le_refl _), Nat.sub_self] at hc
    exact hhead c (by rw [List.head?_eq_getElem?]; exact hc)

end Bytes

open Bytes

theorem NamedExport.skipSpaces_le_of_visible {t : Bytes} {a offset : Nat} (h : t.VisibleAt offset)
    (ha : a ≤ offset) : skipSpaces t a ≤ offset := by
  refine h.le_of_blanks ha fun i hi hlt => ?_
  obtain ⟨c, hc, hget⟩ := (getElem?_takeWhile _ t a).1 i hi hlt
  have hspace := SourceFile.mem_takeWhile hc
  refine ⟨c, hget, ?_⟩
  simp only [Bool.or_eq_true, beq_iff_eq] at hspace
  rcases hspace with rfl | rfl <;> rfl

namespace SourceFile

variable {t : Bytes} {start stop offset : Nat}

theorem le_widenOn (h : stop ≤ t.length) : stop ≤ widenOn t stop := by
  unfold widenOn
  dsimp only
  split <;> omega

theorem widenOn_le_of_visible (h : t.VisibleAt offset) (hstop : stop ≤ offset) :
    widenOn t stop ≤ offset := by
  obtain ⟨hline, hbehind⟩ := getElem?_takeWhile (· != newline) t stop
  unfold widenOn
  dsimp only
  split
  case isFalse => exact hstop
  case isTrue hall =>
    refine h.le_of_blanks hstop fun i hi hlt => ?_
    by_cases hin : i < stop + ((t.drop stop).takeWhile (· != newline)).length
    · obtain ⟨c, hc, hget⟩ := hline i hi hin
      exact ⟨c, hget, List.all_eq_true.mp hall c hc⟩
    · -- the only byte behind the blanks is the end of the line
      obtain rfl : i = stop + ((t.drop stop).takeWhile (· != newline)).length := by omega
      have hlength : stop + ((t.drop stop).takeWhile (· != newline)).length < t.length := by omega
      have hget := List.getElem?_eq_getElem hlength
      have hnewline := hbehind _ hget
      refine ⟨_, hget, ?_⟩
      rw [show t[stop + ((t.drop stop).takeWhile (· != newline)).length] = newline by
        simpa using hnewline]
      rfl

theorem widenBack_le (t : Bytes) (start : Nat) : widenBack t start ≤ start := by
  unfold widenBack
  dsimp only
  split <;> omega

theorem le_widenBack_of_lineVisible (h : t.LineVisible offset) (hoffset : offset ≤ start)
    (hstart : start ≤ t.length) : offset ≤ widenBack t start := by
  obtain ⟨k, b, hk, hget, hvisible, hline⟩ := h
  obtain ⟨rest, hrest, hhead⟩ := exists_takeWhile_append (· != newline) (t.take start).reverse
  unfold widenBack
  dsimp only
  split
  case isFalse => exact hoffset
  case isTrue hall =>
    generalize (t.take start).reverse.takeWhile (· != newline) = line at hrest hall ⊢
    -- before `start` stand `rest` and then the blanks, both in the order of the text
    have htake : t.take start = rest.reverse ++ line.reverse := by
      rw [← List.reverse_append, ← hrest, List.reverse_reverse]
    have hlength := congrArg List.length htake
    rw [List.length_take, List.length_append, List.length_reverse, List.length_reverse,
      Nat.min_eq_left hstart] at hlength
    refine Nat.le_of_not_lt fun hlt => ?_
    have hbefore : ∀ i, i < start → t[i]? = (rest.reverse ++ line.reverse)[i]? := by
      intro i hi
      rw [← htake, List.getElem?_take_of_lt hi]
    by_cases hkin : k < rest.reverse.length
    · -- the byte before the blanks is the end of a line
      have hne : rest ≠ [] := by
        rintro rfl
        cases hkin
      obtain ⟨c, more, rfl⟩ := List.exists_cons_of_ne_nil hne
      have hnewline : c = newline := by simpa using hhead c rfl
      rw [List.length_reverse, List.length_cons] at hkin
      rw [List.length_cons] at hlength
      have hlast : t[more.length]? = some c := by
        rw [hbefore _ (by omega), List.getElem?_append_left (by simp), List.getElem?_reverse (by simp)]
        simp
      exact hline more.length (by omega) (by omega) (hnewline ▸ hlast)
    · rw [List.length_reverse] at hkin
      rw [hbefore k (by omega), List.getElem?_append_right (by rwa [List.length_reverse, ← Nat.not_lt])] at hget
      have hmem := List.mem_reverse.mp (List.mem_of_getElem? hget)
      rw [List.all_eq_true.mp hall b hmem] at hvisible
      cases hvisible

/-- No more is taken before an offset than what stands behind the last line end there. -/
theorem le_widenBack_of_newline {i : Nat} (h : t[i]? = some newline) (hi : i < start)
    (hstart : start ≤ t.length) : i + 1 ≤ widenBack t start := by
  unfold widenBack
  dsimp only
  split
  case isFalse => exact hi
  case isTrue =>
    -- Seen from the offset backwards, the line ends at the latest where the line end stands.
    have hget : (t.take start).reverse[start - 1 - i]? = some newline := by
      rw [List.getElem?_reverse (by rw [List.length_take]; omega), List.length_take, Nat.min_eq_left hstart,
        List.getElem?_take_of_lt (by omega), ← h]
      congr 1
      omega
    have hlength : ((t.take start).reverse.takeWhile (· != newline)).length ≤ start - 1 - i := by
      refine Nat.le_of_not_lt fun hlt => ?_
      obtain ⟨c, hc, hat⟩ := (getElem?_takeWhile (· != newline) (t.take start).reverse 0).1
        (start - 1 - i) (Nat.zero_le _) (by rw [List.drop_zero]; omega)
      have hne := mem_takeWhile hc
      rw [Option.some.inj (hat.symm.trans hget)] at hne
      cases hne
    omega

/-- What is taken behind an end on a line that is not blank, and what is taken before a visible byte further
on, do not overlap. -/
theorem widenOn_le_widenBack (hvisible : t.VisibleAt start) (hstart : start < t.length)
    (hline : t.LineVisible stop) (h : stop ≤ start) : widenOn t stop ≤ widenBack t start := by
  have hon := widenOn_le_of_visible hvisible h
  have hback := le_widenBack_of_lineVisible hline h (Nat.le_of_lt hstart)
  have hbehind := (getElem?_takeWhile (· != newline) t stop).2
  unfold widenOn at hon ⊢
  dsimp only at hon ⊢
  split at hon
  case isFalse hblank => rwa [if_neg hblank]
  case isTrue hblank =>
    -- The rest of the line is blank, and its end stands before the visible byte.
    rw [if_pos hblank]
    have hend : stop + ((t.drop stop).takeWhile (· != newline)).length < start := by omega
    have hget := List.getElem?_eq_getElem (Nat.lt_trans hend hstart)
    have hnewline : t[stop + ((t.drop stop).takeWhile (· != newline)).length]? = some newline := by
      rw [hget]
      exact congrArg some (by simpa using hbehind _ hget)
    have := le_widenBack_of_newline hnewline hend (Nat.le_of_lt hstart)
    omega

end SourceFile
end Codemod
