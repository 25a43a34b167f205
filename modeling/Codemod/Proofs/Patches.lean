import Codemod.Edit
import Codemod.Proofs.Utf8Bytes

/-!
# Patches

A patch puts bytes in the place of a range of a text. Patches that lie in order and apart can be made at
once: what stands between two of them stays as it is. A batch of edits, which is applied from the back to
the front, does the same as its patches from the front to the back.

A window is a range that every patch either stays out of or stays within. The patches within a window can
be put together to a single one, so that a text with many small patches is also one with a patch for each
window and the patches between the windows.

Main statements:

* `Edit.applyAll_eq_patched` says that a batch makes its patches, which lie in order and apart;
* `Patch.exists_patched_by_windows` says that the patches within windows can be put together.
-/

namespace Codemod

/-- Puts bytes in the place of those from `start` up to, not including, `stop`. -/
structure Patch where
  start : Nat
  stop : Nat
  bytes : Bytes
  deriving DecidableEq, Repr

namespace Patch

/-- Patches that lie one behind the other between two offsets. -/
def InOrder (lo hi : Nat) : List Patch → Prop
  | [] => lo ≤ hi
  | p :: rest => lo ≤ p.start ∧ p.start ≤ p.stop ∧ InOrder p.stop hi rest

/-- The text between two offsets with patches made to it. -/
def patched (t : Bytes) (lo hi : Nat) : List Patch → Bytes
  | [] => t.slice lo hi
  | p :: rest => t.slice lo p.start ++ p.bytes ++ patched t p.stop hi rest

variable {t u : Bytes} {lo hi c : Nat} {p q : Patch} {l a b : List Patch}

@[simp] theorem patched_nil (t : Bytes) (lo hi : Nat) : patched t lo hi [] = t.slice lo hi := rfl

namespace InOrder

theorem le (h : InOrder lo hi l) : lo ≤ hi := by
  induction l generalizing lo with
  | nil => exact h
  | cons p rest ih =>
    obtain ⟨hlo, hp, hrest⟩ := h
    have := ih hrest
    omega

theorem append (ha : InOrder lo c a) (hb : InOrder c hi b) : InOrder lo hi (a ++ b) := by
  induction a generalizing lo with
  | nil =>
    cases b with
    | nil => exact Nat.le_trans ha hb
    | cons p rest => exact ⟨Nat.le_trans ha hb.1, hb.2⟩
  | cons p rest ih => exact ⟨ha.1, ha.2.1, ih ha.2.2⟩

theorem bounds (h : InOrder lo hi l) (hp : p ∈ l) :
    lo ≤ p.start ∧ p.start ≤ p.stop ∧ p.stop ≤ hi := by
  induction l generalizing lo with
  | nil => cases hp
  | cons q rest ih =>
    obtain ⟨hlo, hq, hrest⟩ := h
    rcases List.mem_cons.mp hp with rfl | hp
    · exact ⟨hlo, hq, hrest.le⟩
    · have := ih hrest hp
      omega

/-- Patches none of which lies across an offset fall into those before it and those behind it. -/
theorem exists_split (h : InOrder lo hi l) (hlo : lo ≤ c) (hhi : c ≤ hi)
    (hc : ∀ p ∈ l, p.stop ≤ c ∨ c ≤ p.start) :
    ∃ a b, l = a ++ b ∧ InOrder lo c a ∧ InOrder c hi b := by
  induction l generalizing lo with
  | nil => exact ⟨[], [], rfl, hlo, hhi⟩
  | cons p rest ih =>
    obtain ⟨hp, hle, hrest⟩ := h
    by_cases hstop : p.stop ≤ c
    · obtain ⟨a, b, rfl, ha, hb⟩ := ih hrest hstop fun q hq => hc q (List.mem_cons_of_mem _ hq)
      exact ⟨p :: a, b, rfl, ⟨hp, hle, ha⟩, hb⟩
    · have hstart := (hc p (by simp)).resolve_left hstop
      exact ⟨[], p :: rest, rfl, hlo, hstart, hle, hrest⟩

/-- A patch that covers something stands in the list once. -/
theorem eq_singleton (h : InOrder lo hi l) (hp : p ∈ l) (hcovers : p.start < p.stop)
    (hall : ∀ q ∈ l, q = p) : l = [p] := by
  cases l with
  | nil => cases hp
  | cons q rest =>
    obtain rfl := hall q (by simp)
    cases rest with
    | nil => rfl
    | cons r more =>
      obtain rfl := hall r (by simp)
      have := h.2.2.1
      omega

end InOrder

/-! ### Slices and patched texts -/

theorem slice_append_slice (h : lo ≤ c) (h' : c ≤ hi) :
    t.slice lo c ++ t.slice c hi = t.slice lo hi := by
  unfold Bytes.slice
  have hsame : t.take c = (t.take hi).take c := by rw [List.take_take, Nat.min_eq_left h']
  have hdrop : (t.take hi).drop c = ((t.take hi).drop lo).drop (c - lo) := by
    rw [List.drop_drop, Nat.add_sub_cancel' h]
  rw [hsame, List.drop_take, hdrop, List.take_append_drop]

theorem slice_append_drop (h : lo ≤ hi) : t.slice lo hi ++ t.drop hi = t.drop lo := by
  have hdrop : t.drop hi = (t.drop lo).drop (hi - lo) := by
    rw [List.drop_drop, Nat.add_sub_cancel' h]
  unfold Bytes.slice
  rw [List.drop_take, hdrop, List.take_append_drop]

theorem patched_append (ha : InOrder lo c a) (hb : InOrder c hi b) :
    patched t lo hi (a ++ b) = patched t lo c a ++ patched t c hi b := by
  induction a generalizing lo with
  | nil =>
    cases b with
    | nil => exact (slice_append_slice ha hb).symm
    | cons p rest =>
      simp only [List.nil_append, patched, ← List.append_assoc]
      rw [slice_append_slice ha hb.1]
  | cons p rest ih =>
    simp only [List.cons_append, patched, List.append_assoc]
    rw [ih ha.2.2]

/-- What lies behind the last patch plays no part. -/
theorem patched_congr (h : InOrder lo hi l) (htu : t.take hi = u.take hi) :
    patched t lo hi l = patched u lo hi l := by
  have hslice : ∀ {x y}, y ≤ hi → t.slice x y = u.slice x y := by
    intro x y hy
    have htake : t.take y = u.take y := by
      have := congrArg (List.take y) htu
      rwa [List.take_take, List.take_take, Nat.min_eq_left hy] at this
    unfold Bytes.slice
    rw [htake]
  induction l generalizing lo with
  | nil => exact hslice (Nat.le_refl _)
  | cons p rest ih =>
    have := (InOrder.bounds h (List.mem_cons_self ..)).2.2
    have := h.2.1
    simp only [patched]
    rw [hslice (by omega), ih h.2.2]

/-! ### Windows -/

/-- Whether a patch stays within a range that another one spans. -/
def Within (p w : Patch) : Prop := w.start ≤ p.start ∧ p.stop ≤ w.stop

/-- Whether a patch stays out of a range that another one spans. -/
def Apart (p w : Patch) : Prop := p.stop ≤ w.start ∨ w.stop ≤ p.start

theorem Apart.not_within (h : p.Apart q) (hp : p.start < p.stop) : ¬ p.Within q := by
  rintro ⟨hstart, hstop⟩
  rcases h with h | h <;> omega

/-- Each window, in order, carries the bytes that its patches make of its range. Then the windows and the
patches between them make the same of the text as all patches do. -/
theorem exists_patched_by_windows {ws : List Patch} (hl : InOrder lo hi l) (hws : InOrder lo hi ws)
    (hcovers : ∀ p ∈ l, p.start < p.stop) (hclear : ∀ p ∈ l, ∀ w ∈ ws, p.Apart w ∨ p.Within w)
    (hbytes : ∀ w ∈ ws, ∀ m, InOrder w.start w.stop m → (∀ p, p ∈ m ↔ p ∈ l ∧ p.Within w) →
      patched t w.start w.stop m = w.bytes) :
    ∃ qs, InOrder lo hi qs ∧ patched t lo hi l = patched t lo hi qs ∧
      ∀ q, q ∈ qs ↔ q ∈ ws ∨ q ∈ l ∧ ∀ w ∈ ws, q.Apart w := by
  induction ws generalizing lo l with
  | nil => exact ⟨l, hl, rfl, fun q => by simp⟩
  | cons w rest ih =>
    obtain ⟨hlo, hle, hrest⟩ := hws
    have hstop := hrest.le
    -- cut the patches where the first window begins and where it ends
    obtain ⟨before, l', rfl, hbefore, hl'⟩ := hl.exists_split hlo (Nat.le_trans hle hstop) fun p hp => by
      rcases hclear p hp w (by simp) with (h | h) | h
      · exact .inl h
      · exact .inr (Nat.le_trans hle h)
      · exact .inr h.1
    obtain ⟨inside, behind, rfl, hinside, hbehind⟩ := hl'.exists_split hle hstop fun p hp => by
      rcases hclear p (by simp [hp]) w (by simp) with (h | h) | h
      · exact .inl (Nat.le_trans h hle)
      · exact .inr h
      · exact .inl h.2
    have hapart : ∀ p ∈ before, p.Apart w := fun p hp => .inl (hbefore.bounds hp).2.2
    have hapart' : ∀ p ∈ behind, p.Apart w := fun p hp => .inr (hbehind.bounds hp).1
    have hwithin : ∀ p ∈ inside, p.Within w := fun p hp =>
      ⟨(hinside.bounds hp).1, (hinside.bounds hp).2.2⟩
    have hmembers : ∀ p, p ∈ inside ↔ p ∈ before ++ (inside ++ behind) ∧ p.Within w := by
      intro p
      refine ⟨fun hp => ⟨by simp [hp], hwithin p hp⟩, fun ⟨hp, hw⟩ => ?_⟩
      have hnonempty := hcovers p hp
      rcases List.mem_append.mp hp with hp | hp
      · exact absurd hw ((hapart p hp).not_within hnonempty)
      · rcases List.mem_append.mp hp with hp | hp
        · exact hp
        · exact absurd hw ((hapart' p hp).not_within hnonempty)
    have hfirst := hbytes w (by simp) inside hinside hmembers
    -- what lies before the end of the first window is apart from the other windows
    have hearly : ∀ p ∈ before ++ inside, ∀ v ∈ rest, p.Apart v := by
      intro p hp v hv
      refine .inl (Nat.le_trans ?_ (hrest.bounds hv).1)
      rcases List.mem_append.mp hp with hp | hp
      · exact Nat.le_trans (hbefore.bounds hp).2.2 hle
      · exact (hinside.bounds hp).2.2
    obtain ⟨qs, hqs, hsame, hmem⟩ := ih hbehind hrest
      (fun p hp => hcovers p (by simp [hp]))
      (fun p hp v hv => hclear p (by simp [hp]) v (by simp [hv]))
      (fun v hv m hm hmm => hbytes v (by simp [hv]) m hm fun p => by
        rw [hmm, ← List.append_assoc, List.mem_append]
        refine ⟨fun h => ⟨.inr h.1, h.2⟩, fun ⟨h, hw⟩ => ⟨h.resolve_left fun hp => ?_, hw⟩⟩
        exact (hearly p hp v hv).not_within (hcovers p (by
          rw [← List.append_assoc]; exact List.mem_append_left _ hp)) hw)
    refine ⟨before ++ w :: qs, hbefore.append ⟨Nat.le_refl _, hle, hqs⟩, ?_, fun q => ?_⟩
    · have hjoin : InOrder w.start hi (w :: qs) := ⟨Nat.le_refl _, hle, hqs⟩
      rw [patched_append hbefore (hinside.append hbehind), patched_append hinside hbehind,
        patched_append hbefore hjoin, hfirst, hsame]
      simp [patched, Bytes.slice]
    · rw [List.mem_append, List.mem_cons, hmem, List.mem_cons, List.forall_mem_cons]
      constructor
      · rintro (hq | rfl | hq | ⟨hq, hall⟩)
        · exact .inr ⟨by simp [hq], hapart q hq, hearly q (by simp [hq])⟩
        · exact .inl (.inl rfl)
        · exact .inl (.inr hq)
        · exact .inr ⟨by simp [hq], hapart' q hq, hall⟩
      · rintro ((rfl | hq) | ⟨hq, hfirst, hall⟩)
        · exact .inr (.inl rfl)
        · exact .inr (.inr (.inl hq))
        · rcases List.mem_append.mp hq with hq | hq
          · exact .inl hq
          · rcases List.mem_append.mp hq with hq | hq
            · have hnonempty := hcovers q (by simp [hq])
              exact absurd (hwithin q hq) (hfirst.not_within hnonempty)
            · exact .inr (.inr (.inr ⟨hq, hall⟩))

end Patch

namespace Edit

/-- The patch that an edit makes. -/
def patch (e : Edit) : Patch := ⟨e.start, e.stop, Bytes.ofString e.text⟩

theorem applyOrdered_eq_patched {limit : Nat} {t u : Bytes} {l : List Edit}
    (h : applyOrdered limit t l = .ok u) (hlimit : limit ≤ t.length)
    (hl : ∀ e ∈ l, e.start ≤ e.stop) :
    Patch.InOrder 0 limit (l.reverse.map patch) ∧
      u = Patch.patched t 0 limit (l.reverse.map patch) ++ t.drop limit := by
  induction l generalizing limit t with
  | nil =>
    cases h
    exact ⟨Nat.zero_le _, by simp [Bytes.slice]⟩
  | cons e rest ih =>
    rw [applyOrdered_cons] at h
    split at h
    case isTrue => cases h
    case isFalse hstop =>
      have hle := hl e (by simp)
      have hstart : e.start ≤ t.length := by omega
      have hlength : e.start ≤ (e.splice t).length := by simp [splice, replace]; omega
      have htake : (e.splice t).take e.start = t.take e.start := by
        simp [splice, replace, hstart]
      have hdrop : (e.splice t).drop e.start = e.patch.bytes ++ t.drop e.stop := by
        simp [splice, replace, patch, hstart]
      obtain ⟨horder, rfl⟩ := ih h hlength fun e' he' => hl e' (List.mem_cons_of_mem _ he')
      have hlast : Patch.InOrder e.start limit [e.patch] := ⟨Nat.le_refl _, hle, by
        show e.stop ≤ limit
        omega⟩
      rw [List.reverse_cons, List.map_append, List.map_cons, List.map_nil]
      refine ⟨horder.append hlast, ?_⟩
      have hrest : t.slice e.stop limit ++ t.drop limit = t.drop e.stop :=
        Patch.slice_append_drop (by omega)
      rw [Patch.patched_append horder hlast, Patch.patched_congr horder htake, hdrop, ← hrest]
      simp [Patch.patched, patch, Bytes.slice]

/-- A batch that can be applied makes its patches, which lie in order and apart. -/
theorem applyAll_eq_patched {t u : Bytes} {edits : List Edit} (h : applyAll edits t = .ok u)
    (hedits : ∀ e ∈ edits, e.start ≤ e.stop) :
    ∃ l : List Patch, Patch.InOrder 0 t.length l ∧ u = Patch.patched t 0 t.length l ∧
      ∀ p, p ∈ l ↔ ∃ e ∈ edits, p = e.patch := by
  obtain ⟨horder, hu⟩ := applyOrdered_eq_patched h (Nat.le_refl _) fun e he =>
    hedits e (mem_ordered_iff.mp he)
  refine ⟨_, horder, by simpa using hu, fun p => ?_⟩
  simp only [List.mem_map, List.mem_reverse, mem_ordered_iff]
  exact exists_congr fun e => and_congr_right fun _ => eq_comm

end Edit
end Codemod
