import Mathlib.Data.List.Basic
import Codemod.Workspace
import Codemod.Proofs.Patches

/-!
# Batches of edits

A batch is put in order and applied from the back to the front, against one limit that moves. This finds
exactly those batches in which an edit ends behind the text or two edits overlap, and otherwise makes all
replacements at once: every byte outside the ranges stays, every range gives way to its text, and of several
insertions at one place the later in the batch comes first. On nothing else does the order of the batch bear.

Main statements:

* `Edit.ordered_perm`, `Edit.ordered_pairwise` and `Edit.filter_ordered` say that a batch is put in order by
  a stable sort;
* `Edit.misfit?_ordered_eq_none_iff` says when all edits of a batch fit;
* `Patch.patched_eq_made` says what patches make of a text, offset by offset;
* `SourceFile.exists_edited_iff` says which batches can be applied;
* `SourceFile.edited_at_once` says what a batch does to a file.
-/

namespace Codemod

namespace Edit

variable {τ : Type} {edits l : List (Edit τ)} {a b e f : Edit τ} {t u : Bytes} {limit n : Nat}

/-! ### The order of a batch -/

theorem isBehind_eq_false_iff : a.isBehind b = false ↔ a.start < b.start ∨ a.start = b.start ∧ a.stop ≤ b.stop := by
  unfold isBehind
  rw [Bool.or_eq_false_iff, Bool.and_eq_false_iff, decide_eq_false_iff_not, decide_eq_false_iff_not,
    beq_eq_false_iff_ne]
  omega

theorem insertOrdered_perm (e : Edit τ) (l : List (Edit τ)) : (insertOrdered e l).Perm (e :: l) := by
  induction l with
  | nil => exact .refl _
  | cons f rest ih =>
    unfold insertOrdered
    split
    case isTrue => exact (ih.cons f).trans (.swap e f rest)
    case isFalse => exact .refl _

/-- Putting a batch in order keeps its edits, each as often as it is there. -/
theorem ordered_perm (edits : List (Edit τ)) : (ordered edits).Perm edits := by
  induction edits with
  | nil => exact .refl _
  | cons e rest ih => exact (insertOrdered_perm e _).trans (ih.cons e)

theorem insertOrdered_pairwise (h : l.Pairwise fun a b => b.isBehind a = false) (e : Edit τ) :
    (insertOrdered e l).Pairwise fun a b => b.isBehind a = false := by
  induction l with
  | nil => exact List.pairwise_singleton _ _
  | cons f rest ih =>
    obtain ⟨hf, hrest⟩ := List.pairwise_cons.mp h
    unfold insertOrdered
    split
    case isTrue hbehind =>
      refine List.pairwise_cons.mpr ⟨fun g hg => ?_, ih hrest⟩
      rcases mem_insertOrdered_iff.mp hg with rfl | hg
      · cases hgf : g.isBehind f with
        | false => rfl
        | true =>
          -- Two edits are not behind each other.
          simp only [isBehind, Bool.or_eq_true, Bool.and_eq_true, decide_eq_true_eq, beq_iff_eq] at hbehind hgf
          omega
      · exact hf g hg
    case isFalse hbehind =>
      refine List.pairwise_cons.mpr ⟨fun g hg => ?_, h⟩
      have hbehind : f.isBehind e = false := by simpa using hbehind
      rcases List.mem_cons.mp hg with rfl | hg
      · exact hbehind
      · have hgf := hf g hg
        rw [isBehind_eq_false_iff] at hbehind hgf ⊢
        omega

/-- No edit of an ordered batch lies further back than one before it. -/
theorem ordered_pairwise (edits : List (Edit τ)) :
    (ordered edits).Pairwise fun a b => b.isBehind a = false := by
  induction edits with
  | nil => exact .nil
  | cons e rest ih => exact insertOrdered_pairwise ih e

/-- Putting a batch in order is stable: edits none of which lies behind another keep their order. -/
theorem filter_ordered {p : Edit τ → Bool} (hp : ∀ a b, p a = true → p b = true → a.isBehind b = false)
    (edits : List (Edit τ)) : (ordered edits).filter p = edits.filter p := by
  have hinsert : ∀ (e : Edit τ) (l : List (Edit τ)), (insertOrdered e l).filter p = (e :: l).filter p := by
    intro e l
    induction l with
    | nil => rfl
    | cons f rest ih =>
      unfold insertOrdered
      split
      case isTrue hbehind =>
        by_cases he : p e = true
        · have hf : ¬ p f = true := fun hf => by
            rw [hp f e hf he] at hbehind
            cases hbehind
          rw [List.filter_cons_of_neg hf, ih, List.filter_cons_of_pos he, List.filter_cons_of_pos he,
            List.filter_cons_of_neg hf]
        · rw [List.filter_cons_of_neg he, List.filter_cons, List.filter_cons, ih, List.filter_cons_of_neg he]
      case isFalse => rfl
  induction edits with
  | nil => rfl
  | cons e rest ih =>
    show (insertOrdered e (ordered rest)).filter p = _
    rw [hinsert, List.filter_cons, List.filter_cons, ih]

/-! ### Edits that do not fit -/

/-- The range that an edit replaces, from its first byte to behind its last. -/
def range (e : Edit τ) : Nat × Nat := (e.start, e.stop)

/-- Whether two edits do not overlap. -/
def Apart (a b : Edit τ) : Prop := a.stop ≤ b.start ∨ b.stop ≤ a.start

instance (a b : Edit τ) : Decidable (a.Apart b) := inferInstanceAs (Decidable (_ ∨ _))

theorem Apart.symm (h : a.Apart b) : b.Apart a := Or.symm h

/-- The start of the first edit that ends behind the limit, which each edit moves to its own start. -/
def misfit? (limit : Nat) : List (Edit τ) → Option Nat
  | [] => none
  | e :: rest => if limit < e.stop then some e.start else misfit? e.start rest

theorem exists_of_misfit? (h : misfit? limit l = some n) : ∃ e ∈ l, n = e.start := by
  induction l generalizing limit with
  | nil => cases h
  | cons e rest ih =>
    unfold misfit? at h
    split at h
    case isTrue => exact ⟨e, List.mem_cons_self .., (Option.some.inj h).symm⟩
    case isFalse =>
      obtain ⟨f, hf, hn⟩ := ih h
      exact ⟨f, List.mem_cons_of_mem _ hf, hn⟩

/-- Only the ranges of the edits decide whether they fit. -/
theorem misfit?_congr {σ : Type} {l' : List (Edit σ)} (h : l.map range = l'.map range) :
    misfit? limit l = misfit? limit l' := by
  induction l generalizing limit l' with
  | nil =>
    obtain rfl := List.map_eq_nil_iff.mp h.symm
    rfl
  | cons e rest ih =>
    cases l' with
    | nil => cases h
    | cons f rest' =>
      simp only [List.map_cons, List.cons.injEq, range, Prod.mk.injEq] at h
      unfold misfit?
      rw [h.1.1, h.1.2, ih h.2]

/-- Batches with the same ranges have them in the same order once they are put in order. -/
theorem ordered_ranges_congr {σ : Type} {edits' : List (Edit σ)} (h : (edits.map range).Perm (edits'.map range)) :
    (ordered edits).map range = (ordered edits').map range := by
  have hperm : ((ordered edits).map range).Perm ((ordered edits').map range) :=
    ((ordered_perm edits).map _).trans (h.trans ((ordered_perm edits').map _).symm)
  have hsorted : ∀ {ρ : Type} (l : List (Edit ρ)), ((ordered l).map range).Pairwise fun a b =>
      b.1 < a.1 ∨ b.1 = a.1 ∧ b.2 ≤ a.2 := by
    intro ρ l
    rw [List.pairwise_map]
    exact (ordered_pairwise l).imp fun hab => isBehind_eq_false_iff.mp hab
  refine List.Perm.eq_of_pairwise (fun a b _ _ hab hba => ?_) (hsorted edits) (hsorted edits') hperm
  refine Prod.ext ?_ ?_ <;> omega

/-- The edits of an ordered batch fit exactly when they end at or before the limit and none overlaps
another: what an edit leaves to those after it is what they must stay in to lie apart from it. -/
theorem misfit?_eq_none_iff (hl : ∀ e ∈ l, e.start ≤ e.stop)
    (hordered : l.Pairwise fun a b => b.isBehind a = false) :
    misfit? limit l = none ↔ (∀ e ∈ l, e.stop ≤ limit) ∧ l.Pairwise Apart := by
  induction l generalizing limit with
  | nil => simp [misfit?]
  | cons e rest ih =>
    obtain ⟨he, hrest⟩ := List.pairwise_cons.mp hordered
    have hle := hl e (List.mem_cons_self ..)
    have ih : misfit? e.start rest = none ↔ _ := ih (fun f hf => hl f (List.mem_cons_of_mem _ hf)) hrest
    unfold misfit?
    rw [List.forall_mem_cons, List.pairwise_cons]
    split
    case isTrue hlimit =>
      constructor
      · rintro ⟨⟩
      · rintro ⟨⟨hstop, -⟩, -⟩
        omega
    case isFalse hlimit =>
      rw [ih]
      constructor
      · rintro ⟨hstops, hapart⟩
        refine ⟨⟨by omega, fun f hf => ?_⟩, fun f hf => .inr (hstops f hf), hapart⟩
        have := hstops f hf
        omega
      · rintro ⟨-, hfirst, hapart⟩
        refine ⟨fun f hf => ?_, hapart⟩
        have hbehind := isBehind_eq_false_iff.mp (he f hf)
        have hf' := hl f (List.mem_cons_of_mem _ hf)
        rcases hfirst f hf with h | h <;> omega

/-- The edits of a batch fit exactly when they end within the limit and none overlaps another. -/
theorem misfit?_ordered_eq_none_iff (h : ∀ e ∈ edits, e.start ≤ e.stop) :
    misfit? limit (ordered edits) = none ↔ (∀ e ∈ edits, e.stop ≤ limit) ∧ edits.Pairwise Apart := by
  have hordered : ∀ e ∈ ordered edits, e.start ≤ e.stop := fun e he => h e (mem_ordered_iff.mp he)
  rw [misfit?_eq_none_iff hordered (ordered_pairwise edits), (ordered_perm edits).pairwise_iff Apart.symm]
  simp only [mem_ordered_iff]

theorem applyOrdered_eq_error_iff {l : List Edit} : applyOrdered limit t l = .error n ↔ misfit? limit l = some n := by
  induction l generalizing limit t with
  | nil =>
    constructor <;> rintro ⟨⟩
  | cons e rest ih =>
    rw [applyOrdered_cons]
    unfold misfit?
    split
    case isTrue => rw [Except.error.injEq, Option.some.injEq]
    case isFalse => exact ih

/-- A batch can be applied exactly when its edits end within the text and none overlaps another. -/
theorem exists_applyAll_iff {edits : List Edit} (h : ∀ e ∈ edits, e.start ≤ e.stop) :
    (∃ u, applyAll edits t = .ok u) ↔ (∀ e ∈ edits, e.stop ≤ t.length) ∧ edits.Pairwise Apart := by
  rw [← misfit?_ordered_eq_none_iff h]
  unfold applyAll
  constructor
  · rintro ⟨u, hu⟩
    refine Option.eq_none_iff_forall_ne_some.mpr fun n hn => ?_
    rw [applyOrdered_eq_error_iff.mpr hn] at hu
    cases hu
  · intro hnone
    cases hrun : applyOrdered t.length t (ordered edits) with
    | ok u => exact ⟨u, rfl⟩
    | error n =>
      rw [applyOrdered_eq_error_iff.mp hrun] at hnone
      cases hnone

end Edit

/-! ### Patches, offset by offset -/

namespace Patch

variable {t : Bytes} {l rest : List Patch} {p : Patch} {lo hi i : Nat}

/-- What the patches that begin at an offset put there, one after the other. -/
def beginning (l : List Patch) (i : Nat) : Bytes :=
  (l.filter fun p => p.start = i).flatMap (·.bytes)

/-- The byte at an offset, if there is one and no patch covers it. -/
def kept (t : Bytes) (l : List Patch) (i : Nat) : Bytes :=
  if ∃ p ∈ l, p.start ≤ i ∧ i < p.stop then [] else t[i]?.toList

theorem beginning_cons (p : Patch) (rest : List Patch) (i : Nat) :
    beginning (p :: rest) i = (if p.start = i then p.bytes else []) ++ beginning rest i := by
  unfold beginning
  by_cases hp : p.start = i <;> simp [hp]

theorem beginning_of_ne (h : ∀ p ∈ l, p.start ≠ i) : beginning l i = [] := by
  unfold beginning
  rw [List.filter_eq_nil_iff.mpr fun p hp => by simpa using h p hp, List.flatMap_nil]

theorem kept_of_covered (h : ∃ p ∈ l, p.start ≤ i ∧ i < p.stop) : kept t l i = [] := if_pos h

theorem kept_of_free (h : ∀ p ∈ l, p.start ≤ i → p.stop ≤ i) : kept t l i = t[i]?.toList := by
  refine if_neg ?_
  rintro ⟨p, hp, hstart, hstop⟩
  have := h p hp hstart
  omega

/-- Past a patch, or where it covers nothing, only the others count. -/
theorem kept_cons (h : p.start ≤ i → p.stop ≤ i) : kept t (p :: rest) i = kept t rest i := by
  unfold kept
  refine if_congr ?_ rfl rfl
  constructor
  · rintro ⟨q, hq, hstart, hstop⟩
    rcases List.mem_cons.mp hq with rfl | hq
    · have := h hstart
      omega
    · exact ⟨q, hq, hstart, hstop⟩
  · rintro ⟨q, hq, hcovers⟩
    exact ⟨q, List.mem_cons_of_mem _ hq, hcovers⟩

/-- The bytes from an offset on, one by one. -/
theorem flatMap_getElem? (t : Bytes) (lo n : Nat) :
    (List.range' lo n).flatMap (fun i => t[i]?.toList) = (t.drop lo).take n := by
  induction n generalizing lo with
  | zero => rfl
  | succ n ih =>
    rw [List.range'_succ, List.flatMap_cons, ih]
    by_cases hlo : lo < t.length
    · rw [List.drop_eq_getElem_cons hlo, List.take_succ_cons, List.getElem?_eq_getElem hlo]
      rfl
    · rw [List.getElem?_eq_none (by omega), List.drop_eq_nil_of_le (by omega),
        List.drop_eq_nil_of_le (by omega)]
      simp

/-- What the patches make of the offsets from one up to, not including, another. -/
def made (t : Bytes) (l : List Patch) (lo hi : Nat) : Bytes :=
  (List.range' lo (hi - lo)).flatMap fun i => beginning l i ++ kept t l i

theorem made_append {c : Nat} (h : lo ≤ c) (h' : c ≤ hi) : made t l lo c ++ made t l c hi = made t l lo hi := by
  unfold made
  rw [← List.flatMap_append]
  rw [show hi - lo = c - lo + (hi - c) by omega, ← List.range'_append, Nat.one_mul,
    Nat.add_sub_cancel' h]

theorem made_congr {l' : List Patch} (h : ∀ i, lo ≤ i → i < hi →
    beginning l i ++ kept t l i = beginning l' i ++ kept t l' i) : made t l lo hi = made t l' lo hi := by
  unfold made
  rw [List.flatMap_def, List.flatMap_def]
  refine congrArg List.flatten (List.map_congr_left fun i hi' => ?_)
  have hrange := List.mem_range'_1.mp hi'
  exact h i hrange.1 (by omega)

theorem made_nil (t : Bytes) (lo hi : Nat) : made t [] lo hi = (t.drop lo).take (hi - lo) := by
  rw [← flatMap_getElem?]
  rfl

/-- Where no patch begins and none covers anything, all stays. -/
theorem made_of_free (h : ∀ p ∈ l, hi ≤ p.start) : made t l lo hi = (t.drop lo).take (hi - lo) := by
  rw [← made_nil]
  refine made_congr fun i _ hi' => ?_
  rw [beginning_of_ne fun p hp => ?_, kept_of_free fun p hp hstart => ?_]
  · rfl
  all_goals have := h p hp; omega

/-- Behind its first offset a patch counts for what it covers only. -/
theorem made_past (hstop : p.stop ≤ lo) (hstart : p.start < lo) :
    made t (p :: rest) lo hi = made t rest lo hi := by
  refine made_congr fun i hi' _ => ?_
  rw [beginning_cons, if_neg (by omega), kept_cons (by omega), List.nil_append]

/-- At its first offset a patch puts its bytes. -/
theorem made_one (t : Bytes) (p : Patch) (rest : List Patch) : made t (p :: rest) p.start (p.start + 1) =
    p.bytes ++ (beginning rest p.start ++ kept t (p :: rest) p.start) := by
  unfold made
  rw [Nat.add_sub_cancel_left]
  simp [beginning_cons]

/-- What a patch makes of the offsets that it covers, and of its first one in any case. -/
theorem made_cover (hle : p.start ≤ p.stop) (hbehind : ∀ q ∈ rest, p.stop ≤ q.start) :
    made t (p :: rest) p.start (max p.stop (p.start + 1)) =
      p.bytes ++ made t rest p.stop (max p.stop (p.start + 1)) := by
  by_cases hempty : p.stop = p.start
  · have hmax : max p.stop (p.start + 1) = p.start + 1 := by omega
    rw [hmax, made_one, hempty, kept_cons (by omega)]
    unfold made
    rw [Nat.add_sub_cancel_left]
    simp
  · have hmax : max p.stop (p.start + 1) = p.stop := by omega
    have hcovered : made t (p :: rest) (p.start + 1) p.stop = [] := by
      unfold made
      refine List.flatMap_eq_nil_iff.mpr fun i hi' => ?_
      have hrange := List.mem_range'_1.mp hi'
      rw [beginning_of_ne, kept_of_covered ⟨p, List.mem_cons_self .., by omega, by omega⟩, List.append_nil]
      refine List.forall_mem_cons.mpr ⟨by omega, fun q hq => ?_⟩
      have := hbehind q hq
      omega
    rw [hmax, ← made_append (c := p.start + 1) (by omega) (by omega), made_one, hcovered,
      kept_of_covered ⟨p, List.mem_cons_self .., Nat.le_refl _, by omega⟩, beginning_of_ne]
    · simp [made]
    · intro q hq
      have := hbehind q hq
      omega

/-- Patches in order make of each offset what is begun there, and then the byte that stands there, if none of
them covers it. -/
theorem patched_eq_made (h : InOrder lo hi l) : patched t lo hi l = made (t.take hi) l lo (hi + 1) := by
  induction l generalizing lo with
  | nil =>
    have hle : lo ≤ hi := h
    have hall : ((t.take hi).drop lo).length ≤ hi + 1 - lo := by
      rw [List.length_drop, List.length_take]
      omega
    rw [made_nil, patched_nil, Bytes.slice, List.take_of_length_le hall]
  | cons p rest ih =>
    obtain ⟨hlo, hle, hrest⟩ := h
    have hhi := hrest.le
    have hbehind : ∀ q ∈ rest, p.stop ≤ q.start := fun q hq => (hrest.bounds hq).1
    -- Before the patch all stays, as the others lie behind it.
    have hbefore : made (t.take hi) (p :: rest) lo p.start = t.slice lo p.start := by
      rw [made_of_free, Bytes.slice, List.drop_take, List.drop_take, List.take_take]
      · congr 1
        omega
      · exact List.forall_mem_cons.mpr ⟨Nat.le_refl _, fun q hq => Nat.le_trans hle (hbehind q hq)⟩
    have hsplit : made (t.take hi) rest p.stop (hi + 1) = _ :=
      (made_append (c := max p.stop (p.start + 1)) (by omega) (by omega)).symm
    calc patched t lo hi (p :: rest)
        = t.slice lo p.start ++ (p.bytes ++ made (t.take hi) rest p.stop (hi + 1)) := by
          rw [patched, ih hrest, List.append_assoc]
      _ = t.slice lo p.start ++ made (t.take hi) (p :: rest) p.start (hi + 1) := by
          rw [hsplit, ← List.append_assoc p.bytes, ← made_cover hle hbehind,
            ← made_past (p := p) (Nat.le_max_left ..) (by omega), made_append (by omega) (by omega)]
      _ = made (t.take hi) (p :: rest) lo (hi + 1) := by
          rw [← hbefore, made_append hlo (by omega)]

end Patch

/-! ### All edits at once -/

namespace Edit

variable {edits edits' : List Edit} {t u : Bytes} {i n : Nat}

/-- The edits of a batch that only insert at an offset, in the order of the batch. -/
def insertionsAt {τ : Type} (edits : List (Edit τ)) (i : Nat) : List (Edit τ) :=
  edits.filter fun e => e.start = i ∧ e.stop = i

/-- The edits of a batch that replace what begins at an offset. -/
def replacementsAt (edits : List Edit) (i : Nat) : List Edit :=
  edits.filter fun e => e.start = i ∧ i < e.stop

/-- What a batch puts at an offset: what is inserted there, the later in the batch first, and what is put in
the place of the bytes from there on. -/
def insertedAt (edits : List Edit) (i : Nat) : Bytes :=
  ((insertionsAt edits i).reverse ++ replacementsAt edits i).flatMap fun e => Bytes.ofString e.text

/-- The byte at an offset, if there is one and no edit covers it. -/
def keptAt (t : Bytes) (edits : List Edit) (i : Nat) : Bytes :=
  if ∃ e ∈ edits, e.start ≤ i ∧ i < e.stop then [] else t[i]?.toList

/-- The text with all edits of a batch made at once. -/
def replacedAtOnce (t : Bytes) (edits : List Edit) : Bytes :=
  (List.range (t.length + 1)).flatMap fun i => insertedAt edits i ++ keptAt t edits i

/-- Of the edits that begin at an offset, those that replace something stand in an ordered batch before those
that only insert. -/
theorem filter_start_eq (hl : ∀ e ∈ edits, e.start ≤ e.stop)
    (hordered : edits.Pairwise fun a b => b.isBehind a = false) (i : Nat) :
    edits.filter (fun e => e.start = i) = replacementsAt edits i ++ insertionsAt edits i := by
  induction edits with
  | nil => rfl
  | cons e rest ih =>
    obtain ⟨he, hrest⟩ := List.pairwise_cons.mp hordered
    have hle := hl e (List.mem_cons_self ..)
    have ih := ih (fun f hf => hl f (List.mem_cons_of_mem _ hf)) hrest
    unfold replacementsAt insertionsAt at ih ⊢
    by_cases hstart : e.start = i
    · by_cases hstop : i < e.stop
      · have hno : e.stop ≠ i := by omega
        simp [hstart, hstop, hno, ih]
      · have hyes : e.stop = i := by omega
        -- What comes after an insertion and begins there is an insertion too.
        have hnone : rest.filter (fun f => f.start = i ∧ i < f.stop) = [] := by
          refine List.filter_eq_nil_iff.mpr fun f hf hboth => ?_
          have hboth := of_decide_eq_true hboth
          have hbehind := isBehind_eq_false_iff.mp (he f hf)
          omega
        rw [List.filter_cons_of_pos (by simpa using hstart), ih, List.filter_cons_of_neg (by simp [hyes]), hnone,
          List.filter_cons_of_pos (by simp [hstart, hyes])]
        rfl
    · simp [hstart, ih]

/-- Of edits that do not overlap, at most one replaces what begins at an offset. -/
theorem replacementsAt_eq (h : edits.Pairwise Apart) (i : Nat) :
    replacementsAt edits i = [] ∨ ∃ e, replacementsAt edits i = [e] := by
  have hapart : (replacementsAt edits i).Pairwise Apart := h.sublist List.filter_sublist
  have hmem : ∀ e ∈ replacementsAt edits i, e.start = i ∧ i < e.stop := fun e he =>
    of_decide_eq_true (List.mem_filter.mp he).2
  match hr : replacementsAt edits i with
  | [] => exact .inl rfl
  | [e] => exact .inr ⟨e, rfl⟩
  | a :: b :: more =>
    rw [hr] at hapart hmem
    have ha := hmem a (by simp)
    have hb := hmem b (by simp)
    rcases (List.pairwise_cons.mp hapart).1 b (by simp) with hab | hab <;> omega

theorem insertionsAt_ordered (edits : List Edit) (i : Nat) :
    insertionsAt (ordered edits) i = insertionsAt edits i := by
  refine filter_ordered (fun a b ha hb => ?_) edits
  have ha := of_decide_eq_true ha
  have hb := of_decide_eq_true hb
  rw [isBehind_eq_false_iff]
  omega

/-- Batches of the same edits replace the same at each offset, where the edits do not overlap. -/
theorem replacementsAt_congr (h : edits'.Perm edits) (hapart : edits.Pairwise Apart) (i : Nat) :
    replacementsAt edits' i = replacementsAt edits i := by
  have hperm : (replacementsAt edits' i).Perm (replacementsAt edits i) := h.filter _
  rcases replacementsAt_eq hapart i with hr | ⟨e, hr⟩
  · rw [hr] at hperm ⊢
    exact hperm.eq_nil
  · rw [hr] at hperm ⊢
    exact List.perm_singleton.mp hperm

/-- A batch that can be applied makes all its edits at once. -/
theorem applyAll_at_once (h : applyAll edits t = .ok u) (hedits : ∀ e ∈ edits, e.start ≤ e.stop) :
    u = replacedAtOnce t edits := by
  have hordered : ∀ e ∈ ordered edits, e.start ≤ e.stop := fun e he => hedits e (mem_ordered_iff.mp he)
  have hapart := ((exists_applyAll_iff hedits).mp ⟨u, h⟩).2
  obtain ⟨horder, hu⟩ := applyOrdered_eq_patched h (Nat.le_refl _) hordered
  rw [hu, Patch.patched_eq_made horder, List.take_length, List.drop_length, List.append_nil]
  unfold Patch.made replacedAtOnce
  rw [List.range_eq_range', Nat.sub_zero]
  congr 1
  funext i
  congr 1
  · have hfilter : ((ordered edits).reverse.map patch).filter (fun p => p.start = i) =
        ((ordered edits).reverse.filter fun e => e.start = i).map patch := by
      rw [List.filter_map]
      rfl
    have hreplaced : (replacementsAt (ordered edits) i).reverse = replacementsAt edits i := by
      rw [replacementsAt_congr (ordered_perm edits) hapart]
      rcases replacementsAt_eq hapart i with hr | ⟨e, hr⟩ <;> rw [hr] <;> rfl
    unfold Patch.beginning insertedAt
    rw [hfilter, List.filter_reverse, filter_start_eq hordered (ordered_pairwise edits), List.reverse_append,
      insertionsAt_ordered, hreplaced, List.flatMap_map]
    rfl
  · unfold Patch.kept keptAt
    refine if_congr ?_ rfl rfl
    constructor
    · rintro ⟨p, hp, hcovers⟩
      obtain ⟨e, he, rfl⟩ := List.mem_map.mp hp
      exact ⟨e, mem_ordered_iff.mp (List.mem_reverse.mp he), hcovers⟩
    · rintro ⟨e, he, hcovers⟩
      exact ⟨e.patch, List.mem_map_of_mem (List.mem_reverse.mpr (mem_ordered_iff.mpr he)), hcovers⟩

/-- The order of a batch bears on what it does only through the insertions at one place. -/
theorem applyAll_congr (h : edits.Perm edits') (hedits : ∀ e ∈ edits, e.start ≤ e.stop)
    (hinsertions : ∀ i, insertionsAt edits i = insertionsAt edits' i) : applyAll edits t = applyAll edits' t := by
  have hedits' : ∀ e ∈ edits', e.start ≤ e.stop := fun e he => hedits e (h.mem_iff.mpr he)
  have herror : ∀ n, applyAll edits t = .error n ↔ applyAll edits' t = .error n := by
    intro n
    unfold applyAll
    rw [applyOrdered_eq_error_iff, applyOrdered_eq_error_iff, misfit?_congr (ordered_ranges_congr (h.map _))]
  cases hrun : applyAll edits t with
  | error n => exact ((herror n).mp hrun).symm
  | ok u =>
    cases hrun' : applyAll edits' t with
    | error n =>
      rw [(herror n).mpr hrun'] at hrun
      cases hrun
    | ok u' =>
      have hapart' := ((exists_applyAll_iff hedits').mp ⟨u', hrun'⟩).2
      have hinserted : ∀ i, insertedAt edits i = insertedAt edits' i := by
        intro i
        unfold insertedAt
        rw [hinsertions, replacementsAt_congr h hapart']
      have hkept : ∀ i, keptAt t edits i = keptAt t edits' i := by
        intro i
        unfold keptAt
        exact if_congr (exists_congr fun e => and_congr_left' h.mem_iff) rfl rfl
      rw [applyAll_at_once hrun hedits, applyAll_at_once hrun' hedits']
      unfold replacedAtOnce
      simp only [hinserted, hkept]

end Edit

namespace SourceFile

variable {f : SourceFile} {edits : List Edit}

/-- A batch can be applied to a file exactly when its edits end within the text and none overlaps another. -/
theorem exists_edited_iff (h : ∀ e ∈ edits, e.start ≤ e.stop) :
    (∃ g, f.edited edits = .ok g) ↔ (∀ e ∈ edits, e.stop ≤ f.text.length) ∧ edits.Pairwise Edit.Apart := by
  rw [← Edit.exists_applyAll_iff h]
  unfold edited
  split
  case isTrue hempty =>
    obtain rfl := List.isEmpty_iff.mp hempty
    exact ⟨fun _ => ⟨f.text, rfl⟩, fun _ => ⟨f, rfl⟩⟩
  case isFalse =>
    cases Edit.applyAll edits f.text with
    | ok t => exact ⟨fun _ => ⟨t, rfl⟩, fun _ => ⟨_, rfl⟩⟩
    | error n =>
      constructor <;> rintro ⟨_, ⟨⟩⟩

theorem edited_error {x : Fault} (h : f.edited edits = .error x) :
    ∃ e ∈ edits, x = .overlappingEdits f.path e.start := by
  unfold edited at h
  split at h
  · cases h
  · split at h
    · cases h
    · rename_i n hrun
      obtain ⟨e, he, rfl⟩ := Edit.exists_of_misfit? (Edit.applyOrdered_eq_error_iff.mp hrun)
      cases h
      exact ⟨e, Edit.mem_ordered_iff.mp he, rfl⟩

end SourceFile

/-- A batch is refused exactly when an edit ends behind the text or two edits overlap, and then nothing is
changed. Otherwise all its edits are made at once, and the order of the batch bears on nothing but insertions
at one place. -/
theorem SourceFile.edited_at_once (f : SourceFile) (edits : List Edit) (h : ∀ e ∈ edits, e.start ≤ e.stop) :
    ((∃ x, f.edited edits = .error x) ↔
      (∃ e ∈ edits, f.text.length < e.stop) ∨ ¬ edits.Pairwise Edit.Apart) ∧
    (∀ x, f.edited edits = .error x → (∃ e ∈ edits, x = .overlappingEdits f.path e.start) ∧
      ∀ w j, Workspace.edit f edits w j = (.error x, w, j)) ∧
    (∀ g, f.edited edits = .ok g →
      g = { f with text := Edit.replacedAtOnce f.text edits, dirty := !edits.isEmpty || f.dirty } ∧
        ∀ w j, Workspace.edit f edits w j = (.ok g, w.setFile g, j)) ∧
    ∀ edits', edits.Perm edits' → (∀ i, Edit.insertionsAt edits i = Edit.insertionsAt edits' i) →
      f.edited edits' = f.edited edits := by
  refine ⟨?_, fun x hx => ⟨edited_error hx, fun w j => ?_⟩, fun g hg => ⟨?_, fun w j => ?_⟩, ?_⟩
  · have hok := exists_edited_iff (f := f) h
    have hnot : (∃ x, f.edited edits = .error x) ↔ ¬ ∃ g, f.edited edits = .ok g := by
      cases f.edited edits with
      | ok g => simp
      | error x => simp
    rw [hnot, hok, not_and_or]
    simp only [not_forall, Nat.not_le, exists_prop]
  · unfold Workspace.edit
    rw [hx]
    rfl
  · unfold edited at hg
    split at hg
    case isTrue hempty =>
      cases hg
      obtain rfl := List.isEmpty_iff.mp hempty
      have htext : Edit.replacedAtOnce f.text [] = f.text := (Edit.applyAll_at_once rfl (by simp)).symm
      rw [htext]
      rfl
    case isFalse hfilled =>
      split at hg
      case h_1 u hu =>
        cases hg
        rw [Edit.applyAll_at_once hu h]
        simp [hfilled]
      case h_2 => cases hg
  · unfold Workspace.edit
    rw [hg]
    rfl
  · intro edits' hperm hinsertions
    have hempty : edits'.isEmpty = edits.isEmpty := by
      rw [Bool.eq_iff_iff, List.isEmpty_iff, List.isEmpty_iff]
      exact ⟨fun e => (e ▸ hperm).eq_nil, fun e => (e ▸ hperm).symm.eq_nil⟩
    unfold edited
    rw [hempty, Edit.applyAll_congr hperm h hinsertions]

end Codemod
