import Codemod.Proofs.Utf8Bytes
import Codemod.Proofs.Watches

/-!
# Where names stand

In some nodes names of some kinds stand only behind certain nodes, or else before a certain mark. A `Ward` is a rule of
that form. It is kept by all trees of the grammar if its watch is right about the grammar, which is a finite check.

Main statements:

* `Ward.stands` says where a name stands in a node that a ward accepts.
-/

namespace Codemod.Syntax

open Pattern Grammar

/-- A rule about where names stand in nodes: behind what lets a name follow, or before a mark. -/
structure Ward where
  /-- The nodes that are looked at. -/
  holds : Kind → Bool
  /-- What counts as a name. -/
  name : Sight → Bool
  /-- Whether a name may stand first. -/
  first : Bool
  /-- What lets a name follow. -/
  opens : Sight → Bool
  /-- The mark that has to follow a name that stands elsewhere, if it may. -/
  mark? : Option Bytes

namespace Ward

/-- How far the children of a node have been looked at. -/
inductive Phase
  /-- The node is none that is looked at. -/
  | free
  /-- A name may follow. -/
  | opened
  /-- A name may follow only before the mark. -/
  | shut
  /-- The mark has to follow. -/
  | pending
  /-- A name stood where none may. -/
  | lost
  deriving DecidableEq, Repr

variable (w : Ward)

/-- Behind what lets a name follow. -/
def behind (c : Sight) : Phase := if w.opens c then .opened else .shut

/-- One more node. -/
def step : Phase → Sight → Phase
  | .free, _ => .free
  | .opened, c => w.behind c
  | .shut, c => if w.name c then (if w.mark?.isSome then .pending else .lost) else w.behind c
  | .pending, c => if w.mark?.any (fun m => c == ⟨.symbol, m⟩) then w.behind c else .lost
  | .lost, _ => .lost

/-- The phases that one more node may lead to. -/
def next : Phase → List Phase
  | .free => [.free]
  | .opened => [.opened, .shut]
  | .shut => if w.mark?.isSome then [.opened, .shut, .pending] else [.opened, .shut, .lost]
  | .pending => [.opened, .shut, .lost]
  | .lost => [.lost]

theorem behind_mem (c : Sight) : w.behind c = .opened ∨ w.behind c = .shut := by
  unfold behind
  split <;> simp

theorem step_mem (q : Phase) (c : Sight) : w.step q c ∈ w.next q := by
  cases q with
  | free => exact List.mem_singleton_self _
  | opened => rcases w.behind_mem c with h | h <;> simp [step, next, h]
  | shut =>
    rcases w.behind_mem c with h | h <;> cases hmark : w.mark?.isSome <;> cases hname : w.name c <;>
      simp [step, next, h, hmark, hname]
  | pending =>
    show (if w.mark?.any (fun m => c == ⟨.symbol, m⟩) then w.behind c else .lost) ∈ [Phase.opened, .shut, .lost]
    split
    · rcases w.behind_mem c with h | h <;> simp [h]
    · simp
  | lost => exact List.mem_singleton_self _

/-- The rules that add a single node, with what it is if that is known. -/
def nodeOf : Rule → Option Kind
  | .typeArguments => some .typeArguments
  | .typeParameters => some .typeParameters
  | .objectType => some .objectType
  | .arrow => some .expression
  | .parameters => some .parameters
  | .functionBody | .block => some .statementBlock
  | .classBody => some .classBody
  | .decorator => some .decorator
  | .markup => some .markup
  | _ => none

/-- Rules that add a single node. -/
def isSingle : Rule → Bool
  | .type | .plainType | .resultType | .sequence | .expression | .target | .declaration | .statement => true
  | _ => false

def allPhases : List Phase := [.free, .opened, .shut, .pending, .lost]

/-- The phases that what a rule reads may lead to; `known` tells more of some rules. -/
def after (known : Rule → Phase → Option (List Phase)) (r : Rule) : Phase → List Phase
  | .free => [.free]
  | .lost => [.lost]
  | q => (known r q).getD (match nodeOf r with
      | some k => [w.step q ⟨k, []⟩]
      | none => if isSingle r then w.next q else allPhases)

/-- Goes along the children of nodes as a ward says. -/
def watch (known : Rule → Phase → Option (List Phase)) : Watch Rule Phase where
  start k := if w.holds k then (if w.first then .opened else .shut) else .free
  step := w.step
  accepts q := q != .lost && q != .pending
  next := w.next
  after := w.after known
  states := allPhases
  step_mem := w.step_mem
  mem_states q := by cases q <;> decide

/-- Whether a name may stand behind this. -/
def lets : Option Sight → Bool
  | none => w.first
  | some c => w.opens c

/-- Where a name may not stand first, it stands behind something. -/
theorem any_of_lets {w : Ward} {before : Option Sight} (hfirst : w.first = false) (h : w.lets before = true) :
    before.any w.opens = true := by
  cases before with
  | none => exact absurd h (by simp [lets, hfirst])
  | some c => exact h

variable {w} {known : Rule → Phase → Option (List Phase)} {source : Bytes} {t holder : Tree} {before behind : List Tree}

theorem along_lost (l : List Sight) : (w.watch known).along .lost l = .lost := by
  induction l with
  | nil => rfl
  | cons c rest ih => exact ih

/-- Where a name may follow, what stands before lets it. -/
theorem lets_of_along {q : Phase} {l : List Sight} (hq : q ≠ .free ∧ (q = .opened → w.first = true))
    (h : (w.watch known).along q l = .opened) : w.lets l.getLast? = true := by
  rcases List.eq_nil_or_concat l with rfl | ⟨front, c, rfl⟩
  · exact hq.2 h
  · rw [List.concat_eq_append, Watch.along_append] at h
    rw [List.concat_eq_append, List.getLast?_concat]
    have hbehind : w.behind c = .opened := by
      change w.step _ c = .opened at h
      unfold step at h
      split at h
      · cases h
      · exact h
      · split at h
        · split at h <;> cases h
        · exact h
      · split at h
        · exact h
        · cases h
      · cases h
    unfold behind at hbehind
    split at hbehind
    · assumption
    · cases hbehind

theorem along_ne_free {q : Phase} {l : List Sight} (hq : q ≠ .free) : (w.watch known).along q l ≠ .free := by
  induction l generalizing q with
  | nil => exact hq
  | cons c rest ih =>
    refine ih (q := w.step q c) ?_
    have hbehind : w.behind c ≠ .free := by
      rcases w.behind_mem c with h | h <;> simp [h]
    cases q with
    | free => exact absurd rfl hq
    | opened => exact hbehind
    | shut =>
      unfold step
      dsimp only
      split
      · split <;> simp
      · exact hbehind
    | pending =>
      unfold step
      dsimp only
      split
      · exact hbehind
      · simp
    | lost => simp [step]

/-- A name stands behind what lets it follow, or before the mark. -/
theorem stands (h : (w.watch known).Accepts source holder) (hholds : w.holds holder.kind = true)
    (hchildren : holder.children = before ++ t :: behind) (ht : t.is .comment = false) (hsymbol : t.is .symbol = false)
    (hname : w.name (t.sight source) = true) :
    w.lets (Tree.sights source before).getLast? = true ∨
      ∃ m, w.mark? = some m ∧ (Tree.sights source behind).head? = some ⟨.symbol, m⟩ := by
  have hstart : (w.watch known).start holder.kind = if w.first then .opened else .shut := if_pos hholds
  have hsplit : holder.children = before ++ ([t] ++ behind) := hchildren
  unfold Watch.Accepts at h
  rw [hsplit, Tree.sights_append, Tree.sights_append, Tree.sights_one ht, Watch.along_append, Watch.along_append] at h
  have hfree : (w.watch known).start holder.kind ≠ .free := by
    rw [hstart]
    split <;> simp
  cases hq : (w.watch known).along ((w.watch known).start holder.kind) (Tree.sights source before) with
  | free => exact absurd hq (along_ne_free hfree)
  | opened =>
    refine .inl (lets_of_along ⟨hfree, fun hopened => ?_⟩ hq)
    rw [hstart] at hopened
    split at hopened
    · assumption
    · cases hopened
  | shut =>
    rw [hq] at h
    have hstep : (w.watch known).along .shut [t.sight source] = if w.mark?.isSome then .pending else .lost := by
      show w.step .shut (t.sight source) = _
      simp [step, hname]
    rw [hstep] at h
    cases hmark : w.mark? with
    | none =>
      rw [hmark] at h
      rw [show ((w.watch known).along (if (none : Option Bytes).isSome then Phase.pending else .lost)
        (Tree.sights source behind)) = .lost from along_lost _] at h
      cases h
    | some m =>
      rw [hmark] at h
      refine .inr ⟨m, rfl, ?_⟩
      cases hbehind : Tree.sights source behind with
      | nil =>
        rw [hbehind] at h
        cases h
      | cons c rest =>
        rw [hbehind] at h
        by_cases hc : c = ⟨.symbol, m⟩
        · rw [hc]
          rfl
        · have hlost : w.step .pending c = .lost := by simp [step, hmark, hc]
          have h : (w.watch known).accepts ((w.watch known).along (w.step .pending c) rest) = true := h
          rw [hlost, along_lost] at h
          cases h
  | pending =>
    rw [hq] at h
    have hlost : w.step .pending (t.sight source) = .lost := by
      have hno : ∀ m, (t.sight source == ⟨.symbol, m⟩) = false := fun m => by
        refine beq_eq_false_iff_ne.mpr fun heq => ?_
        rw [Tree.is, show t.kind = .symbol from congrArg Sight.kind heq] at hsymbol
        cases hsymbol
      cases hmark : w.mark? <;> simp [step, hmark, hno]
    have h : (w.watch known).accepts ((w.watch known).along (w.step .pending (t.sight source))
      (Tree.sights source behind)) = true := h
    rw [hlost, along_lost] at h
    cases h
  | lost =>
    rw [hq] at h
    have h : (w.watch known).accepts ((w.watch known).along .lost (Tree.sights source behind)) = true := h
    rw [along_lost] at h
    cases h

end Ward

/-- Whether a sign is seen. -/
def isSignOf (l : List String) (c : Sight) : Bool := l.any fun s => c == ⟨.symbol, Bytes.ofString s⟩

theorem isSignOf_iff {l : List String} {c : Sight} : isSignOf l c = true ↔ ∃ s ∈ l, c = ⟨.symbol, Bytes.ofString s⟩ := by
  simp [isSignOf, List.any_eq_true]

/-- What is one sign is no other. -/
theorem isSignOf_of_disjoint {l l' : List String} {c : Sight} (h : isSignOf l c = true)
    (hl : ∀ s ∈ l, s ∉ l') : isSignOf l' c = false := by
  obtain ⟨s, hs, rfl⟩ := isSignOf_iff.mp h
  refine Bool.eq_false_iff.mpr fun h' => ?_
  obtain ⟨s', hs', heq⟩ := isSignOf_iff.mp h'
  exact hl s hs (Bytes.ofString_injective (congrArg Sight.text heq) ▸ hs')

theorem isSignOf_of_subset {l l' : List String} {c : Sight} (h : isSignOf l c = true) (hl : l ⊆ l') :
    isSignOf l' c = true := by
  obtain ⟨s, hs, hc⟩ := isSignOf_iff.mp h
  exact isSignOf_iff.mpr ⟨s, hl hs, hc⟩

theorem any_isSignOf_of_disjoint {l l' : List String} {before : Option Sight} (h : before.any (isSignOf l) = true)
    (hl : ∀ s ∈ l, s ∉ l') : before.any (isSignOf l') = false := by
  cases before with
  | none => rfl
  | some c => exact isSignOf_of_disjoint h hl

theorem any_isSignOf_of_subset {l l' : List String} {before : Option Sight} (h : before.any (isSignOf l) = false)
    (hl : l' ⊆ l) : before.any (isSignOf l') = false := by
  cases before with
  | none => rfl
  | some c =>
    refine Bool.eq_false_iff.mpr fun hc => ?_
    rw [Option.any_some, isSignOf_of_subset hc hl] at h
    cases h

theorem isSignOf_append (l l' : List String) (c : Sight) : isSignOf (l ++ l') c = (isSignOf l c || isSignOf l' c) :=
  List.any_append

end Codemod.Syntax

namespace Codemod

open Syntax Syntax.Tree

namespace Syntax.Tree

variable {source : Bytes} {lo hi : Nat} {t holder : Tree} {before behind l : List Tree}

/-- What is seen before a node among those that are held with it, comments aside. -/
def seenBefore (source : Bytes) (holder t : Tree) : Option Sight :=
  (sights source (holder.children.filter fun c => c.stop ≤ t.start)).getLast?

/-- What is seen behind a node among those that are held with it, comments aside. -/
def seenBehind (source : Bytes) (holder t : Tree) : Option Sight :=
  (sights source (holder.children.filter fun c => t.stop ≤ c.start)).head?

/-- Where nodes lie in order, those before one of them end before it. -/
theorem PlacedIn.filter_around (h : PlacedIn source lo hi (before ++ t :: behind)) (ht : t.start < t.stop) :
    (before ++ t :: behind).filter (fun c => c.stop ≤ t.start) = before ∧
      (before ++ t :: behind).filter (fun c => t.stop ≤ c.start) = behind := by
  have hpairs := h.pairwise
  have hle : ∀ c ∈ before ++ t :: behind, c.start ≤ c.stop := fun c hc => (h.bounds hc).2.1.start_le
  obtain ⟨-, htail, hbefore⟩ := List.pairwise_append.mp hpairs
  obtain ⟨hbehind, -⟩ := List.pairwise_cons.mp htail
  have hfirst : ∀ c ∈ before, c.start ≤ c.stop ∧ c.stop ≤ t.start := fun c hc =>
    ⟨hle c (List.mem_append_left _ hc), hbefore c hc t (List.mem_cons_self ..)⟩
  have hlast : ∀ c ∈ behind, t.stop ≤ c.start ∧ c.start ≤ c.stop := fun c hc =>
    ⟨hbehind c hc, hle c (List.mem_append_right _ (List.mem_cons_of_mem _ hc))⟩
  have hall : before.filter (fun c => c.stop ≤ t.start) = before :=
    List.filter_eq_self.mpr fun c hc => decide_eq_true (hfirst c hc).2
  have hnone : behind.filter (fun c => c.stop ≤ t.start) = [] := List.filter_eq_nil_iff.mpr fun c hc => by
    have := hlast c hc
    simp only [decide_eq_true_eq]
    omega
  have hnone' : before.filter (fun c => t.stop ≤ c.start) = [] := List.filter_eq_nil_iff.mpr fun c hc => by
    have := hfirst c hc
    simp only [decide_eq_true_eq]
    omega
  have hall' : behind.filter (fun c => t.stop ≤ c.start) = behind :=
    List.filter_eq_self.mpr fun c hc => decide_eq_true (hlast c hc).1
  constructor
  · rw [List.filter_append, List.filter_cons_of_neg (by simp only [decide_eq_true_eq]; omega), hall, hnone,
      List.append_nil]
  · rw [List.filter_append, List.filter_cons_of_neg (by simp only [decide_eq_true_eq]; omega), hnone', hall',
      List.nil_append]

end Syntax.Tree

/-- Where the names of a file stand. -/
theorem SourceFile.stands {w : Ward} {known : Rule → Ward.Phase → Option (List Ward.Phase)} {f : SourceFile}
    {t holder : Tree} {rest : List Tree} (hw : (w.watch known).WatchesSources)
    (ho : (t, holder :: rest) ∈ f.tree.occurrences []) (hpos : t.start < t.stop) (hholds : w.holds holder.kind = true)
    (hkind : t.kind ≠ .comment ∧ t.kind ≠ .symbol) (hname : w.name (t.sight f.text) = true) :
    w.lets (seenBefore f.text holder t) = true ∨
      ∃ m, w.mark? = some m ∧ seenBehind f.text holder t = some ⟨.symbol, m⟩ := by
  obtain ⟨hmem, hholder⟩ := SourceFile.holder_of_occurrence ho
  obtain ⟨before, behind, hchildren⟩ := List.append_of_mem hmem
  have hplaced := (f.tree_placed.bounds_of_occurrence hholder).2.1.children
  rw [hchildren] at hplaced
  obtain ⟨hbefore, hbehind⟩ := hplaced.filter_around hpos
  unfold seenBefore seenBehind
  rw [hchildren, hbefore, hbehind]
  exact Ward.stands (SourceFile.accepts hw hholder) hholds hchildren (decide_eq_false hkind.1)
    (decide_eq_false hkind.2) hname

/-- Where no mark may follow a name, what stands before it lets it. -/
theorem SourceFile.lets {w : Ward} {known : Rule → Ward.Phase → Option (List Ward.Phase)} {f : SourceFile}
    {t holder : Tree} {rest : List Tree} (hw : (w.watch known).WatchesSources) (hmark : w.mark? = none)
    (ho : (t, holder :: rest) ∈ f.tree.occurrences []) (hpos : t.start < t.stop) (hholds : w.holds holder.kind = true)
    (hkind : t.kind ≠ .comment ∧ t.kind ≠ .symbol) (hname : w.name (t.sight f.text) = true) :
    w.lets (seenBefore f.text holder t) = true := by
  rcases SourceFile.stands hw ho hpos hholds hkind hname with hlets | ⟨m, hm, -⟩
  · exact hlets
  · rw [hmark] at hm
    cases hm

end Codemod
