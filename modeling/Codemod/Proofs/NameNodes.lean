import Codemod.Proofs.TreeSpans

/-!
# Names hold nothing

A node that is a name is read as one lexeme, so it holds no other nodes. Of two names in a tree neither lies
within the other, then, and as nodes lie in order and apart, so do names.

Main statements:

* `Pattern.run_namesBare` says that reading by a pattern builds names that hold nothing;
* `parse_namesBare` says so of the tree of a source;
* `Tree.leaves_pairwise` says that the nodes of a tree that hold nothing follow one another;
* `Tree.names_pairwise` says so of its names.
-/

namespace Codemod.Syntax

/-- The kinds of nodes that are names. -/
def Kind.ofNames : List Kind :=
  [.identifier, .typeIdentifier, .shorthandProperty]

theorem isName_iff {t : Tree} : NamedImport.isName t = true ↔ t.kind ∈ Kind.ofNames := by
  simp [NamedImport.isName, Tree.is, Kind.ofNames, or_assoc]

namespace Tree

mutual

/-- A node below which, and at which, names hold nothing. -/
def NamesBare : Tree → Prop
  | .node k _ _ _ cs => (k ∈ Kind.ofNames → cs = []) ∧ NamesBareIn cs

/-- Nodes at and below which names hold nothing. -/
def NamesBareIn : List Tree → Prop
  | [] => True
  | t :: rest => t.NamesBare ∧ NamesBareIn rest

end

theorem namesBareIn_iff {l : List Tree} : NamesBareIn l ↔ ∀ t ∈ l, t.NamesBare := by
  induction l with
  | nil => simp [NamesBareIn]
  | cons t rest ih => rw [NamesBareIn, ih, List.forall_mem_cons]

theorem namesBare_iff {t : Tree} :
    t.NamesBare ↔ (t.kind ∈ Kind.ofNames → t.children = []) ∧ ∀ c ∈ t.children, c.NamesBare := by
  cases t
  rw [NamesBare, namesBareIn_iff]
  rfl

theorem namesBare_leaf (k : Kind) (s e : Nat) : (leaf k s e).NamesBare :=
  namesBare_iff.mpr ⟨fun _ => rfl, fun _ hc => absurd hc List.not_mem_nil⟩

theorem NamesBare.withRole {t : Tree} (h : t.NamesBare) (r : Role) : (t.withRole r).NamesBare := by
  cases t
  exact h

end Tree

open Codemod.Syntax.Tree

/-! ### Readings -/

namespace Reading

variable {s done : Reading} {k : Kind}

/-- What has been built for a node holds nothing below names. -/
def Bare (s : Reading) : Prop := ∀ t ∈ s.found, t.NamesBare

theorem Bare.after (h : s.Bare) (t : Trivia) : (s.after t).Bare := by
  intro u hu
  rcases List.mem_append.mp hu with hu | hu
  · obtain ⟨span, -, rfl⟩ := List.mem_map.mp hu
    exact namesBare_leaf _ _ _
  · exact h u hu

theorem Bare.skip (h : s.Bare) : s.skip.Bare := h.after _

theorem bare_inner (s : Reading) : s.inner.Bare := fun _ ht => absurd ht List.not_mem_nil

theorem Bare.take (h : s.Bare) {l : Lexeme} (hdone : s.take l k = some done) : done.Bare := by
  unfold Reading.take at hdone
  split at hdone
  · cases hdone
  · cases hdone
    exact List.forall_mem_cons.mpr ⟨namesBare_leaf _ _ _, h⟩

theorem Bare.close (h : s.Bare) (hdone : done.Bare) (hk : k ∉ Kind.ofNames) : (s.close k done).Bare := by
  refine List.forall_mem_cons.mpr ⟨namesBare_iff.mpr ⟨fun hname => absurd hname hk, fun c hc => ?_⟩, h⟩
  exact hdone c (List.mem_reverse.mp hc)

theorem Bare.closeGroup (h : s.Bare) (hdone : done.Bare) (hk : k ∉ Kind.ofNames) :
    (s.closeGroup k done).Bare := by
  unfold Reading.closeGroup
  split
  · exact List.forall_mem_append.mpr ⟨hdone, h⟩
  · exact h.close hdone hk

theorem Bare.closePart (h : s.Bare) (hdone : done.Bare) (r : Role) : (s.closePart r done).Bare := by
  refine List.forall_mem_append.mpr ⟨fun t ht => ?_, h⟩
  obtain ⟨u, hu, rfl⟩ := List.mem_map.mp ht
  split
  · exact hdone u hu
  · exact (hdone u hu).withRole r

end Reading

namespace Pattern

variable {ρ : Type} {rules : ρ → Pattern ρ} {fuel : Nat} {around : Surroundings} {p : Pattern ρ}
  {s s' : Reading}

/-- Whether a pattern builds names of lexemes alone. -/
def namesBare : Pattern ρ → Bool
  | both p q | either p q => p.namesBare && q.namesBare
  | many p | part _ p | ahead p | absent p | inside _ p => p.namesBare
  | node k p | group k p => !Kind.ofNames.contains k && p.namesBare
  | token _ _ | glued _ _ | nothing | never | rule _ | ending _ | amid _ | blanks | finish => true

/-- Reading by a pattern builds names that hold nothing. -/
theorem run_namesBare (hrules : ∀ r, (rules r).namesBare = true) (hp : p.namesBare = true) (hs : s.Bare)
    (h : run rules fuel around p s = some s') : s'.Bare := by
  induction fuel generalizing around p s s' with
  | zero => cases h
  | succ fuel ih =>
    unfold run at h
    cases p with
    | nothing => cases h; exact hs
    | never => cases h
    | token l k => exact hs.skip.take h
    | glued l k => exact hs.take h
    | both p q =>
      obtain ⟨hp, hq⟩ := Bool.and_eq_true_iff.mp hp
      dsimp only at h
      split at h
      · cases h
      · exact ih hq (ih hp hs ‹_›) h
    | either p q =>
      obtain ⟨hp, hq⟩ := Bool.and_eq_true_iff.mp hp
      dsimp only at h
      split at h
      · exact ih hq hs h
      · cases h
        exact ih hp hs ‹_›
    | many p =>
      dsimp only at h
      split at h
      · cases h; exact hs
      · have hfirst := ih (p := p) hp hs ‹_›
        split at h
        · cases h; exact hfirst
        · exact ih (p := many p) hp hfirst h
    | node k p =>
      obtain ⟨hk, hp⟩ := Bool.and_eq_true_iff.mp hp
      obtain ⟨done, hdone, rfl⟩ := Option.map_eq_some_iff.mp h
      exact hs.skip.close (ih hp (Reading.bare_inner _) hdone) (by simpa using hk)
    | group k p =>
      obtain ⟨hk, hp⟩ := Bool.and_eq_true_iff.mp hp
      obtain ⟨done, hdone, rfl⟩ := Option.map_eq_some_iff.mp h
      exact hs.skip.closeGroup (ih hp (Reading.bare_inner _) hdone) (by simpa using hk)
    | part r p =>
      obtain ⟨done, hdone, rfl⟩ := Option.map_eq_some_iff.mp h
      exact hs.skip.closePart (ih (p := p) hp (Reading.bare_inner _) hdone) r
    | rule r => exact ih (hrules r) hs h
    | ahead p =>
      obtain ⟨_, -, rfl⟩ := Option.map_eq_some_iff.mp h
      exact hs
    | absent p =>
      dsimp only at h
      split at h
      · cases h; exact hs
      · cases h
    | ending e =>
      obtain ⟨t, -, rfl⟩ := Option.map_eq_some_iff.mp h
      exact hs.after t
    | inside around' p => exact ih (p := p) hp hs h
    | amid around' =>
      dsimp only at h
      split at h
      · cases h; exact hs
      · cases h
    | blanks => cases h; exact hs.skip
    | finish =>
      dsimp only at h
      split at h
      · cases h; exact hs
      · cases h

end Pattern

/-! ### Whole sources -/

theorem Grammar.rules_namesBare (d : Dialect) (r : Rule) : (Grammar.rules d r).namesBare = true := by
  cases d <;> cases r <;> decide +kernel

theorem Grammar.program_namesBare : Grammar.program.namesBare = true := by
  decide +kernel

/-- The names of a tree hold nothing. -/
theorem parse_namesBare (d : Dialect) (source : Bytes) : (parse d source).NamesBare := by
  have hread : (readProgram d source).Bare := by
    have hstart : Reading.Bare ⟨0, source, []⟩ := fun _ ht => absurd ht List.not_mem_nil
    unfold readProgram
    dsimp only
    cases hrun : Pattern.run (Grammar.rules d) (stepsPerByte * (source.length + 1)) .statement
        Grammar.program ⟨0, source, []⟩ with
    | none => exact hstart
    | some r => exact Pattern.run_namesBare (Grammar.rules_namesBare d) Grammar.program_namesBare hstart hrun
  unfold parse
  refine namesBare_iff.mpr ⟨fun hname => ?_, ?_⟩
  · have hprogram : Kind.program ∉ Kind.ofNames := by decide
    exact absurd hname hprogram
  · refine List.forall_mem_append.mpr ⟨fun t ht => hread t (List.mem_reverse.mp ht), ?_⟩
    split
    · exact fun _ ht => absurd ht List.not_mem_nil
    · exact List.forall_mem_singleton.mpr (namesBare_leaf _ _ _)

namespace Tree

variable {source : Bytes}

/-- Of two nodes that hold nothing, the one that occurs first ends before the other begins. -/
abbrev LeavesApart (o o' : Tree × List Tree) : Prop :=
  o.1.children = [] → o'.1.children = [] → o.1.stop ≤ o'.1.start

/-- Of two names, the one that occurs first ends before the other begins. -/
abbrev NamesApart (o o' : Tree × List Tree) : Prop :=
  NamedImport.isName o.1 = true → NamedImport.isName o'.1 = true → o.1.stop ≤ o'.1.start

mutual

/-- The leaves at and below a node follow one another. -/
theorem leaves_pairwise {above : List Tree} : ∀ {t : Tree}, t.Placed source →
    (t.occurrences above).Pairwise LeavesApart
  | .node k r s e cs, h => by
    unfold occurrences
    refine List.pairwise_cons.mpr ⟨fun o ho hleaf => ?_, leavesIn_pairwise h.children⟩
    -- A leaf holds nothing, so that nothing occurs below it.
    have hcs : cs = [] := hleaf
    subst hcs
    cases ho

/-- The leaves at and below nodes that lie in order follow one another. -/
theorem leavesIn_pairwise {above : List Tree} : ∀ {l : List Tree} {lo hi : Nat}, PlacedIn source lo hi l →
    (occurrencesIn above l).Pairwise LeavesApart
  | [], _, _, _ => by
    unfold occurrencesIn
    exact .nil
  | t :: rest, _, _, h => by
    obtain ⟨-, ht, hrest⟩ := h.uncons
    unfold occurrencesIn
    refine List.pairwise_append.mpr ⟨leaves_pairwise ht, leavesIn_pairwise hrest, fun o ho o' ho' _ _ => ?_⟩
    obtain ⟨-, -, hstop⟩ := ht.bounds_of_occurrence ho
    obtain ⟨c, hc, hstart, -⟩ := hrest.exists_of_occurrence ho'
    exact Nat.le_trans hstop (Nat.le_trans (hrest.bounds hc).1 hstart)

end

mutual

/-- A name that occurs where names hold nothing is a leaf. -/
theorem NamesBare.leaf {above : List Tree} {o : Tree × List Tree} : ∀ {t : Tree}, t.NamesBare →
    o ∈ t.occurrences above → NamedImport.isName o.1 = true → o.1.children = []
  | .node k r s e cs, h, ho, hname => by
    obtain ⟨hleaf, hbelow⟩ := namesBare_iff.mp h
    unfold occurrences at ho
    rcases List.mem_cons.mp ho with rfl | ho
    · exact hleaf (isName_iff.mp hname)
    · exact NamesBareIn.leaf hbelow ho hname

theorem NamesBareIn.leaf {above : List Tree} {o : Tree × List Tree} : ∀ {l : List Tree}, (∀ t ∈ l, t.NamesBare) →
    o ∈ occurrencesIn above l → NamedImport.isName o.1 = true → o.1.children = []
  | [], _, ho, _ => by
    unfold occurrencesIn at ho
    cases ho
  | t :: l, h, ho, hname => by
    obtain ⟨ht, hl⟩ := List.forall_mem_cons.mp h
    unfold occurrencesIn at ho
    rcases List.mem_append.mp ho with ho | ho
    · exact NamesBare.leaf ht ho hname
    · exact NamesBareIn.leaf hl ho hname

end

/-- The names at and below a node follow one another. -/
theorem names_pairwise {above : List Tree} {t : Tree} (h : t.Placed source) (hbare : t.NamesBare) :
    (t.occurrences above).Pairwise NamesApart :=
  (leaves_pairwise h).imp_of_mem fun ho ho' hoo' hname hname' =>
    hoo' (hbare.leaf ho hname) (hbare.leaf ho' hname')

/-- The names at and below nodes that lie in order follow one another. -/
theorem namesIn_pairwise {above l : List Tree} {lo hi : Nat} (h : PlacedIn source lo hi l)
    (hbare : ∀ t ∈ l, t.NamesBare) : (occurrencesIn above l).Pairwise NamesApart :=
  (leavesIn_pairwise h).imp_of_mem fun ho ho' hoo' hname hname' =>
    hoo' (NamesBareIn.leaf hbare ho hname) (NamesBareIn.leaf hbare ho' hname')

end Tree

end Codemod.Syntax
