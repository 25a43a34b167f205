import Codemod.Proofs.Gaps
import Codemod.Proofs.ImportPlaces
import Codemod.Proofs.Readings

/-!
# Where nodes come from
-/

namespace Codemod.Syntax

deriving instance DecidableEq for Pattern

namespace Tree

mutual

/-- Whether something holds of a node and of all nodes below it. -/
def Everywhere (P : Tree → Prop) : Tree → Prop
  | .node k r s e cs => P (.node k r s e cs) ∧ EverywhereIn P cs

/-- Whether something holds of nodes and of all nodes below them. -/
def EverywhereIn (P : Tree → Prop) : List Tree → Prop
  | [] => True
  | t :: rest => t.Everywhere P ∧ EverywhereIn P rest

end

variable {P : Tree → Prop} {t : Tree}

theorem everywhereIn_iff {l : List Tree} : EverywhereIn P l ↔ ∀ t ∈ l, t.Everywhere P := by
  induction l with
  | nil => simp [EverywhereIn]
  | cons t rest ih => rw [EverywhereIn, ih, List.forall_mem_cons]

theorem everywhere_iff : t.Everywhere P ↔ P t ∧ ∀ c ∈ t.children, c.Everywhere P := by
  cases t
  rw [Everywhere, everywhereIn_iff]
  rfl

theorem everywhere_leaf {k : Kind} {s e : Nat} (h : P (leaf k s e)) : (leaf k s e).Everywhere P :=
  everywhere_iff.mpr ⟨h, fun _ hc => absurd hc List.not_mem_nil⟩

mutual

/-- What holds everywhere in a tree holds of whatever occurs in it. -/
theorem Everywhere.of_occurrence {above : List Tree} {o : Tree × List Tree} :
    ∀ {t : Tree}, t.Everywhere P → o ∈ t.occurrences above → o.1.Everywhere P
  | .node k r s e cs, h, ho => by
    unfold occurrences at ho
    rcases List.mem_cons.mp ho with rfl | ho
    · exact h
    · exact EverywhereIn.of_occurrence (everywhere_iff.mp h).2 ho

theorem EverywhereIn.of_occurrence {above : List Tree} {o : Tree × List Tree} :
    ∀ {l : List Tree}, (∀ t ∈ l, t.Everywhere P) → o ∈ occurrencesIn above l → o.1.Everywhere P
  | [], _, ho => by
    unfold occurrencesIn at ho
    cases ho
  | t :: rest, h, ho => by
    unfold occurrencesIn at ho
    rcases List.mem_append.mp ho with ho | ho
    · exact Everywhere.of_occurrence (h t (List.mem_cons_self ..)) ho
    · exact EverywhereIn.of_occurrence (fun u hu => h u (List.mem_cons_of_mem _ hu)) ho

end

end Tree

open Codemod.Syntax.Tree

/-- Whether a node was made of what a pattern read where the node begins. -/
structure ReadFrom {ρ : Type} (rules : ρ → Pattern ρ) (source : Bytes) (body : Pattern ρ) (t : Tree)
    (around : Surroundings) (s done : Reading) : Prop where
  ran : Pattern.Ran rules around body s done
  reached : Reached source s.offset s.rest
  fresh : s.found = []
  /-- A node begins with a lexeme. -/
  visible : s.skip.rest = s.rest
  start : s.offset = t.start
  stop : done.offset = t.stop
  children : t.children = done.found.reverse

/-- Whether a node, if it is of a kind, was made of what a pattern read. -/
def ReadBy {ρ : Type} (rules : ρ → Pattern ρ) (source : Bytes) (k : Kind) (body : Pattern ρ) (t : Tree) : Prop :=
  t.kind = k → ∃ around s done, ReadFrom rules source body t around s done

section

variable {ρ : Type} {rules : ρ → Pattern ρ} {source : Bytes} {k : Kind} {body : Pattern ρ} {t : Tree}

theorem ReadBy.of_ne (h : t.kind ≠ k) : ReadBy rules source k body t :=
  fun heq => absurd heq h

theorem ReadBy.withRole (h : ReadBy rules source k body t) (r : Role) :
    ReadBy rules source k body (t.withRole r) := by
  cases t
  intro hk
  obtain ⟨around, s, done, hran, hreached, hfresh, hvisible, hstart, hstop, hchildren⟩ := h hk
  exact ⟨around, s, done, hran, hreached, hfresh, hvisible, hstart, hstop, hchildren⟩

theorem everywhere_withRole (h : t.Everywhere (ReadBy rules source k body)) (r : Role) :
    (t.withRole r).Everywhere (ReadBy rules source k body) := by
  obtain ⟨ht, hbelow⟩ := everywhere_iff.mp h
  refine everywhere_iff.mpr ⟨ht.withRole r, fun c hc => hbelow c ?_⟩
  rwa [withRole_children] at hc

/-! ### Readings -/

namespace Reading

/-- Whether all that was built was read so. -/
def Built (rules : ρ → Pattern ρ) (source : Bytes) (k : Kind) (body : Pattern ρ) (s : Reading) : Prop :=
  ∀ t ∈ s.found, t.Everywhere (ReadBy rules source k body)

variable {s done : Reading} {k' : Kind} {l : Lexeme}

theorem built_inner (s : Reading) : s.inner.Built rules source k body :=
  fun _ ht => absurd ht List.not_mem_nil

theorem Built.after (h : s.Built rules source k body) (hk : k ≠ .comment) (t : Trivia) :
    (s.after t).Built rules source k body := by
  intro u hu
  rcases List.mem_append.mp hu with hu | hu
  · obtain ⟨span, -, rfl⟩ := List.mem_map.mp hu
    exact everywhere_leaf (.of_ne hk.symm)
  · exact h u hu

theorem Built.take (h : s.Built rules source k body) (hk : k' ≠ k) (hdone : s.take l k' = some done) :
    done.Built rules source k body := by
  unfold Reading.take at hdone
  split at hdone
  · cases hdone
  · cases hdone
    exact List.forall_mem_cons.mpr ⟨everywhere_leaf (.of_ne hk), h⟩

theorem Built.close (h : s.Built rules source k body) (hdone : done.Built rules source k body)
    (hnode : ReadBy rules source k body (.node k' none s.offset done.offset done.found.reverse)) :
    (s.close k' done).Built rules source k body :=
  List.forall_mem_cons.mpr
    ⟨everywhere_iff.mpr ⟨hnode, fun c hc => hdone c (List.mem_reverse.mp hc)⟩, h⟩

theorem Built.closeGroup (h : s.Built rules source k body) (hdone : done.Built rules source k body)
    (hk : k' ≠ k) : (s.closeGroup k' done).Built rules source k body := by
  unfold Reading.closeGroup
  split
  · exact List.forall_mem_append.mpr ⟨hdone, h⟩
  · exact h.close hdone (.of_ne hk)

theorem Built.closePart (h : s.Built rules source k body) (hdone : done.Built rules source k body) (r : Role) :
    (s.closePart r done).Built rules source k body := by
  refine List.forall_mem_append.mpr ⟨fun t ht => ?_, h⟩
  obtain ⟨u, hu, rfl⟩ := List.mem_map.mp ht
  split
  · exact hdone u hu
  · exact everywhere_withRole (hdone u hu) r

end Reading

namespace Pattern

variable [DecidableEq ρ] {p : Pattern ρ} {fuel : Nat} {around : Surroundings} {s s' : Reading} {lo : Nat}

/-- Whether a pattern makes nodes of a kind only of what another pattern reads. -/
def builds (k : Kind) (body : Pattern ρ) : Pattern ρ → Bool
  | both p q | either p q => builds k body p && builds k body q
  | many p | part _ p | inside _ p => builds k body p
  | node k' p => (k' != k || p == body) && builds k body p
  | group k' p => k' != k && builds k body p
  | token _ k' | glued _ k' => k' != k
  | nothing | never | rule _ | ahead _ | absent _ | ending _ | amid _ | blanks | finish => true

/-- What is built of a kind was read by the pattern that the grammar has for it. -/
theorem run_built (hwell : ∀ r, (rules r).wellBuilt = true) (hrules : ∀ r, builds k body (rules r) = true)
    (hk : k ≠ .comment) (hwellp : p.wellBuilt = true) (hp : builds k body p = true)
    (hs : s.Sound source lo) (hbuilt : s.Built rules source k body)
    (h : run rules fuel around p s = some s') : s'.Built rules source k body := by
  induction fuel generalizing around p s s' lo with
  | zero => cases h
  | succ fuel ih =>
    have hskip := hbuilt.after hk (trivia s.offset s.rest)
    unfold run at h
    cases p with
    | nothing => cases h; exact hbuilt
    | never => cases h
    | token l k' => exact Reading.Built.take hskip (by simpa [builds] using hp) h
    | glued l k' => exact hbuilt.take (by simpa [builds] using hp) h
    | both p q =>
      obtain ⟨hwp, hwq⟩ := Bool.and_eq_true_iff.mp hwellp
      obtain ⟨hp, hq⟩ := Bool.and_eq_true_iff.mp hp
      dsimp only at h
      split at h
      · cases h
      · have hfirst := (run_sound hwell hwp hs ‹_›).1
        exact ih hwq hq hfirst (ih hwp hp hs hbuilt ‹_›) h
    | either p q =>
      obtain ⟨hwp, hwq⟩ := Bool.and_eq_true_iff.mp hwellp
      obtain ⟨hp, hq⟩ := Bool.and_eq_true_iff.mp hp
      dsimp only at h
      split at h
      · exact ih hwq hq hs hbuilt h
      · cases h
        exact ih hwp hp hs hbuilt ‹_›
    | many p =>
      dsimp only at h
      split at h
      · cases h; exact hbuilt
      · have hfirst := ih (p := p) hwellp hp hs hbuilt ‹_›
        split at h
        · cases h; exact hfirst
        · exact ih (p := many p) hwellp hp (run_sound (p := p) hwell hwellp hs ‹_›).1 hfirst h
    | node k' p =>
      have hwp : p.wellBuilt = true := (Bool.and_eq_true_iff.mp hwellp).2
      obtain ⟨hnode, hp⟩ := Bool.and_eq_true_iff.mp hp
      obtain ⟨done, hdone, rfl⟩ := Option.map_eq_some_iff.mp h
      refine Reading.Built.close hskip (ih hwp hp hs.skip.inner (Reading.built_inner _) hdone) fun hkind => ?_
      obtain rfl : p = body := by
        rcases Bool.or_eq_true_iff.mp hnode with hne | heq
        · exact absurd hkind (bne_iff_ne.mp hne)
        · exact eq_of_beq heq
      exact ⟨around, s.skip.inner, done, ⟨fuel, hdone⟩, hs.skip.reached, rfl,
        trivia_again _ s.offset s.rest, rfl, rfl, rfl⟩
    | group k' p =>
      have hwp : p.wellBuilt = true := (Bool.and_eq_true_iff.mp hwellp).2
      obtain ⟨hnode, hp⟩ := Bool.and_eq_true_iff.mp hp
      obtain ⟨done, hdone, rfl⟩ := Option.map_eq_some_iff.mp h
      exact Reading.Built.closeGroup hskip (ih hwp hp hs.skip.inner (Reading.built_inner _) hdone)
        (by simpa using hnode)
    | part r p =>
      obtain ⟨done, hdone, rfl⟩ := Option.map_eq_some_iff.mp h
      exact Reading.Built.closePart hskip
        (ih (p := p) hwellp hp hs.skip.inner (Reading.built_inner _) hdone) r
    | rule r => exact ih (hwell r) (hrules r) hs hbuilt h
    | ahead p =>
      obtain ⟨_, -, rfl⟩ := Option.map_eq_some_iff.mp h
      exact hbuilt
    | absent p =>
      dsimp only at h
      split at h
      · cases h; exact hbuilt
      · cases h
    | ending e =>
      obtain ⟨t, -, rfl⟩ := Option.map_eq_some_iff.mp h
      exact hbuilt.after hk t
    | inside around' p => exact ih (p := p) hwellp hp hs hbuilt h
    | amid around' =>
      dsimp only at h
      split at h
      · cases h; exact hbuilt
      · cases h
    | blanks => cases h; exact hskip
    | finish =>
      dsimp only at h
      split at h
      · cases h; exact hbuilt
      · cases h

end Pattern

end

/-! ### Whole sources -/

open Grammar

/-- Patterns that alone make nodes of their kinds. -/
def Grammar.singular : List Phrase :=
  [importStatement, importClause, namespaceImport, importSpecifier, exportStatement, exportClause, exportSpecifier,
    namespaceExport]

/-- Whether a pattern makes nodes of the kind of a singular one only of what that one reads. -/
def Pattern.respects (p : Phrase) : Phrase → Bool
  | node k body => builds k body p
  | _ => true

theorem Grammar.rules_respect (d : Dialect) (r : Rule) :
    singular.all (Pattern.respects (Grammar.rules d r)) = true := by
  cases d <;> cases r <;> decide +kernel

theorem Grammar.program_respects : singular.all (Pattern.respects Grammar.program) = true := by
  decide +kernel

/-- What is built without a pattern is of no kind of a singular one. -/
theorem Grammar.singular_kinds {k : Kind} {body : Phrase} (h : Pattern.node k body ∈ Grammar.singular) :
    k ≠ .comment ∧ k ≠ .program ∧ k ≠ .unread := by
  simp only [singular, List.mem_cons, List.not_mem_nil, or_false] at h
  rcases h with h | h | h | h | h | h | h | h
  all_goals
    obtain ⟨rfl, -⟩ := Pattern.node.inj h
    decide

/-- Every node of a kind that only one pattern makes was read by that pattern. -/
theorem parse_built {k : Kind} {body : Phrase} (h : Pattern.node k body ∈ Grammar.singular) (d : Dialect)
    (source : Bytes) : (parse d source).Everywhere (ReadBy (Grammar.rules d) source k body) := by
  obtain ⟨hcomment, hprogramKind, hunread⟩ := Grammar.singular_kinds h
  have hrules : ∀ r, Pattern.builds k body (Grammar.rules d r) = true := fun r =>
    List.all_eq_true.mp (Grammar.rules_respect d r) _ h
  have hprogram : Pattern.builds k body Grammar.program = true :=
    List.all_eq_true.mp Grammar.program_respects _ h
  have hread : (readProgram d source).Built (Grammar.rules d) source k body := by
    have hstart : Reading.Built (Grammar.rules d) source k body ⟨0, source, []⟩ :=
      fun _ ht => absurd ht List.not_mem_nil
    have hsound : Reading.Sound source 0 ⟨0, source, []⟩ :=
      ⟨⟨rfl, Nat.zero_le _⟩, PlacedIn.nil (Nat.le_refl _)⟩
    unfold readProgram
    dsimp only
    cases hrun : Pattern.run (Grammar.rules d) (stepsPerByte * (source.length + 1)) .statement
        Grammar.program ⟨0, source, []⟩ with
    | none => exact hstart
    | some r =>
      exact Pattern.run_built (Grammar.rules_wellBuilt d) hrules hcomment
        Grammar.program_wellBuilt hprogram hsound hstart hrun
  unfold parse
  refine everywhere_iff.mpr ⟨.of_ne hprogramKind.symm, ?_⟩
  refine List.forall_mem_append.mpr ⟨fun t ht => hread t (List.mem_reverse.mp ht), ?_⟩
  split
  · exact fun _ ht => absurd ht List.not_mem_nil
  · exact List.forall_mem_singleton.mpr (everywhere_leaf (.of_ne hunread.symm))

end Codemod.Syntax
