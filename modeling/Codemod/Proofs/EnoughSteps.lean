import Codemod.Proofs.Moved

/-!
# Enough steps

A source is read with a fixed number of steps for each of its bytes. What is read does not depend on that
number: no rule of the grammar calls itself before it has read something, so that between two bytes only so
many steps are taken as the rules allow that call each other there.

Main statements:

* `Pattern.run_onward` says that readings go on in their text;
* `Pattern.run_consumes` says which patterns read at least one byte;
* `Pattern.run_eq_of_enough` says that further steps change nothing where there are enough;
* `Grammar.rules_depth_le` says that those which a source is read with are enough.
-/

namespace Codemod.Syntax

variable {t : Bytes} {n : Nat}

/-- Whether no lexeme of a class is empty. Only the rest of a line may be. -/
def Lexeme.isFilled : Lexeme → Bool
  | exactly s | word s => !s.isEmpty
  | line => false
  | _ => true

theorem Lexeme.length?_pos {l : Lexeme} (hl : l.isFilled = true) (h : l.length? t = some n) : 0 < n := by
  cases l with
  | exactly s =>
    obtain ⟨-, rfl⟩ := length?_exactly.mp h
    simpa [isFilled, List.length_pos_iff] using hl
  | word s =>
    simp only [length?] at h
    split at h
    · cases h
      simpa [isFilled, List.length_pos_iff] using hl
    · cases h
  | privateName =>
    simp only [length?] at h
    split at h
    · obtain ⟨m, -, rfl⟩ := Option.map_eq_some_iff.mp h
      exact Nat.succ_pos m
    · cases h
  | regex =>
    simp only [length?] at h
    unfold regexLength? at h
    split at h
    · split at h
      · obtain ⟨m, -, h⟩ := Option.bind_eq_some_iff.mp h
        cases h
        omega
      · cases h
    · cases h
  | number | templateText | markupText => exact (nonzero_eq_some h).2
  | name _ | markupName | quoted | markupQuoted => exact length?_pos_of_isSolid rfl h
  | line => cases hl

/-! ### Going on -/

namespace Reading

/-- Whether a reading goes on from another one in the same text. -/
structure Onward (s s' : Reading) : Prop where
  rest : s'.rest <:+ s.rest
  total : s'.offset + s'.rest.length = s.offset + s.rest.length

variable {s s' s'' done : Reading}

theorem Onward.refl (s : Reading) : s.Onward s :=
  ⟨List.suffix_rfl, rfl⟩

theorem Onward.trans (h : s.Onward s') (h' : s'.Onward s'') : s.Onward s'' :=
  ⟨h'.rest.trans h.rest, h'.total.trans h.total⟩

theorem Onward.length_le (h : s.Onward s') : s'.rest.length ≤ s.rest.length :=
  h.rest.length_le

theorem Onward.offset_le (h : s.Onward s') : s.offset ≤ s'.offset := by
  have := h.total
  have := h.length_le
  omega

theorem Onward.offset_eq_iff (h : s.Onward s') : s'.offset = s.offset ↔ s'.rest.length = s.rest.length := by
  have := h.total
  omega

/-- What is passed over is passed over in the text. -/
theorem onward_after {t : Trivia} (h : Trivia.Sound s.rest 0 t) : s.Onward (s.after (t.moved s.offset)) := by
  have hreached := h.reached
  refine ⟨?_, ?_⟩
  · change t.rest <:+ s.rest
    rw [hreached.rest]
    exact List.drop_suffix ..
  · change s.offset + t.offset + t.rest.length = _
    have hlength := congrArg List.length hreached.rest
    have hbound := hreached.bound
    rw [List.length_drop] at hlength
    omega

theorem onward_skip (s : Reading) : s.Onward s.skip := by
  have hstart : Reached s.rest 0 s.rest := ⟨rfl, Nat.zero_le _⟩
  have h := onward_after (s := s) (trivia_sound hstart)
  rwa [← trivia_moved] at h

theorem onward_take {l : Lexeme} {k : Kind} (h : s.take l k = some s') :
    s.Onward s' ∧ (l.isFilled = true → s'.rest.length < s.rest.length) := by
  unfold take at h
  split at h
  · cases h
  · rename_i n hn
    cases h
    have hle := Lexeme.length?_le hn
    refine ⟨⟨List.drop_suffix .., ?_⟩, fun hl => ?_⟩
    · simp only [List.length_drop]
      omega
    · have hpos := Lexeme.length?_pos hl hn
      simp only [List.length_drop]
      omega

theorem onward_close {k : Kind} (h : s.inner.Onward done) : s.Onward (s.close k done) :=
  ⟨h.rest, h.total⟩

theorem onward_closeGroup {k : Kind} (h : s.inner.Onward done) : s.Onward (s.closeGroup k done) := by
  unfold closeGroup
  split <;> exact ⟨h.rest, h.total⟩

theorem onward_closePart {r : Role} (h : s.inner.Onward done) : s.Onward (s.closePart r done) :=
  ⟨h.rest, h.total⟩

theorem closeGroup_rest (s : Reading) (k : Kind) (done : Reading) : (s.closeGroup k done).rest = done.rest := by
  unfold closeGroup
  split <;> rfl

end Reading

/-- The comments before the end of a statement are passed over in no more steps than there are bytes. -/
theorem statementEnd?_enough {e : Ending} {fuel : Nat} {t : Trivia} (h : t.rest.length < fuel) :
    statementEnd? e (fuel + 1) t = statementEnd? e fuel t := by
  induction fuel generalizing t with
  | zero => cases h
  | succ fuel ih =>
    unfold statementEnd?
    split
    · rfl
    · dsimp only
      cases hn : commentLength? (dropBlanks blankLength 0 t.rest) with
      | none => rfl
      | some n =>
        obtain ⟨hle, i, -, hi, -⟩ := commentLength?_bounds hn
        have hdrop := dropBlanks_length_le blankLength 0 t.rest
        refine ih ?_
        rw [List.length_drop]
        omega

namespace Pattern

variable {ρ : Type} {rules : ρ → Pattern ρ} {fuel : Nat} {around : Surroundings} {p : Pattern ρ}
  {s s' : Reading}

/-- Readings go on in their text. -/
theorem run_onward (h : run rules fuel around p s = some s') : s.Onward s' := by
  induction fuel generalizing around p s s' with
  | zero => cases h
  | succ fuel ih =>
    cases p with
    | nothing => cases h; exact .refl s
    | never => cases h
    | token l k => exact s.onward_skip.trans (Reading.onward_take h).1
    | glued l k => exact (Reading.onward_take h).1
    | both p q =>
      rw [run_both] at h
      obtain ⟨middle, hp, hq⟩ := Option.bind_eq_some_iff.mp h
      exact (ih hp).trans (ih hq)
    | either p q =>
      rw [run_either] at h
      cases hp : run rules fuel around p s with
      | none => rw [hp] at h; exact ih h
      | some done => rw [hp] at h; cases h; exact ih hp
    | many p =>
      rw [run_many] at h
      cases hp : run rules fuel around p s with
      | none => rw [hp] at h; cases h; exact .refl s
      | some middle =>
        rw [hp] at h
        dsimp only at h
        split at h
        · cases h; exact ih hp
        · exact (ih hp).trans (ih h)
    | node k p =>
      obtain ⟨done, hdone, rfl⟩ := Option.map_eq_some_iff.mp h
      exact s.onward_skip.trans (Reading.onward_close (ih hdone))
    | group k p =>
      obtain ⟨done, hdone, rfl⟩ := Option.map_eq_some_iff.mp h
      exact s.onward_skip.trans (Reading.onward_closeGroup (ih hdone))
    | part r p =>
      obtain ⟨done, hdone, rfl⟩ := Option.map_eq_some_iff.mp h
      exact s.onward_skip.trans (Reading.onward_closePart (ih hdone))
    | rule r => exact ih h
    | ahead p =>
      obtain ⟨done, -, rfl⟩ := Option.map_eq_some_iff.mp h
      exact .refl s
    | absent p =>
      rw [run_absent] at h
      split at h
      · cases h; exact .refl s
      · cases h
    | ending e =>
      obtain ⟨t, ht, rfl⟩ := Option.map_eq_some_iff.mp h
      have hstart : (⟨[], s.offset, s.rest⟩ : Trivia) = Trivia.moved s.offset ⟨[], 0, s.rest⟩ := rfl
      rw [hstart, statementEnd?_moved] at ht
      obtain ⟨u, hu, rfl⟩ := Option.map_eq_some_iff.mp ht
      have hsound : Trivia.Sound s.rest 0 ⟨[], 0, s.rest⟩ := ⟨⟨rfl, Nat.zero_le _⟩, CommentsIn.nil _ _⟩
      exact Reading.onward_after (statementEnd?_sound hu hsound).1
    | inside around' p => exact ih h
    | amid around' =>
      change (if around = around' then some s else none) = some s' at h
      split at h
      · cases h; exact .refl s
      · cases h
    | blanks => cases h; exact s.onward_skip
    | finish =>
      change (if s.rest.isEmpty then some s else none) = some s' at h
      split at h
      · cases h; exact .refl s
      · cases h

/-! ### Patterns that read something -/

/-- Whether a pattern is a choice of lexemes that are not empty. -/
def isChoice : Pattern ρ → Bool
  | token l _ => l.isFilled
  | either p q => p.isChoice && q.isChoice
  | _ => false

/-- Whether a pattern looks ahead for a lexeme. -/
def looksAhead : Pattern ρ → Bool
  | ahead p => p.isChoice
  | _ => false

/-- Whether a pattern reads the rest of a line, as something of the right kind. -/
def readsLine (ok : Kind → Bool) : Pattern ρ → Bool
  | token .line k => ok k
  | _ => false

/-- Whether a pattern reads at least one byte, if all rules do. The rest of a line is not empty where a lexeme
stands in it. -/
def consumes : Pattern ρ → Bool
  | never | rule _ => true
  | token l _ | glued l _ => l.isFilled
  | both p q => p.consumes || q.consumes || p.looksAhead && q.readsLine fun _ => true
  | either p q => p.consumes && q.consumes
  | node _ p | group _ p | part _ p | inside _ p => p.consumes
  | nothing | many _ | ahead _ | absent _ | ending _ | amid _ | blanks | finish => false

/-- Where one of some lexemes is read, something stands behind the blanks and comments. -/
theorem rest_ne_nil_of_isChoice (hp : p.isChoice = true) (h : run rules fuel around p s = some s') :
    s.skip.rest ≠ [] := by
  induction fuel generalizing p s' with
  | zero => cases h
  | succ fuel ih =>
    cases p with
    | token l k =>
      have hlt := (Reading.onward_take h).2 hp
      intro hnil
      rw [hnil] at hlt
      cases hlt
    | either p q =>
      obtain ⟨hp, hq⟩ := Bool.and_eq_true_iff.mp hp
      rw [run_either] at h
      cases hrun : run rules fuel around p s with
      | none => rw [hrun] at h; exact ih hq h
      | some done => exact ih hp hrun
    | _ => cases hp

/-- The line on which something stands is not empty. -/
theorem line_consumes {k : Kind} (hrest : s.skip.rest ≠ []) (h : s.skip.take .line k = some s') :
    s'.rest.length < s.skip.rest.length := by
  obtain ⟨a, rest, hskip⟩ := List.exists_cons_of_ne_nil hrest
  have hstops : (TriviaState.outside 0).Stops blankLength := trivial
  have hblank : blankLength (a :: rest) = 0 := triviaFrom_stops hstops a rest hskip
  have ha : a ≠ Bytes.newline := by
    rintro rfl
    have := isBlank_of_blankLength hblank
    cases this
  unfold Reading.take Lexeme.length? at h
  dsimp only at h
  cases h
  simp only [hskip, List.takeWhile_cons, bne_iff_ne, ne_eq, ha, not_false_eq_true, if_true, List.length_cons,
    List.length_drop]
  omega

/-- What is read of a line on which a lexeme was seen is not empty. -/
theorem exists_line {ok : Kind → Bool} {q : Pattern ρ} {middle : Reading} (hp : p.looksAhead = true)
    (hq : q.readsLine ok = true)
    (h : run rules fuel around p s = some middle) (h' : run rules fuel around q middle = some s') :
    ∃ k, ok k = true ∧ s.skip.take .line k = some s' ∧ s'.rest.length < s.skip.rest.length := by
  cases fuel with
  | zero => cases h
  | succ fuel =>
    cases p with
    | ahead p =>
      obtain ⟨done, hdone, rfl⟩ := Option.map_eq_some_iff.mp h
      cases q with
      | token l k =>
        cases l with
        | line =>
          exact ⟨k, hq, h', line_consumes (rest_ne_nil_of_isChoice hp hdone) h'⟩
        | _ => cases hq
      | _ => cases hq
    | _ => cases hp

theorem run_consumes (hrules : ∀ r, (rules r).consumes = true) (hp : p.consumes = true)
    (h : run rules fuel around p s = some s') : s'.rest.length < s.rest.length := by
  induction fuel generalizing around p s s' with
  | zero => cases h
  | succ fuel ih =>
    have hskip := s.onward_skip.length_le
    cases p with
    | token l k => exact Nat.lt_of_lt_of_le ((Reading.onward_take h).2 hp) hskip
    | glued l k => exact (Reading.onward_take h).2 hp
    | both p q =>
      rw [run_both] at h
      obtain ⟨middle, hrun, hrun'⟩ := Option.bind_eq_some_iff.mp h
      have hle := (run_onward hrun).length_le
      have hle' := (run_onward hrun').length_le
      simp only [consumes, Bool.or_eq_true, Bool.and_eq_true] at hp
      rcases hp with (hp | hq) | ⟨hp, hq⟩
      · exact Nat.lt_of_le_of_lt hle' (ih hp hrun)
      · exact Nat.lt_of_lt_of_le (ih hq hrun') hle
      · obtain ⟨k, -, -, hlt⟩ := exists_line hp hq hrun hrun'
        exact Nat.lt_of_lt_of_le hlt hskip
    | either p q =>
      obtain ⟨hp, hq⟩ := Bool.and_eq_true_iff.mp hp
      rw [run_either] at h
      cases hrun : run rules fuel around p s with
      | none => rw [hrun] at h; exact ih hq h
      | some done => rw [hrun] at h; cases h; exact ih hp hrun
    | node k p | part r p =>
      obtain ⟨done, hdone, rfl⟩ := Option.map_eq_some_iff.mp h
      have hlt := ih (p := p) hp hdone
      exact Nat.lt_of_lt_of_le hlt hskip
    | group k p =>
      obtain ⟨done, hdone, rfl⟩ := Option.map_eq_some_iff.mp h
      have hlt := ih (p := p) hp hdone
      rw [Reading.closeGroup_rest]
      exact Nat.lt_of_lt_of_le hlt hskip
    | rule r => exact ih (hrules r) h
    | inside around' p => exact ih (p := p) hp h
    | _ => cases hp <;> cases h

/-! ### Enough steps -/

/-- The number of steps that can be taken into a pattern before it has read a byte, where `rank` gives the number
for each rule. Behind a pattern that reads a byte the steps for that byte are left. -/
def depth (rank : ρ → Nat) : Pattern ρ → Nat
  | both p q => max (p.depth rank) (if p.consumes then q.depth rank - stepsPerByte else q.depth rank) + 1
  | either p q => max (p.depth rank) (q.depth rank) + 1
  | many p | node _ p | group _ p | part _ p | ahead p | absent p | inside _ p => p.depth rank + 1
  | rule r => rank r + 1
  | ending _ => 2
  | nothing | never | token .. | glued .. | amid _ | blanks | finish => 1

theorem depth_pos (rank : ρ → Nat) (p : Pattern ρ) : 0 < p.depth rank := by
  cases p <;> simp [depth]

variable {rank : ρ → Nat}

/-- Where there are enough steps for what is left of a text, a further one changes nothing. -/
theorem run_enough (hrules : ∀ r, (rules r).consumes = true) (hrank : ∀ r, (rules r).depth rank ≤ rank r)
    (h : stepsPerByte * s.rest.length + p.depth rank ≤ fuel) :
    run rules (fuel + 1) around p s = run rules fuel around p s := by
  induction fuel generalizing around p s with
  | zero =>
    have := depth_pos rank p
    omega
  | succ fuel ih =>
    have hskip := Nat.mul_le_mul_left stepsPerByte s.onward_skip.length_le
    cases p with
    | both p q =>
      rw [run_both, run_both]
      simp only [depth] at h
      rw [ih (by omega)]
      cases hrun : run rules fuel around p s with
      | none => rfl
      | some s' =>
        have hle := Nat.mul_le_mul_left stepsPerByte (run_onward hrun).length_le
        refine ih ?_
        split at h
        · have hlt := Nat.mul_le_mul_left stepsPerByte (run_consumes hrules ‹_› hrun)
          rw [Nat.succ_eq_add_one, Nat.mul_add] at hlt
          omega
        · omega
    | either p q =>
      rw [run_either, run_either]
      simp only [depth] at h
      rw [ih (by omega), ih (by omega)]
    | many p =>
      rw [run_many, run_many]
      simp only [depth] at h
      rw [ih (by omega)]
      cases hrun : run rules fuel around p s with
      | none => rfl
      | some s' =>
        dsimp only
        split
        · rfl
        · rename_i hne
          have hon := run_onward hrun
          have hlt : s'.rest.length + 1 ≤ s.rest.length := by
            have hle := hon.length_le
            have hlength := mt hon.offset_eq_iff.mpr hne
            omega
          have hlt := Nat.mul_le_mul_left stepsPerByte hlt
          rw [Nat.mul_add] at hlt
          have hstep : 1 ≤ stepsPerByte := by decide
          refine ih ?_
          simp only [depth]
          omega
    | node k p =>
      rw [run_node, run_node]
      simp only [depth] at h
      rw [ih (by simp only [Reading.inner]; omega)]
    | group k p =>
      simp only [depth] at h
      have hbody : run rules (fuel + 1) around p s.skip.inner = run rules fuel around p s.skip.inner :=
        ih (by simp only [Reading.inner]; omega)
      exact congrArg (Option.map (s.skip.closeGroup k)) hbody
    | part r p =>
      rw [run_part, run_part]
      simp only [depth] at h
      rw [ih (by simp only [Reading.inner]; omega)]
    | rule r =>
      have := hrank r
      simp only [depth] at h
      exact ih (by omega)
    | ahead p =>
      rw [run_ahead, run_ahead]
      simp only [depth] at h
      rw [ih (by omega)]
    | absent p =>
      rw [run_absent, run_absent]
      simp only [depth] at h
      rw [ih (by omega)]
    | ending e =>
      simp only [depth] at h
      have hend : statementEnd? e (fuel + 1) ⟨[], s.offset, s.rest⟩ =
          statementEnd? e fuel ⟨[], s.offset, s.rest⟩ := by
        refine statementEnd?_enough ?_
        have hone : 1 * s.rest.length ≤ stepsPerByte * s.rest.length := Nat.mul_le_mul_right _ (by decide)
        dsimp only
        omega
      exact congrArg (Option.map s.after) hend
    | inside around' p =>
      simp only [depth] at h
      exact ih (p := p) (by omega)
    | nothing | never | token l k | glued l k | amid around' | blanks | finish => rfl

/-- Where there are enough steps for what is left of a text, any further ones change nothing. -/
theorem run_eq_of_enough {fuel' : Nat} (hrules : ∀ r, (rules r).consumes = true)
    (hrank : ∀ r, (rules r).depth rank ≤ rank r) (h : stepsPerByte * s.rest.length + p.depth rank ≤ fuel)
    (hfuel : fuel ≤ fuel') : run rules fuel' around p s = run rules fuel around p s := by
  induction hfuel with
  | refl => rfl
  | step hle ih => rw [run_enough hrules hrank (Nat.le_trans h hle), ih]

end Pattern

/-! ### The grammar -/

namespace Grammar

/-- The number of steps that can be taken into each rule before a byte is read. -/
def rank : Rule → Nat
  | .typeArguments | .typeParameters | .objectType | .parameters | .functionBody | .classBody | .decorator
  | .markup | .block => 3
  | .signature => 6
  | .arrow | .target => 11
  | .declaration => 12
  | .primary => 18
  | .declarators => 20
  | .typeOperand => 24
  | .operand => 25
  | .plainType | .expression => 28
  | .type | .sequence => 31
  | .resultType => 34
  | .statement => 53

theorem rules_consume (d : Dialect) (r : Rule) : (rules d r).consumes = true := by
  cases d <;> cases r <;> decide +kernel

theorem rules_depth_le (d : Dialect) (r : Rule) : (rules d r).depth rank ≤ rank r := by
  cases d <;> cases r <;> decide +kernel

end Grammar
end Codemod.Syntax
