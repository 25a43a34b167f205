import Codemod.Proofs.PassedOver
import Codemod.Proofs.TopLevel
import Codemod.Proofs.Words

/-!
# How a statement begins

Every statement begins with a lexeme, and the blanks and comments before that lexeme are passed over first. So it makes
no difference for what is read whether they have been passed over already. No statement begins with the mark by which
the first line of a source tells how it is run.

Main statements:

* `Reading.skip_skip` says that nothing is passed over twice;
* `Pattern.run_skip` says which patterns read the same behind the blanks and comments before their first lexeme;
* `Pattern.run_needs` says which patterns fail where no lexeme of some classes begins;
* `Grammar.statement_refuses` says that no statement begins with a number sign and an exclamation mark.
-/

namespace Codemod.Syntax

/-! ### Nothing is passed over twice -/

/-- Where all of a text is left, nothing was passed over. -/
theorem trivia_self {t : Bytes} {offset : Nat} (h : (trivia offset t).rest = t) :
    trivia offset t = ⟨[], offset, t⟩ := by
  have hrest : ∀ {found : List (Nat × Nat)} {offset : Nat} {v z : Bytes}, v ≠ [] →
      (triviaFrom blankLength (.outside 0) found offset z).rest ≠ v ++ z := by
    intro found offset v z hv heq
    have hle := (Reading.onward_skip ⟨offset, z, []⟩).length_le
    have hsame : (triviaFrom blankLength (.outside 0) found offset z).rest = (trivia offset z).rest :=
      triviaFrom_rest z
    have hlength := congrArg List.length (hsame.symm.trans heq)
    have hpos := List.length_pos_iff.mpr hv
    rw [List.length_append] at hlength
    change (trivia offset z).rest.length ≤ z.length at hle
    omega
  unfold trivia at h ⊢
  induction t using trivia_induction with
  | stop t hblank hcomment => exact triviaFrom_stop hblank hcomment
  | last t hcomment =>
    rw [triviaFrom_comment hcomment] at h
    change [] = t at h
    subst h
    cases hcomment
  | blank v z hv hall _ =>
    rw [triviaFrom_blank hv hall] at h
    exact absurd h (hrest hv)
  | comment v z hv hall _ =>
    rw [triviaFrom_comment (hall z)] at h
    exact absurd h (hrest hv)
  | line v w z hw _ hblank hall _ =>
    rw [triviaFrom_comment (hall z), triviaFrom_blank hw hblank, ← List.append_assoc] at h
    exact absurd h (hrest (by simp [hw]))

namespace Reading

variable {s : Reading}

/-- Behind blanks and comments there are none to be passed over. -/
theorem skip_skip (s : Reading) : s.skip.skip = s.skip := by
  have hagain : trivia s.skip.offset s.skip.rest = ⟨[], s.skip.offset, s.skip.rest⟩ :=
    trivia_self (trivia_again ..)
  rw [skip.eq_1 s.skip, hagain]
  rfl

theorem inner_skip_rest (s : Reading) : s.skip.inner.skip.rest = s.skip.rest :=
  trivia_again ..

/-- What is passed over is decided by the text that is left. -/
theorem skip_rest_congr {s s' : Reading} (h : s.rest = s'.rest) : s.skip.rest = s'.skip.rest := by
  change (trivia s.offset s.rest).rest = (trivia s'.offset s'.rest).rest
  rw [h]
  exact triviaFrom_rest s'.rest

end Reading

/-! ### Patterns that begin with a lexeme -/

namespace Pattern

variable {ρ : Type} {rules : ρ → Pattern ρ} {fuel : Nat} {around : Surroundings} {p q : Pattern ρ} {s s' : Reading}

/-- Whether a pattern passes over blanks and comments before anything else, if some rules do. -/
def skipsFirst (known : ρ → Bool) : Pattern ρ → Bool
  | never | token _ _ | node _ _ | group _ _ | part _ _ => true
  | both p q => p.skipsFirst known || p.looksAhead && q.skipsFirst known
  | either p q => p.skipsFirst known && q.skipsFirst known
  | rule r => known r
  | _ => false

theorem skipsFirst_of_isChoice {known : ρ → Bool} (h : p.isChoice = true) : p.skipsFirst known = true := by
  induction p with
  | token l k => rfl
  | either p q ihp ihq =>
    obtain ⟨hp, hq⟩ := Bool.and_eq_true_iff.mp h
    exact Bool.and_eq_true_iff.mpr ⟨ihp hp, ihq hq⟩
  | _ => cases h

/-- Such a pattern reads the same where they have been passed over already. -/
theorem run_skip {known : ρ → Bool} (hknown : ∀ r, known r = true → (rules r).skipsFirst known = true)
    (hp : p.skipsFirst known = true) : run rules fuel around p s.skip = run rules fuel around p s := by
  induction fuel using Nat.strongRecOn generalizing p s with
  | ind fuel ih =>
    rcases fuel with _ | fuel
    · rfl
    have ih' : ∀ {p s}, p.skipsFirst known = true → run rules fuel around p s.skip = run rules fuel around p s :=
      ih fuel (Nat.lt_succ_self fuel)
    cases p with
    | never => rfl
    | token l k =>
      change s.skip.skip.take l k = s.skip.take l k
      rw [Reading.skip_skip]
    | node k p => rw [run_node, run_node, Reading.skip_skip]
    | group k p =>
      change (run rules fuel around p s.skip.skip.inner).map (s.skip.skip.closeGroup k) =
        (run rules fuel around p s.skip.inner).map (s.skip.closeGroup k)
      rw [Reading.skip_skip]
    | part r p => rw [run_part, run_part, Reading.skip_skip]
    | rule r => exact ih' (hknown r hp)
    | either p q =>
      obtain ⟨hp, hq⟩ := Bool.and_eq_true_iff.mp hp
      rw [run_either, run_either, ih' hp, ih' hq]
    | both p q =>
      rw [run_both, run_both]
      rcases Bool.or_eq_true_iff.mp hp with hp | hp
      · rw [ih' hp]
      · -- What looks ahead stays where it is, and what follows it passes over them.
        obtain ⟨hp, hq⟩ := Bool.and_eq_true_iff.mp hp
        cases p with
        | ahead p =>
          cases fuel with
          | zero => rfl
          | succ fuel =>
            have hsame : run rules fuel around p s.skip = run rules fuel around p s :=
              ih fuel (by omega) (skipsFirst_of_isChoice hp)
            rw [run_ahead, run_ahead, hsame]
            cases run rules fuel around p s with
            | none => rfl
            | some done => exact ih' hq
        | _ => cases hp
    | _ => cases hp

mutual

/-- Whether a pattern fails where no lexeme of some classes begins, if all rules do. -/
def needs (ok : Lexeme → Bool) : Pattern ρ → Bool
  | never | rule _ => true
  | token l _ => ok l
  | both p q => p.needs ok || p.stays ok && q.needs ok
  | either p q => p.needs ok && q.needs ok
  | node _ p | group _ p | part _ p | inside _ p | ahead p => p.needs ok
  | _ => false

/-- Whether a pattern fails there or reads no lexeme. -/
def stays (ok : Lexeme → Bool) : Pattern ρ → Bool
  | nothing | absent _ | ahead _ | amid _ => true
  | both p q => p.stays ok && q.stays ok
  | either p q => (p.needs ok || p.stays ok) && (q.needs ok || q.stays ok)
  | many p => p.needs ok
  | _ => false

end

theorem run_needs_stays {ok : Lexeme → Bool} {t : Bytes} (hrules : ∀ r, (rules r).needs ok = true)
    (hok : ∀ l, ok l = true → l.length? t = none) (hs : s.skip.rest = t) :
    (p.needs ok = true → run rules fuel around p s = none) ∧
      (p.stays ok = true → ∀ s', run rules fuel around p s = some s' → s'.skip.rest = t) := by
  induction fuel generalizing around p s with
  | zero => exact ⟨fun _ => rfl, fun _ _ h => by cases h⟩
  | succ fuel ih =>
    have hinner : ∀ {p}, needs ok p = true → run rules fuel around p s.skip.inner = none := fun {p} hp =>
      (ih ((Reading.inner_skip_rest s).trans hs)).1 hp
    cases p with
    | nothing => exact ⟨nofun, fun _ s' h => by cases h; exact hs⟩
    | never => exact ⟨fun _ => rfl, nofun⟩
    | token l k =>
      refine ⟨fun hl => ?_, nofun⟩
      change s.skip.take l k = none
      unfold Reading.take
      rw [hs, hok l hl]
    | both p q =>
      rw [run_both]
      refine ⟨fun h => ?_, fun h s' hrun => ?_⟩
      · rcases Bool.or_eq_true_iff.mp h with hp | h
        · rw [(ih hs).1 hp, Option.bind_none]
        · obtain ⟨hp, hq⟩ := Bool.and_eq_true_iff.mp h
          cases hmiddle : run rules fuel around p s with
          | none => rfl
          | some middle => exact (ih ((ih hs).2 hp middle hmiddle)).1 hq
      · obtain ⟨hp, hq⟩ := Bool.and_eq_true_iff.mp h
        obtain ⟨middle, hmiddle, hrun⟩ := Option.bind_eq_some_iff.mp hrun
        exact (ih ((ih hs).2 hp middle hmiddle)).2 hq s' hrun
    | either p q =>
      rw [run_either]
      refine ⟨fun h => ?_, fun h s' hrun => ?_⟩
      · obtain ⟨hp, hq⟩ := Bool.and_eq_true_iff.mp h
        rw [(ih hs).1 hp, (ih hs).1 hq]
        rfl
      · obtain ⟨hp, hq⟩ := Bool.and_eq_true_iff.mp h
        -- Either alternative fails or stays.
        have hstays : ∀ {p}, (needs ok p || stays ok p) = true → run rules fuel around p s = some s' →
            s'.skip.rest = t := fun {p} hp hrun => by
          rcases Bool.or_eq_true_iff.mp hp with hp | hp
          · rw [(ih hs).1 hp] at hrun
            cases hrun
          · exact (ih hs).2 hp s' hrun
        cases hfirst : run rules fuel around p s with
        | none => rw [hfirst] at hrun; exact hstays hq hrun
        | some done => rw [hfirst] at hrun; cases hrun; exact hstays hp hfirst
    | many p =>
      refine ⟨nofun, fun hp s' hrun => ?_⟩
      rw [run_many, (ih (p := p) hs).1 hp] at hrun
      cases hrun
      exact hs
    | node k p =>
      refine ⟨fun hp => ?_, nofun⟩
      rw [run_node, hinner (p := p) hp, Option.map_none]
    | group k p =>
      refine ⟨fun hp => ?_, nofun⟩
      exact congrArg (Option.map _) (hinner (p := p) hp)
    | part r p =>
      refine ⟨fun hp => ?_, nofun⟩
      rw [run_part, hinner (p := p) hp, Option.map_none]
    | rule r => exact ⟨fun _ => (ih hs).1 (hrules r), nofun⟩
    | ahead p =>
      rw [run_ahead]
      refine ⟨fun hp => by rw [(ih (p := p) hs).1 hp, Option.map_none], fun _ s' hrun => ?_⟩
      obtain ⟨_, -, rfl⟩ := Option.map_eq_some_iff.mp hrun
      exact hs
    | absent p =>
      refine ⟨nofun, fun _ s' hrun => ?_⟩
      rw [run_absent] at hrun
      split at hrun
      · cases hrun; exact hs
      · cases hrun
    | inside around' p => exact ⟨(ih (p := p) hs).1, nofun⟩
    | amid around' =>
      refine ⟨nofun, fun _ s' hrun => ?_⟩
      change (if around = around' then some s else none) = some s' at hrun
      split at hrun
      · cases hrun; exact hs
      · cases hrun
    | glued l k | ending e | blanks | finish => exact ⟨nofun, nofun⟩

/-- A pattern that needs a lexeme of some classes fails where none begins. -/
theorem run_needs {ok : Lexeme → Bool} (hrules : ∀ r, (rules r).needs ok = true)
    (hok : ∀ l, ok l = true → l.length? s.skip.rest = none) (hp : p.needs ok = true) :
    run rules fuel around p s = none :=
  (run_needs_stays hrules hok rfl).1 hp

end Pattern

/-! ### The mark of the first line -/

/-- The mark by which the first line of a source tells how it is run. -/
def hashBangMark : Bytes := Bytes.ofString "#!"

/-- Whether no lexeme of a class can begin with that mark. -/
def Lexeme.isUnmarked : Lexeme → Bool
  | exactly s | word s => s.head?.any (· != code '#')
  | line | templateText | markupText => false
  | _ => true

theorem Lexeme.length?_hashBang {l : Lexeme} (hl : l.isUnmarked = true) (t : Bytes) :
    l.length? (hashBangMark ++ t) = none := by
  have hname : nameLength false (hashBangMark ++ t) = 0 := nameLength_other (by decide) (by decide) (by decide) _
  have hmark : ∀ {s : Bytes}, s.head?.any (· != code '#') = true → s.isPrefixOf (hashBangMark ++ t) = false := by
    intro s hs
    rcases s with _ | ⟨a, s⟩
    · cases hs
    · have ha : (a == code '#') = false := by simpa using hs
      exact Bool.and_eq_false_iff.mpr (.inl ha)
  cases l with
  | exactly s => simp [length?, hmark hl]
  | word s => simp [length?, hmark hl]
  | name reserved =>
    simp only [length?, nameLength?, hname]
    split
    · rfl
    · split <;> rfl
  | privateName =>
    -- Behind the number sign stands no name.
    have hbehind : nameLength false (code '!' :: t) = 0 := nameLength_other (by decide) (by decide) (by decide) _
    have hnone : nameLength? [] (code '!' :: t) = none := by
      simp only [nameLength?, hbehind]
      rfl
    exact congrArg (Option.map (· + 1)) hnone
  | number => rfl
  | quoted => rfl
  | regex => rfl
  | markupName =>
    simp only [length?, markupNameLength, hname]
    rfl
  | markupQuoted => rfl
  | line | templateText | markupText => cases hl

namespace Grammar

variable {s : Reading} {fuel : Nat} {around : Surroundings}

theorem rules_need (d : Dialect) (r : Rule) : (rules d r).needs Lexeme.isUnmarked = true := by
  cases d <;> cases r <;> decide +kernel

/-- No statement begins with the mark. -/
theorem statement_refuses {d : Dialect} {t : Bytes} (h : s.skip.rest = hashBangMark ++ t) :
    Pattern.run (rules d) fuel around (call .statement) s = none :=
  Pattern.run_needs (rules_need d) (fun _ hl => h ▸ Lexeme.length?_hashBang hl t) rfl

theorem rules_skipFirst (d : Dialect) (r : Rule) (h : isStatementRule r = true) :
    (rules d r).skipsFirst isStatementRule = true := by
  cases d <;> cases r <;> first | cases h; done | decide +kernel

/-- What is passed over before a statement is passed over by the statement. -/
theorem statement_skip {d : Dialect} : Pattern.run (rules d) fuel around (call .statement) s.skip =
    Pattern.run (rules d) fuel around (call .statement) s :=
  Pattern.run_skip (rules_skipFirst d) rfl

end Grammar
end Codemod.Syntax
