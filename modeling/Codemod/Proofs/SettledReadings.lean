import Codemod.Proofs.SettledLexemes
import Codemod.Proofs.StatementSeries

/-!
# Readings that are settled by a text

Of a source only a first part is known, and of what follows it that it is one of some texts. `Pattern.settled` reads the
part that is known. It goes through a pattern as `Pattern.run` does, and gives a result only where the known part tells
the next lexeme by itself. At its end, where only blanks and comments are left, two things are looked at in the texts
that follow: whether a statement can end there, and whether the first lexeme of what could go on there is refused. The
result is then that of reading the whole, whichever of the texts follows.

Main statements:

* `Pattern.run_of_outlook` says what is read at the end of the known part;
* `Pattern.run_of_settled` says that what is settled is read so in the whole source;
* `Grammar.series_of_settledSeries` says so of statements in a row.
-/

namespace Codemod.Syntax

variable {nexts texts : List Bytes} {z : Bytes} {fuel n : Nat} {s : Reading} {k : Kind}

/-! ### Readings of a text that another one follows -/

namespace Reading

/-- A reading of a text that another one follows. -/
def followedBy (z : Bytes) (s : Reading) : Reading :=
  { s with rest := s.rest ++ z }

/-- What is passed over depends on the text alone. -/
theorem skip_rest_eq (s : Reading) : s.skip.rest = (trivia 0 s.rest).rest :=
  skip_rest_congr (show s.rest = Reading.rest ⟨0, s.rest, []⟩ from rfl)

theorem skip_followedBy (h : EndsAscii s.rest) (hsteady : isSteady s.skip.rest = true) :
    (s.followedBy z).skip = s.skip.followedBy z := by
  have htrivia : trivia s.offset (s.rest ++ z) = (trivia s.offset s.rest).followedBy z := h.trivia_append hsteady
  show (s.followedBy z).after (trivia s.offset (s.rest ++ z)) = _
  rw [htrivia]
  rfl

theorem take_followedBy {l : Lexeme} (h : EndsAscii s.rest) (hne : s.rest ≠ []) (hl : l.isSettled s.rest = true) :
    (s.followedBy z).take l k = (s.take l k).map (followedBy z) := by
  have hlength : l.length? (s.followedBy z).rest = l.length? s.rest := l.length?_append h hne hl
  unfold take
  rw [hlength]
  cases hn : l.length? s.rest with
  | none => rfl
  | some n =>
    have hdrop : (s.followedBy z).rest.drop n = s.rest.drop n ++ z :=
      List.drop_append_of_le_length (Lexeme.length?_le hn)
    dsimp only
    rw [hdrop]
    rfl

theorem closeGroup_followedBy (s done : Reading) :
    (s.followedBy z).closeGroup k (done.followedBy z) = (s.closeGroup k done).followedBy z := by
  unfold closeGroup
  dsimp only [followedBy]
  split <;> rfl

end Reading

/-! ### The end of a statement -/

/-- Where a statement ends that has no semicolon, and what it takes of the comments on its line, if this is the same
whichever of the texts follows. -/
def settledEnd? (e : Ending) (nexts : List Bytes) : Nat → Trivia → Option (Option Trivia)
  | 0, _ => some none
  | fuel + 1, t =>
    if nexts.all fun z => endsStatement e (t.rest ++ z) then some (some t)
    else if nexts.all fun z => !endsStatement e (t.rest ++ z) then
      if nexts.all fun z => (commentLength? (dropBlanks blankLength 0 (t.rest ++ z))).isNone then some none
      else
        let next := dropBlanks blankLength 0 t.rest
        match commentLength? next with
        | none => none
        | some n =>
          if nexts.all fun z => commentLength? (next ++ z) == some n then
            let start := t.offset + (t.rest.length - next.length)
            settledEnd? e nexts fuel ⟨(start, start + n) :: t.comments, start + n, next.drop n⟩
          else none
    else none

theorem statementEnd?_of_settledEnd? {e : Ending} {t : Trivia} {r : Option Trivia} (hz : z ∈ nexts)
    (ht : EndsAscii t.rest) (h : settledEnd? e nexts fuel t = some r) :
    statementEnd? e fuel (t.followedBy z) = r.map (Trivia.followedBy z) ∧ ∀ t' ∈ r, t'.rest <:+ t.rest := by
  induction fuel generalizing t with
  | zero =>
    obtain rfl := Option.some.inj h
    exact ⟨rfl, fun _ hnone => by cases hnone⟩
  | succ fuel ih =>
    have hrest : (t.followedBy z).rest = t.rest ++ z := rfl
    unfold settledEnd? at h
    unfold statementEnd?
    rw [hrest]
    split at h
    case isTrue hends =>
      obtain rfl := Option.some.inj h
      rw [if_pos (List.all_eq_true.mp hends z hz)]
      refine ⟨rfl, ?_⟩
      rintro t' ⟨⟩
      exact List.suffix_rfl
    split at h
    case isFalse => cases h
    case isTrue hno =>
      have hno : ¬ endsStatement e (t.rest ++ z) = true := by simpa using List.all_eq_true.mp hno z hz
      rw [if_neg hno]
      dsimp only
      split at h
      case isTrue hnone =>
        obtain rfl := Option.some.inj h
        rw [Option.isNone_iff_eq_none.mp (List.all_eq_true.mp hnone z hz)]
        exact ⟨rfl, fun _ hnone => by cases hnone⟩
      case isFalse =>
        -- A comment on the line belongs to the statement.
        dsimp only at h
        split at h
        case h_1 => cases h
        case h_2 n hn =>
          split at h
          case isFalse => cases h
          case isTrue hsame =>
            obtain ⟨k, -, hnext⟩ := dropBlanks_eq_drop blankLength 0 t.rest
            have hne : dropBlanks blankLength 0 t.rest ≠ [] := by
              intro hnil
              rw [hnil] at hn
              cases hn
            have hboth : commentLength? (dropBlanks blankLength 0 t.rest ++ z) = some n := by
              simpa using List.all_eq_true.mp hsame z hz
            rw [ht.dropBlanks_append hne, hboth]
            dsimp only
            have hle := (commentLength?_bounds hn).1
            have hlength : (t.rest ++ z).length - (dropBlanks blankLength 0 t.rest ++ z).length =
                t.rest.length - (dropBlanks blankLength 0 t.rest).length := by
              rw [List.length_append, List.length_append]
              omega
            have hsuffix : (dropBlanks blankLength 0 t.rest).drop n <:+ t.rest := by
              rw [hnext]
              exact (List.drop_suffix ..).trans (List.drop_suffix ..)
            rw [hlength, List.drop_append_of_le_length hle]
            obtain ⟨hresult, hrests⟩ := ih (ht.suffix hsuffix) h
            exact ⟨hresult, fun t' ht' => (hrests t' ht').trans hsuffix⟩

/-! ### The end of what is known -/

namespace Pattern

variable {ρ : Type} {rules : ρ → Pattern ρ} {around : Surroundings} {p : Pattern ρ}

/-- What comes of reading where one of some texts begins, whichever it is: `some true` if nothing is read with success,
`some false` if the reading fails. Of a text only its first lexeme is looked at. -/
def outlook (rules : ρ → Pattern ρ) : List Bytes → Nat → Surroundings → Pattern ρ → Option Bool
  | _, 0, _, _ => none
  | texts, fuel + 1, around, p =>
    match p with
    | nothing => some true
    | never => some false
    | token l _ => if texts.all fun w => (l.length? (trivia 0 w).rest).isNone then some false else none
    | glued l _ => if texts.all fun w => (l.length? w).isNone then some false else none
    | both p q =>
      match outlook rules texts fuel around p with
      | some true => outlook rules texts fuel around q
      | r => r
    | either p q =>
      match outlook rules texts fuel around p with
      | some false => outlook rules texts fuel around q
      | r => r
    | many p => (outlook rules texts fuel around p).map fun _ => true
    | node _ p | group _ p | part _ p =>
      if outlook rules (texts.map fun w => (trivia 0 w).rest) fuel around p = some false then some false else none
    | rule r => outlook rules texts fuel around (rules r)
    | ahead p => outlook rules texts fuel around p
    | absent p => (outlook rules texts fuel around p).map fun b => !b
    | ending e =>
      if texts.all fun w => !endsStatement e w && (commentLength? (dropBlanks blankLength 0 w)).isNone then some false
      else if 0 < fuel ∧ texts.all (endsStatement e) then some true
      else none
    | inside around' p => outlook rules texts fuel around' p
    | amid around' => some (around = around')
    | blanks => none
    | finish => none

/-- What the outlook says is what comes of reading. -/
theorem run_of_outlook {b : Bool} (hs : s.rest ∈ texts) (h : outlook rules texts fuel around p = some b) :
    run rules fuel around p s = if b then some s else none := by
  induction fuel generalizing texts around p s b with
  | zero => cases h
  | succ fuel ih =>
    -- A node is made of what stands behind blanks and comments, and nothing is made of a text that is refused.
    have hwithin : ∀ {p : Pattern ρ}, (if outlook rules (texts.map fun w => (trivia 0 w).rest) fuel around p =
        some false then some false else none) = some b → b = false ∧ run rules fuel around p s.skip.inner = none := by
      intro p h
      split at h
      case isFalse => cases h
      case isTrue hrefused =>
        obtain rfl := Option.some.inj h
        have hrest : s.skip.inner.rest = (trivia 0 s.rest).rest := s.skip_rest_eq
        exact ⟨rfl, ih (hrest ▸ List.mem_map_of_mem hs) hrefused⟩
    cases p with
    | nothing =>
      obtain rfl := Option.some.inj h
      rfl
    | never =>
      obtain rfl := Option.some.inj h
      rfl
    | token l k =>
      simp only [outlook] at h
      split at h
      case isFalse => cases h
      case isTrue hnone =>
        obtain rfl := Option.some.inj h
        have hlength : l.length? s.skip.rest = none := by
          rw [s.skip_rest_eq]
          exact Option.isNone_iff_eq_none.mp (List.all_eq_true.mp hnone s.rest hs)
        show s.skip.take l k = none
        rw [Reading.take, hlength]
    | glued l k =>
      simp only [outlook] at h
      split at h
      case isFalse => cases h
      case isTrue hnone =>
        obtain rfl := Option.some.inj h
        show s.take l k = none
        rw [Reading.take, Option.isNone_iff_eq_none.mp (List.all_eq_true.mp hnone s.rest hs)]
    | both p q =>
      simp only [outlook] at h
      rw [run_both]
      cases hp : outlook rules texts fuel around p with
      | none =>
        rw [hp] at h
        cases h
      | some stays =>
        rw [hp] at h
        rw [ih hs hp]
        cases stays with
        | false =>
          obtain rfl := Option.some.inj h
          rfl
        | true => exact ih hs h
    | either p q =>
      simp only [outlook] at h
      rw [run_either]
      cases hp : outlook rules texts fuel around p with
      | none =>
        rw [hp] at h
        cases h
      | some stays =>
        rw [hp] at h
        rw [ih hs hp]
        cases stays with
        | false => exact ih hs h
        | true =>
          obtain rfl := Option.some.inj h
          rfl
    | many p =>
      obtain ⟨stays, hp, rfl⟩ := Option.map_eq_some_iff.mp h
      rw [run_many, ih hs hp]
      cases stays with
      | false => rfl
      | true => exact if_pos rfl
    | node k p =>
      obtain ⟨rfl, hnone⟩ := hwithin h
      rw [run_node, hnone]
      rfl
    | group k p =>
      obtain ⟨rfl, hnone⟩ := hwithin h
      show (run rules fuel around p s.skip.inner).map _ = none
      rw [hnone]
      rfl
    | part r p =>
      obtain ⟨rfl, hnone⟩ := hwithin h
      rw [run_part, hnone]
      rfl
    | rule r => exact ih hs h
    | ahead p =>
      rw [run_ahead, ih hs h]
      cases b <;> rfl
    | absent p =>
      obtain ⟨stays, hp, rfl⟩ := Option.map_eq_some_iff.mp h
      rw [run_absent, ih hs hp]
      cases stays <;> rfl
    | ending e =>
      simp only [outlook] at h
      show (statementEnd? e fuel ⟨[], s.offset, s.rest⟩).map s.after = _
      split at h
      case isTrue hno =>
        obtain rfl := Option.some.inj h
        obtain ⟨hends, hcomment⟩ := Bool.and_eq_true_iff.mp (List.all_eq_true.mp hno s.rest hs)
        cases fuel with
        | zero => rfl
        | succ fuel =>
          have hends : ¬ endsStatement e s.rest = true := by simpa using hends
          rw [statementEnd?, if_neg hends]
          dsimp only
          rw [Option.isNone_iff_eq_none.mp hcomment]
          rfl
      case isFalse =>
        split at h
        case isFalse => cases h
        case isTrue hends =>
          obtain rfl := Option.some.inj h
          obtain ⟨fuel, rfl⟩ := Nat.exists_eq_add_one_of_ne_zero (Nat.ne_of_gt hends.1)
          rw [statementEnd?, if_pos (List.all_eq_true.mp hends.2 s.rest hs)]
          rfl
    | inside around' p => exact ih hs h
    | amid around' =>
      obtain rfl := Option.some.inj h
      show (if around = around' then some s else none) = _
      by_cases hamid : around = around'
      · rw [if_pos hamid, if_pos (decide_eq_true hamid)]
      · rw [if_neg hamid, if_neg (by simpa using hamid)]
    | blanks => cases h
    | finish => cases h

/-! ### What is known -/

/-- What comes of reading a text which one of some others follows, whichever it is, if the text tells so: a reading
of it, or that there is none. -/
def settled (rules : ρ → Pattern ρ) (nexts : List Bytes) : Nat → Surroundings → Pattern ρ → Reading →
    Option (Option Reading)
  | 0, _, _, _ => none
  | fuel + 1, around, p, s =>
    match if s.skip.rest.isEmpty then outlook rules (nexts.map (s.rest ++ ·)) (fuel + 1) around p else none with
    | some stays => some (if stays then some s else none)
    | none =>
      match p with
      | nothing => some (some s)
      | never => some none
      | token l k => if isSteady s.skip.rest && l.isSettled s.skip.rest then some (s.skip.take l k) else none
      | glued l k => if !s.rest.isEmpty && l.isSettled s.rest then some (s.take l k) else none
      | both p q =>
        match settled rules nexts fuel around p s with
        | some (some s') => settled rules nexts fuel around q s'
        | r => r
      | either p q =>
        match settled rules nexts fuel around p s with
        | some none => settled rules nexts fuel around q s
        | r => r
      | many p =>
        match settled rules nexts fuel around p s with
        | none => none
        | some none => some (some s)
        | some (some s') =>
          if s'.offset = s.offset then some (some s') else settled rules nexts fuel around (many p) s'
      | node k p =>
        if isSteady s.skip.rest then
          (settled rules nexts fuel around p s.skip.inner).map (Option.map (s.skip.close k)) else none
      | group k p =>
        if isSteady s.skip.rest then
          (settled rules nexts fuel around p s.skip.inner).map (Option.map (s.skip.closeGroup k)) else none
      | part r p =>
        if isSteady s.skip.rest then
          (settled rules nexts fuel around p s.skip.inner).map (Option.map (s.skip.closePart r)) else none
      | rule r => settled rules nexts fuel around (rules r) s
      | ahead p => (settled rules nexts fuel around p s).map (Option.map fun _ => s)
      | absent p => (settled rules nexts fuel around p s).map fun r => if r.isNone then some s else none
      | ending e => (settledEnd? e nexts fuel ⟨[], s.offset, s.rest⟩).map (Option.map s.after)
      | inside around' p => settled rules nexts fuel around' p s
      | amid around' => some (if around = around' then some s else none)
      | blanks => if isSteady s.skip.rest then some (some s.skip) else none
      | finish => if s.rest.isEmpty then none else some none

/-- What is foretold of reading a text which `z` follows: it is what comes of it, and lies within the text. -/
structure Foretold (z : Bytes) (s : Reading) (r result : Option Reading) : Prop where
  result_eq : result = r.map (Reading.followedBy z)
  suffix : ∀ s' ∈ r, s'.rest <:+ s.rest

namespace Foretold

theorem fails (s : Reading) : Foretold z s none none :=
  ⟨rfl, fun _ h => by cases h⟩

theorem stays (s : Reading) : Foretold z s (some s) (some (s.followedBy z)) :=
  ⟨rfl, fun s' h => by
    obtain rfl := Option.some.inj h
    exact List.suffix_rfl⟩

theorem mono {s₀ : Reading} {r result : Option Reading} (h : Foretold z s r result) (hs : s.rest <:+ s₀.rest) :
    Foretold z s₀ r result :=
  ⟨h.result_eq, fun s' hs' => (h.suffix s' hs').trans hs⟩

theorem take {l : Lexeme} (hs : EndsAscii s.rest) (hne : s.rest ≠ []) (hl : l.isSettled s.rest = true) :
    Foretold z s (s.take l k) ((s.followedBy z).take l k) :=
  ⟨Reading.take_followedBy hs hne hl, fun _ hs' => (Reading.onward_take hs').1.rest⟩

theorem close {r result : Option Reading} {done done' : Reading → Reading} (h : Foretold z s.skip.inner r result)
    (hskip : s.skip.rest <:+ s.rest) (hrest : ∀ s', (done s').rest = s'.rest)
    (hdone : ∀ s', done' (s'.followedBy z) = (done s').followedBy z) :
    Foretold z s (r.map done) (result.map done') := by
  rw [h.result_eq]
  cases r with
  | none => exact .fails s
  | some s' =>
    refine ⟨congrArg some (hdone s'), fun s'' hs'' => ?_⟩
    obtain rfl := Option.some.inj hs''
    rw [hrest]
    exact (h.suffix s' rfl).trans hskip

end Foretold

/-- What is settled comes of reading the whole. -/
theorem run_of_settled {r : Option Reading} (hz : z ∈ nexts) (hs : EndsAscii s.rest)
    (h : settled rules nexts fuel around p s = some r) : Foretold z s r (run rules fuel around p (s.followedBy z)) := by
  induction fuel generalizing around p s r with
  | zero => cases h
  | succ fuel ih =>
    unfold settled at h
    split at h
    case h_1 stays houtlook =>
      obtain rfl := Option.some.inj h
      split at houtlook
      case isFalse => cases houtlook
      case isTrue =>
        have hmem : (s.followedBy z).rest ∈ nexts.map (s.rest ++ ·) := List.mem_map.mpr ⟨z, hz, rfl⟩
        rw [run_of_outlook hmem houtlook]
        cases stays with
        | false => exact .fails s
        | true => exact .stays s
    case h_2 =>
      have hskip : s.skip.rest <:+ s.rest := (Reading.onward_skip s).rest
      -- What a node is made of is read behind blanks and comments that end within the text.
      have hinner : ∀ {p : Pattern ρ} {done : Reading → Reading}, (if isSteady s.skip.rest then
            (settled rules nexts fuel around p s.skip.inner).map (Option.map done) else none) = some r →
          isSteady s.skip.rest = true ∧ ∃ r', r = r'.map done ∧
            Foretold z s.skip.inner r' (run rules fuel around p (s.skip.inner.followedBy z)) := by
        intro p done h
        split at h
        case isFalse => cases h
        case isTrue hsteady =>
          obtain ⟨r', hr', rfl⟩ := Option.map_eq_some_iff.mp h
          exact ⟨hsteady, r', rfl, ih (s := s.skip.inner) (hs.suffix hskip) hr'⟩
      cases p with
      | nothing =>
        obtain rfl := Option.some.inj h
        exact .stays s
      | never =>
        obtain rfl := Option.some.inj h
        exact .fails s
      | token l k =>
        dsimp only at h
        split at h
        case isFalse => cases h
        case isTrue hsettled =>
          obtain ⟨hsteady, hl⟩ := Bool.and_eq_true_iff.mp hsettled
          obtain rfl := Option.some.inj h
          have htake := Foretold.take (z := z) (k := k) (hs.suffix hskip) (ne_nil_of_isSteady hsteady) hl
          show Foretold z s _ ((s.followedBy z).skip.take l k)
          rw [Reading.skip_followedBy hs hsteady]
          exact htake.mono hskip
      | glued l k =>
        dsimp only at h
        split at h
        case isFalse => cases h
        case isTrue hsettled =>
          obtain ⟨hne, hl⟩ := Bool.and_eq_true_iff.mp hsettled
          obtain rfl := Option.some.inj h
          exact Foretold.take hs (by simpa using hne) hl
      | both p q =>
        dsimp only at h
        rw [run_both]
        cases hp : settled rules nexts fuel around p s with
        | none =>
          rw [hp] at h
          cases h
        | some first =>
          rw [hp] at h
          have hfirst := ih hs hp
          rw [hfirst.result_eq]
          cases first with
          | none =>
            obtain rfl := Option.some.inj h
            exact .fails s
          | some s' =>
            have hsuffix := hfirst.suffix s' rfl
            exact (ih (hs.suffix hsuffix) h).mono hsuffix
      | either p q =>
        dsimp only at h
        rw [run_either]
        cases hp : settled rules nexts fuel around p s with
        | none =>
          rw [hp] at h
          cases h
        | some first =>
          rw [hp] at h
          have hfirst := ih hs hp
          rw [hfirst.result_eq]
          cases first with
          | none => exact ih hs h
          | some s' =>
            obtain rfl := Option.some.inj h
            exact ⟨rfl, hfirst.suffix⟩
      | many p =>
        dsimp only at h
        rw [run_many]
        cases hp : settled rules nexts fuel around p s with
        | none =>
          rw [hp] at h
          cases h
        | some first =>
          rw [hp] at h
          have hfirst := ih hs hp
          rw [hfirst.result_eq]
          cases first with
          | none =>
            obtain rfl := Option.some.inj h
            exact .stays s
          | some s' =>
            have hsuffix := hfirst.suffix s' rfl
            show Foretold z s r (if s'.offset = s.offset then some (s'.followedBy z)
              else run rules fuel around (many p) (s'.followedBy z))
            dsimp only at h
            split
            case isTrue hoffset =>
              rw [if_pos hoffset] at h
              obtain rfl := Option.some.inj h
              exact ⟨rfl, hfirst.suffix⟩
            case isFalse hoffset =>
              rw [if_neg hoffset] at h
              exact (ih (hs.suffix hsuffix) h).mono hsuffix
      | node k p =>
        obtain ⟨hsteady, r', rfl, hread⟩ := hinner h
        rw [run_node, Reading.skip_followedBy hs hsteady]
        exact hread.close hskip (fun _ => rfl) fun _ => rfl
      | group k p =>
        obtain ⟨hsteady, r', rfl, hread⟩ := hinner h
        show Foretold z s _
          ((run rules fuel around p (s.followedBy z).skip.inner).map ((s.followedBy z).skip.closeGroup k))
        rw [Reading.skip_followedBy hs hsteady]
        exact hread.close hskip (Reading.closeGroup_rest s.skip k) (Reading.closeGroup_followedBy s.skip)
      | part r p =>
        obtain ⟨hsteady, r', rfl, hread⟩ := hinner h
        rw [run_part, Reading.skip_followedBy hs hsteady]
        exact hread.close hskip (fun _ => rfl) fun _ => rfl
      | rule r => exact ih hs h
      | ahead p =>
        obtain ⟨r', hr', rfl⟩ := Option.map_eq_some_iff.mp h
        rw [run_ahead, (ih hs hr').result_eq]
        cases r' with
        | none => exact .fails s
        | some s' => exact .stays s
      | absent p =>
        obtain ⟨r', hr', rfl⟩ := Option.map_eq_some_iff.mp h
        rw [run_absent, (ih hs hr').result_eq]
        cases r' with
        | none => exact .stays s
        | some s' => exact .fails s
      | ending e =>
        obtain ⟨r', hr', rfl⟩ := Option.map_eq_some_iff.mp h
        obtain ⟨hend, hrests⟩ := statementEnd?_of_settledEnd? (t := ⟨[], s.offset, s.rest⟩) hz hs hr'
        have hend : statementEnd? e fuel ⟨[], s.offset, s.rest ++ z⟩ = r'.map (Trivia.followedBy z) := hend
        show Foretold z s _ ((statementEnd? e fuel ⟨[], s.offset, s.rest ++ z⟩).map (s.followedBy z).after)
        rw [hend]
        cases r' with
        | none => exact .fails s
        | some t' =>
          refine ⟨rfl, fun s' hs' => ?_⟩
          obtain rfl := Option.some.inj hs'
          exact hrests t' rfl
      | inside around' p => exact ih hs h
      | amid around' =>
        obtain rfl := Option.some.inj h
        show Foretold z s _ (if around = around' then some (s.followedBy z) else none)
        split
        · exact .stays s
        · exact .fails s
      | blanks =>
        dsimp only at h
        split at h
        case isFalse => cases h
        case isTrue hsteady =>
          obtain rfl := Option.some.inj h
          show Foretold z s _ (some (s.followedBy z).skip)
          rw [Reading.skip_followedBy hs hsteady]
          exact (Foretold.stays s.skip).mono hskip
      | finish =>
        dsimp only at h
        split at h
        case isTrue => cases h
        case isFalse hne =>
          obtain rfl := Option.some.inj h
          have hne : ¬ (s.rest ++ z).isEmpty = true := by
            rw [List.isEmpty_iff] at hne ⊢
            exact fun hnil => hne (List.append_eq_nil_iff.mp hnil).1
          show Foretold z s _ (if (s.rest ++ z).isEmpty then some (s.followedBy z) else none)
          rw [if_neg hne]
          exact .fails s

end Pattern

/-! ### Statements in a row -/

namespace Grammar

variable {d : Dialect} {ts : List Tree} {u : Reading}

/-- What can stand next at an offset of a source. -/
def nextAt (offset : Nat) : Phrase :=
  if offset = 0 then .either hashBang (call .statement) else call .statement

theorem run_nextAt (h : stepsPerByte * s.rest.length + margin < fuel) :
    Pattern.run (rules d) fuel .statement (nextAt s.offset) s = readNext d s := by
  unfold nextAt readNext
  obtain ⟨fuel, rfl⟩ := Nat.exists_eq_add_one_of_ne_zero (Nat.ne_of_gt (Nat.zero_lt_of_lt h))
  split
  case isTrue =>
    rw [Pattern.run_either, run_eq_readBy hashBang_depth_le (by omega), run_eq_readBy statement_depth_le (by omega)]
  case isFalse =>
    rw [run_eq_readBy statement_depth_le (by omega)]
    rfl

/-- Where so many statements end in a row, if the text tells that they are read whichever of the others follows. -/
def settledSeries (d : Dialect) (nexts : List Bytes) (fuel : Nat) : Nat → Reading → Option Reading
  | 0, s => some s
  | n + 1, s =>
    if EndsAscii s.rest then
      match Pattern.settled (rules d) nexts fuel .statement (nextAt s.offset) s with
      | some (some s') => settledSeries d nexts fuel n s'
      | _ => none
    else none

/-- The statements are read so in the whole source. -/
theorem series_of_settledSeries (hz : z ∈ nexts) (hfuel : stepsPerByte * (s.rest ++ z).length + margin < fuel)
    (h : settledSeries d nexts fuel n s = some u) :
    ∃ ts, ts.length = n ∧ Series d (s.followedBy z) ts (u.followedBy z) := by
  induction n generalizing s with
  | zero =>
    obtain rfl := Option.some.inj h
    exact ⟨[], rfl, .nil _⟩
  | succ n ih =>
    unfold settledSeries at h
    split at h
    case isFalse => cases h
    case isTrue hs =>
      split at h
      case h_2 => cases h
      case h_1 s' hsettled =>
        have hforetold := Pattern.run_of_settled hz hs hsettled
        have hnext : readNext d (s.followedBy z) = some (s'.followedBy z) :=
          (run_nextAt hfuel).symm.trans hforetold.result_eq
        obtain ⟨t, hadds, -⟩ := readNext_adds hnext
        have hshorter : (s'.rest ++ z).length < (s.rest ++ z).length := rest_lt_of_readNext hnext
        have hless : stepsPerByte * (s'.rest ++ z).length ≤ stepsPerByte * (s.rest ++ z).length :=
          Nat.mul_le_mul_left _ (Nat.le_of_lt hshorter)
        obtain ⟨ts, hlength, hseries⟩ := ih (by omega) h
        exact ⟨t :: ts, congrArg (· + 1) hlength, .cons hnext hadds hseries⟩

end Grammar

end Codemod.Syntax
