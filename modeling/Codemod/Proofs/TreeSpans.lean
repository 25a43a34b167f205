import Codemod.NamedImport
import Codemod.Proofs.LexemeBounds
import Codemod.Proofs.VisibleBytes

/-!
# Where the nodes of a tree lie

A node spans the nodes that it holds, and these lie in order and apart. The reader of a source keeps this
up: it goes from the beginning of the source to its end, a node begins where its first lexeme begins and
ends where its last one does, and every lexeme lies within what is still to be read. Names and quoted texts
are not empty, and an import statement begins with a visible byte and ends on a line that is not blank.

Main statements:

* `Pattern.run_sound` says that reading by a pattern keeps what has been read in order, and which patterns
  end on a line that is not blank;
* `parse_placed` says that the nodes of a tree lie in order, each within the one that holds it;
* `Tree.Placed.bounds_of_occurrence` says that a node spans everything below it.
-/

namespace Codemod.Syntax

namespace Tree

mutual

/-- A node that spans what it holds, and so on below it. -/
def Placed (source : Bytes) : Tree → Prop
  | .node k _ s e cs => s ≤ e ∧ (k = .identifier ∨ k = .string → s < e) ∧
    (k = .importStatement → source.VisibleAt s ∧ source.LineVisible e) ∧ PlacedIn source s e cs

/-- Nodes that lie one behind the other between two offsets. -/
def PlacedIn (source : Bytes) (lo hi : Nat) : List Tree → Prop
  | [] => lo ≤ hi
  | t :: rest => lo ≤ t.start ∧ t.Placed source ∧ PlacedIn source t.stop hi rest

end

variable {source : Bytes} {lo mid hi : Nat} {t u : Tree} {l l' : List Tree}

theorem Placed.start_le (h : t.Placed source) : t.start ≤ t.stop := by
  cases t
  unfold Placed at h
  exact h.1

theorem Placed.children (h : t.Placed source) : PlacedIn source t.start t.stop t.children := by
  cases t
  unfold Placed at h
  exact h.2.2.2

/-- Names and quoted texts are not empty. -/
theorem Placed.start_lt (h : t.Placed source) (hk : t.is .identifier = true ∨ t.is .string = true) :
    t.start < t.stop := by
  cases t
  unfold Placed at h
  exact h.2.1 (hk.imp of_decide_eq_true of_decide_eq_true)

theorem Placed.visible (h : t.Placed source) (hk : t.is .importStatement = true) :
    source.VisibleAt t.start ∧ source.LineVisible t.stop := by
  cases t
  unfold Placed at h
  exact h.2.2.1 (of_decide_eq_true hk)

theorem Placed.withRole (r : Role) (h : t.Placed source) : (t.withRole r).Placed source := by
  cases t
  unfold Placed at h
  unfold Tree.withRole Placed
  exact h

theorem placed_leaf {k : Kind} {s e : Nat} (hse : s ≤ e) (hk : k = .identifier ∨ k = .string → s < e)
    (himport : k ≠ .importStatement) : (leaf k s e).Placed source := by
  unfold leaf Placed PlacedIn
  exact ⟨hse, hk, fun h => absurd h himport, hse⟩

namespace PlacedIn

theorem nil (h : lo ≤ hi) : PlacedIn source lo hi [] := by
  unfold PlacedIn
  exact h

theorem cons (hlo : lo ≤ t.start) (ht : t.Placed source) (hl : PlacedIn source t.stop hi l) :
    PlacedIn source lo hi (t :: l) := by
  unfold PlacedIn
  exact ⟨hlo, ht, hl⟩

theorem uncons (h : PlacedIn source lo hi (t :: l)) :
    lo ≤ t.start ∧ t.Placed source ∧ PlacedIn source t.stop hi l := by
  unfold PlacedIn at h
  exact h

theorem le (h : PlacedIn source lo hi l) : lo ≤ hi := by
  induction l generalizing lo with
  | nil =>
    unfold PlacedIn at h
    exact h
  | cons t rest ih =>
    obtain ⟨hlo, ht, hrest⟩ := h.uncons
    exact Nat.le_trans hlo (Nat.le_trans ht.start_le (ih hrest))

theorem append (h : PlacedIn source lo mid l) (h' : PlacedIn source mid hi l') :
    PlacedIn source lo hi (l ++ l') := by
  induction l generalizing lo with
  | nil =>
    cases l' with
    | nil => exact nil (Nat.le_trans h.le h'.le)
    | cons t rest =>
      obtain ⟨hlo, ht, hrest⟩ := h'.uncons
      exact cons (Nat.le_trans h.le hlo) ht hrest
  | cons t rest ih =>
    obtain ⟨hlo, ht, hrest⟩ := h.uncons
    exact cons hlo ht (ih hrest)

theorem singleton (hlo : lo ≤ t.start) (ht : t.Placed source) (hhi : t.stop ≤ hi) :
    PlacedIn source lo hi [t] :=
  cons hlo ht (nil hhi)

theorem mono (h : PlacedIn source lo mid l) (hhi : mid ≤ hi) : PlacedIn source lo hi l := by
  have := h.append (nil hhi)
  rwa [List.append_nil] at this

/-- Each of the nodes lies between the offsets. -/
theorem bounds (h : PlacedIn source lo hi l) (ht : t ∈ l) :
    lo ≤ t.start ∧ t.Placed source ∧ t.stop ≤ hi := by
  induction l generalizing lo with
  | nil => cases ht
  | cons u rest ih =>
    obtain ⟨hlo, hu, hrest⟩ := h.uncons
    rcases List.mem_cons.mp ht with rfl | ht
    · exact ⟨hlo, hu, hrest.le⟩
    · obtain ⟨hlo', ht', hhi⟩ := ih hrest ht
      have := hu.start_le
      exact ⟨by omega, ht', hhi⟩

theorem sublist (h : PlacedIn source lo hi l) (hsub : l'.Sublist l) : PlacedIn source lo hi l' := by
  induction hsub generalizing lo with
  | slnil => exact h
  | cons u _ ih =>
    obtain ⟨hlo, hu, hrest⟩ := h.uncons
    exact ih (by
      have hskip := (nil (Nat.le_trans hlo hu.start_le)).append hrest
      rwa [List.nil_append] at hskip)
  | cons_cons u _ ih =>
    obtain ⟨hlo, hu, hrest⟩ := h.uncons
    exact cons hlo hu (ih hrest)

theorem exists_split (h : PlacedIn source lo hi (l ++ l')) :
    ∃ mid, PlacedIn source lo mid l ∧ PlacedIn source mid hi l' := by
  induction l generalizing lo with
  | nil => exact ⟨lo, nil (Nat.le_refl _), h⟩
  | cons t rest ih =>
    obtain ⟨hlo, ht, hrest⟩ := h.uncons
    obtain ⟨mid, hfirst, hsecond⟩ := ih hrest
    exact ⟨mid, cons hlo ht hfirst, hsecond⟩

/-- Two of the nodes are the same or apart. -/
theorem apart (h : PlacedIn source lo hi l) (ht : t ∈ l) (hu : u ∈ l) :
    t = u ∨ t.stop ≤ u.start ∨ u.stop ≤ t.start := by
  induction l generalizing lo with
  | nil => cases ht
  | cons v rest ih =>
    obtain ⟨-, -, hrest⟩ := h.uncons
    rcases List.mem_cons.mp ht with rfl | ht'
    · rcases List.mem_cons.mp hu with rfl | hu'
      · exact .inl rfl
      · exact .inr (.inl (hrest.bounds hu').1)
    · rcases List.mem_cons.mp hu with rfl | hu'
      · exact .inr (.inr (hrest.bounds ht').1)
      · exact ih hrest ht' hu'

/-- The nodes follow one another. -/
theorem pairwise (h : PlacedIn source lo hi l) : l.Pairwise fun t u => t.stop ≤ u.start := by
  induction l generalizing lo with
  | nil => exact .nil
  | cons t rest ih =>
    obtain ⟨-, -, hrest⟩ := h.uncons
    exact List.pairwise_cons.mpr ⟨fun u hu => (hrest.bounds hu).1, ih hrest⟩

theorem map_withRole (h : PlacedIn source lo hi l) (g : Tree → Tree)
    (hstart : ∀ t, (g t).start = t.start) (hstop : ∀ t, (g t).stop = t.stop)
    (hg : ∀ t, t.Placed source → (g t).Placed source) :
    PlacedIn source lo hi (l.map g) := by
  induction l generalizing lo with
  | nil => exact h
  | cons t rest ih =>
    obtain ⟨hlo, ht, hrest⟩ := h.uncons
    refine cons (by rwa [hstart]) (hg t ht) ?_
    rw [hstop]
    exact ih hrest

end PlacedIn

theorem occurrences_eq (above : List Tree) (t : Tree) :
    t.occurrences above = (t, above) :: occurrencesIn (t :: above) t.children := by
  cases t
  rw [occurrences]
  rfl

mutual

/-- A node spans everything below it. -/
theorem Placed.bounds_of_occurrence {above : List Tree} {o : Tree × List Tree} :
    ∀ {t : Tree}, t.Placed source → o ∈ t.occurrences above →
      t.start ≤ o.1.start ∧ o.1.Placed source ∧ o.1.stop ≤ t.stop
  | .node k r s e cs, h, ho => by
    unfold occurrences at ho
    rcases List.mem_cons.mp ho with rfl | ho
    · exact ⟨Nat.le_refl _, h, Nat.le_refl _⟩
    · obtain ⟨c, hc, hstart, hplaced, hstop⟩ := h.children.exists_of_occurrence ho
      obtain ⟨hlo, -, hhi⟩ := h.children.bounds hc
      exact ⟨Nat.le_trans hlo hstart, hplaced, Nat.le_trans hstop hhi⟩

/-- What lies below nodes lies below one of them. -/
theorem PlacedIn.exists_of_occurrence {above : List Tree} {o : Tree × List Tree} :
    ∀ {l : List Tree} {lo hi : Nat}, PlacedIn source lo hi l → o ∈ occurrencesIn above l →
      ∃ c ∈ l, c.start ≤ o.1.start ∧ o.1.Placed source ∧ o.1.stop ≤ c.stop
  | [], _, _, _, ho => by
    unfold occurrencesIn at ho
    cases ho
  | t :: rest, _, _, h, ho => by
    unfold occurrencesIn at ho
    obtain ⟨-, ht, hrest⟩ := h.uncons
    rcases List.mem_append.mp ho with ho | ho
    · exact ⟨t, by simp, ht.bounds_of_occurrence ho⟩
    · obtain ⟨c, hc, hbounds⟩ := hrest.exists_of_occurrence ho
      exact ⟨c, List.mem_cons_of_mem _ hc, hbounds⟩

end

end Tree

open Codemod.Syntax.Tree

/-! ### Blanks and comments -/

variable {source t : Bytes} {lo offset n : Nat} {blank : Bytes → Nat}

/-- What is left of a source when an offset of it is reached. -/
structure Reached (source : Bytes) (offset : Nat) (rest : Bytes) : Prop where
  rest : rest = source.drop offset
  bound : offset ≤ source.length

namespace Reached

theorem getElem? (h : Reached source offset t) (i : Nat) : source[offset + i]? = t[i]? := by
  rw [h.rest, List.getElem?_drop]

theorem drop (h : Reached source offset t) (hn : n ≤ t.length) :
    Reached source (offset + n) (t.drop n) := by
  have hlength := congrArg List.length h.rest
  rw [List.length_drop] at hlength
  have := h.bound
  refine ⟨?_, by omega⟩
  rw [← List.drop_drop, ← h.rest]

theorem tail {a : UInt8} (h : Reached source offset (a :: t)) : Reached source (offset + 1) t :=
  h.drop (by simp)

theorem append {v z : Bytes} (h : Reached source offset (v ++ z)) : Reached source (offset + v.length) z := by
  have := h.drop (n := v.length) (by simp)
  rwa [List.drop_left] at this

/-- What stands in a source where it was reached. -/
theorem slice {v z : Bytes} (h : Reached source offset (v ++ z)) : source.slice offset (offset + v.length) = v := by
  unfold Bytes.slice
  rw [List.drop_take, ← h.rest, Nat.add_sub_cancel_left, List.take_left]

end Reached

theorem startsWithLineEnd_newline (t : Bytes) : startsWithLineEnd (Bytes.newline :: t) = true := by
  rcases t with _ | ⟨b, _ | ⟨c, more⟩⟩ <;> rfl

/-- The comments found between two offsets, the last one first. -/
def CommentsIn (source : Bytes) (lo hi : Nat) (comments : List (Nat × Nat)) : Prop :=
  PlacedIn source lo hi (comments.map Reading.commentLeaf).reverse ∧
    ∀ c ∈ comments, source.LineVisible c.2

namespace CommentsIn

variable {comments : List (Nat × Nat)} {s e : Nat}

theorem nil (source : Bytes) (lo : Nat) : CommentsIn source lo lo [] :=
  ⟨PlacedIn.nil (Nat.le_refl _), by simp⟩

theorem mono (h : CommentsIn source lo s comments) (hse : s ≤ e) : CommentsIn source lo e comments :=
  ⟨h.1.mono hse, h.2⟩

theorem cons (h : CommentsIn source lo s comments) (hse : s ≤ e) (he : source.LineVisible e) :
    CommentsIn source lo e ((s, e) :: comments) := by
  refine ⟨?_, List.forall_mem_cons.mpr ⟨he, h.2⟩⟩
  rw [List.map_cons, List.reverse_cons]
  exact h.1.append (.singleton (Nat.le_refl _) (placed_leaf hse (by simp) (by simp)) (Nat.le_refl _))

end CommentsIn

/-- Comments that lie in order in the part of the source that has been passed over. -/
structure Trivia.Sound (source : Bytes) (lo : Nat) (t : Trivia) : Prop where
  reached : Reached source t.offset t.rest
  comments : CommentsIn source lo t.offset t.comments

/-- What a state of the reading of blanks and comments has to keep in mind when an offset is reached. -/
def TriviaState.Sound (source : Bytes) (lo offset : Nat) (found : List (Nat × Nat)) : TriviaState → Prop
  | .outside _ => CommentsIn source lo offset found
  | .opening before | .block before _ => before.Sound source lo ∧ before.offset ≤ offset
  | .line before => before.Sound source lo ∧ before.offset ≤ offset ∧ source.LineVisible offset

/-- Passing over blanks and comments keeps what was found in order. -/
theorem triviaFrom_sound {state : TriviaState} {found : List (Nat × Nat)}
    (hrest : Reached source offset t) (hstate : state.Sound source lo offset found) :
    (triviaFrom blank state found offset t).Sound source lo := by
  induction t generalizing state found offset with
  | nil =>
    cases state with
    | outside k => cases k <;> exact ⟨hrest, hstate⟩
    | opening before => exact hstate.1
    | line before => exact ⟨hrest, hstate.1.comments.cons hstate.2.1 hstate.2.2⟩
    | block before starred => exact hstate.1
  | cons a rest ih =>
    have hnext := hrest.tail
    have hlater : offset ≤ offset + 1 := Nat.le_succ _
    have hhere : source[offset]? = some a := hrest.getElem? 0
    -- a slash is visible, and so is the line after one
    have hslash : a = code '/' → source.LineVisible (offset + 1) := by
      rintro rfl
      exact .of_last hhere (by decide)
    cases state with
    | outside k =>
      have hfound : CommentsIn source lo (offset + 1) found := CommentsIn.mono hstate hlater
      cases k with
      | succ k => exact ih hnext hfound
      | zero =>
        unfold triviaFrom
        split
        · exact ih hnext hfound
        · split
          · exact ih hnext ⟨⟨hrest, hstate⟩, hlater⟩
          · exact ⟨hrest, hstate⟩
    | opening before =>
      have hbefore : before.offset ≤ offset + 1 := Nat.le_trans hstate.2 hlater
      unfold triviaFrom
      split
      case isTrue ha => exact ih hnext ⟨hstate.1, hbefore, hslash (by simpa using ha)⟩
      case isFalse =>
        split
        · exact ih hnext ⟨hstate.1, hbefore⟩
        · exact hstate.1
    | line before =>
      obtain ⟨hbefore, hle, hline⟩ := hstate
      have hcomment : CommentsIn source lo offset (before.comment offset) :=
        hbefore.comments.cons hle hline
      unfold triviaFrom
      split
      case isTrue =>
        split
        · exact ih hnext (hcomment.mono hlater)
        · exact ⟨hrest, hcomment⟩
      case isFalse hend =>
        refine ih hnext ⟨hbefore, Nat.le_trans hle hlater, hline.succ ?_⟩
        rw [hhere]
        rintro hnewline
        obtain rfl := Option.some.inj hnewline
        exact hend (startsWithLineEnd_newline rest)
    | block before starred =>
      have hbefore : before.offset ≤ offset + 1 := Nat.le_trans hstate.2 hlater
      unfold triviaFrom
      split
      case isTrue ha =>
        have hclosed := hslash (by simpa using (Bool.and_eq_true_iff.mp ha).2)
        exact ih hnext (hstate.1.comments.cons hbefore hclosed)
      case isFalse => exact ih hnext ⟨hstate.1, hbefore⟩

theorem trivia_sound (h : Reached source offset t) : (trivia offset t).Sound source offset :=
  triviaFrom_sound h (CommentsIn.nil source offset)

/-- Whether the text at which a state would stop begins with no blank. -/
def TriviaState.Stops (blank : Bytes → Nat) : TriviaState → Prop
  | .outside _ => True
  | .opening before | .line before | .block before _ =>
    ∀ a rest, before.rest = a :: rest → blank (a :: rest) = 0

/-- Behind the blanks and comments that were passed over stands no blank. -/
theorem triviaFrom_stops {state : TriviaState} {found : List (Nat × Nat)} (h : state.Stops blank) :
    ∀ a rest, (triviaFrom blank state found offset t).rest = a :: rest → blank (a :: rest) = 0 := by
  have houtside : ∀ k, (TriviaState.outside k).Stops blank := fun _ => trivial
  induction t generalizing state found offset with
  | nil =>
    cases state with
    | outside k => cases k <;> (intro a rest hrest; cases hrest)
    | opening before | block before starred => exact h
    | line before => intro a rest hrest; cases hrest
  | cons b more ih =>
    cases state with
    | outside k =>
      cases k with
      | succ k => exact ih (houtside k)
      | zero =>
        unfold triviaFrom
        split
        case h_1 k _ => exact ih (houtside k)
        case h_2 hblank =>
          have hhere : ∀ a rest, b :: more = a :: rest → blank (a :: rest) = 0 := by
            intro a rest heq
            rwa [← heq]
          split
          · exact ih hhere
          · exact hhere
    | opening before =>
      unfold triviaFrom
      split
      · exact ih h
      · split
        · exact ih h
        · exact h
    | line before =>
      unfold triviaFrom
      split
      · split
        case h_1 k _ => exact ih (houtside k)
        case h_2 hblank =>
          rintro _ _ hrest
          rwa [← hrest]
      · exact ih h
    | block before starred =>
      unfold triviaFrom
      split
      · exact ih (houtside 0)
      · exact ih h

theorem isBlank_of_blankLength {a : UInt8} (h : blankLength (a :: t) = 0) : Bytes.isBlank a = false := by
  by_cases ha : a < 0x80
  · unfold blankLength at h
    dsimp only at h
    rw [if_pos ha] at h
    split at h
    · cases h
    · simpa using ‹¬ Bytes.isBlank a = true›
  · unfold Bytes.isBlank
    rw [UInt8.lt_iff_toNat_lt] at ha
    simp [← UInt8.toNat_inj, UInt8.le_iff_toNat_le] at ha ⊢
    omega

/-- A lexeme does not begin with a blank. -/
theorem trivia_visible (h : Reached source offset t) : source.VisibleAt (trivia offset t).offset := by
  intro b hb
  have hhere := (trivia_sound h).reached.getElem? 0
  rw [Nat.add_zero, hb] at hhere
  obtain ⟨rest, hrest⟩ : ∃ rest, (trivia offset t).rest = b :: rest := by
    cases hrest : (trivia offset t).rest with
    | nil => rw [hrest] at hhere; cases hhere
    | cons a rest =>
      rw [hrest] at hhere
      obtain rfl := Option.some.inj hhere
      exact ⟨rest, rfl⟩
  have hstops : (TriviaState.outside 0).Stops blankLength := trivial
  exact isBlank_of_blankLength (triviaFrom_stops hstops b rest hrest)

/-! ### Comments behind a statement -/

/-- A comment lies within the text that it begins, and ends on a line that is not blank. -/
theorem commentLength?_bounds (h : commentLength? t = some n) : n ≤ t.length ∧ t.LineVisible n := by
  unfold commentLength? at h
  split at h
  case h_2 => cases h
  case h_1 a rest =>
    split at h
    case isFalse => cases h
    case isTrue =>
      have hstart : Reached (a :: rest) 0 (a :: rest) := ⟨rfl, Nat.zero_le _⟩
      have hbefore : Trivia.Sound (a :: rest) 0 ⟨[], 0, a :: rest⟩ := ⟨hstart, CommentsIn.nil _ _⟩
      have hread : (triviaFrom (fun _ => 0) (.opening ⟨[], 0, a :: rest⟩) [] 1 rest).Sound
          (a :: rest) 0 :=
        triviaFrom_sound hstart.tail ⟨hbefore, Nat.zero_le _⟩
      obtain ⟨span, hspan, rfl⟩ := Option.map_eq_some_iff.mp h
      have hmem := List.mem_of_getLast? hspan
      have hleaf := hread.comments.1.bounds (List.mem_reverse.mpr (List.mem_map_of_mem hmem))
      exact ⟨Nat.le_trans hleaf.2.2 hread.reached.bound, hread.comments.2 span hmem⟩

theorem dropBlanks_eq_drop (blank : Bytes → Nat) (n : Nat) (t : Bytes) :
    ∃ k, k ≤ t.length ∧ dropBlanks blank n t = t.drop k := by
  induction t generalizing n with
  | nil => exact ⟨0, Nat.le_refl _, by cases n <;> rfl⟩
  | cons a rest ih =>
    have hstep : ∀ m, ∃ k, k ≤ (a :: rest).length ∧ dropBlanks blank m rest = (a :: rest).drop k := by
      intro m
      obtain ⟨k, hk, hdrop⟩ := ih m
      exact ⟨k + 1, Nat.succ_le_succ hk, hdrop⟩
    cases n with
    | succ n => exact hstep n
    | zero =>
      unfold dropBlanks
      split
      · exact ⟨0, Nat.zero_le _, rfl⟩
      · exact hstep _

/-- The end of a statement without a semicolon comes after comments that lie in order. They leave its line
visible. -/
theorem statementEnd?_sound {e : Ending} {fuel : Nat} {before after : Trivia}
    (h : statementEnd? e fuel before = some after) (hbefore : before.Sound source lo) :
    after.Sound source lo ∧ (source.LineVisible before.offset → source.LineVisible after.offset) := by
  induction fuel generalizing before with
  | zero => cases h
  | succ fuel ih =>
    unfold statementEnd? at h
    split at h
    · cases h
      exact ⟨hbefore, id⟩
    · dsimp only at h
      obtain ⟨k, hk, hnext⟩ := dropBlanks_eq_drop blankLength 0 before.rest
      rw [hnext] at h
      split at h
      · cases h
      · rename_i m hm
        obtain ⟨hlength, hline⟩ := commentLength?_bounds hm
        have hreached := hbefore.reached.drop hk
        have hskipped : before.rest.length - (before.rest.drop k).length = k := by
          rw [List.length_drop]
          omega
        have hline' : source.LineVisible (before.offset + k + m) := by
          rw [hreached.rest] at hline
          exact hline.of_drop
        rw [hskipped] at h
        have hsound : Trivia.Sound source lo ⟨(before.offset + k, before.offset + k + m) :: before.comments,
            before.offset + k + m, (before.rest.drop k).drop m⟩ :=
          ⟨hreached.drop hlength, (hbefore.comments.mono (Nat.le_add_right _ _)).cons
            (Nat.le_add_right _ _) hline'⟩
        exact ⟨(ih h hsound).1, fun _ => (ih h hsound).2 hline'⟩

/-! ### Readings -/

/-- What has been built for a node that began at `lo` lies in order in the part of the source that has been
read. -/
structure Reading.Sound (source : Bytes) (lo : Nat) (s : Reading) : Prop where
  reached : Reached source s.offset s.rest
  found : PlacedIn source lo s.offset s.found.reverse

namespace Reading

variable {s done : Reading} {l : Lexeme} {k : Kind}

theorem Sound.after {t : Trivia} (h : s.Sound source lo) (ht : t.Sound source s.offset) :
    (s.after t).Sound source lo := by
  refine ⟨ht.reached, ?_⟩
  unfold Reading.after
  rw [List.reverse_append]
  exact h.found.append ht.comments.1

theorem Sound.skip (h : s.Sound source lo) : s.skip.Sound source lo :=
  h.after (trivia_sound h.reached)

theorem Sound.inner (h : s.Sound source lo) : s.inner.Sound source s.offset :=
  ⟨h.reached, PlacedIn.nil (Nat.le_refl _)⟩

/-- A lexeme lies behind everything that was read before it. -/
theorem Sound.take (h : s.Sound source lo) (hk : k = .identifier ∨ k = .string → l.isSolid = true)
    (himport : k ≠ .importStatement) (hdone : s.take l k = some done) : done.Sound source lo := by
  unfold Reading.take at hdone
  split at hdone
  · cases hdone
  · rename_i n hn
    cases hdone
    refine ⟨h.reached.drop (Lexeme.length?_le hn), ?_⟩
    rw [List.reverse_cons]
    have hsolid : k = .identifier ∨ k = .string → s.offset < s.offset + n := fun hkind =>
      Nat.lt_add_of_pos_right (Lexeme.length?_pos_of_isSolid (hk hkind) hn)
    have hleaf : (leaf k s.offset (s.offset + n)).Placed source :=
      placed_leaf (Nat.le_add_right s.offset n) hsolid himport
    exact h.found.append (.singleton (Nat.le_refl _) hleaf (Nat.le_refl _))

theorem Sound.take_lineVisible (h : s.Sound source lo) (hl : l.endsVisible = true)
    (hdone : s.take l k = some done) : source.LineVisible done.offset := by
  unfold Reading.take at hdone
  split at hdone
  · cases hdone
  · rename_i n hn
    cases hdone
    obtain ⟨i, b, rfl, hget, hb⟩ := Lexeme.length?_endsVisible hl hn
    exact .of_last ((h.reached.getElem? i).trans hget) hb

theorem Sound.close (h : s.Sound source lo) (hk : k ≠ .identifier ∧ k ≠ .string)
    (himport : k = .importStatement → source.VisibleAt s.offset ∧ source.LineVisible done.offset)
    (hdone : done.Sound source s.offset) : (s.close k done).Sound source lo := by
  refine ⟨hdone.reached, ?_⟩
  unfold Reading.close
  rw [List.reverse_cons]
  refine h.found.append (.singleton (Nat.le_refl _) ?_ (Nat.le_refl _))
  unfold Placed
  exact ⟨hdone.found.le, fun he => (he.elim hk.1 hk.2).elim, himport, hdone.found⟩

theorem Sound.closeGroup (h : s.Sound source lo) (hk : k ≠ .identifier ∧ k ≠ .string)
    (himport : k = .importStatement → source.VisibleAt s.offset ∧ source.LineVisible done.offset)
    (hdone : done.Sound source s.offset) : (s.closeGroup k done).Sound source lo := by
  unfold Reading.closeGroup
  split
  · refine ⟨hdone.reached, ?_⟩
    rw [List.reverse_append]
    exact h.found.append hdone.found
  · exact h.close hk himport hdone

theorem closeGroup_offset (s : Reading) (k : Kind) (done : Reading) :
    (s.closeGroup k done).offset = done.offset := by
  unfold closeGroup
  split <;> rfl

theorem Sound.closePart {r : Role} (h : s.Sound source lo) (hdone : done.Sound source s.offset) :
    (s.closePart r done).Sound source lo := by
  refine ⟨hdone.reached, ?_⟩
  unfold Reading.closePart
  rw [List.reverse_append, ← List.map_reverse]
  refine h.found.append (hdone.found.map_withRole _ ?_ ?_ ?_)
  · intro t
    split
    · rfl
    · cases t; rfl
  · intro t
    split
    · rfl
    · cases t; rfl
  · intro t ht
    split
    · exact ht
    · exact ht.withRole r

end Reading

namespace Pattern

variable {ρ : Type} {rules : ρ → Pattern ρ} {fuel : Nat} {around : Surroundings} {p : Pattern ρ}
  {s s' : Reading}

mutual

/-- Whether a pattern, where it succeeds, ends on a line that is not blank. -/
def endsVisible : Pattern ρ → Bool
  | token l _ | glued l _ => l.endsVisible
  | both p q => q.endsVisible || p.endsVisible && q.keepsVisible
  | either p q => p.endsVisible && q.endsVisible
  | node _ p | group _ p | part _ p | inside _ p => p.endsVisible
  | never => true
  | nothing | many _ | rule _ | ahead _ | absent _ | ending _ | amid _ | blanks | finish => false

/-- Whether a pattern does so where it begins on a line that is not blank. -/
def keepsVisible : Pattern ρ → Bool
  | token l _ | glued l _ => l.endsVisible
  | both p q => q.endsVisible || p.keepsVisible && q.keepsVisible
  | either p q => p.keepsVisible && q.keepsVisible
  | node _ p | group _ p | part _ p => p.endsVisible
  | many p | inside _ p => p.keepsVisible
  | nothing | never | ahead _ | absent _ | ending _ | amid _ | finish => true
  | rule _ | blanks => false

end

/-- Whether a pattern builds names and quoted texts of lexemes alone that are not empty, and import
statements of what ends on a line that is not blank. -/
def wellBuilt : Pattern ρ → Bool
  | token l k | glued l k => (k != .identifier && k != .string || l.isSolid) && k != .importStatement
  | both p q | either p q => p.wellBuilt && q.wellBuilt
  | many p | part _ p | ahead p | absent p | inside _ p => p.wellBuilt
  | node k p | group k p =>
    k != .identifier && k != .string && (k != .importStatement || p.endsVisible) && p.wellBuilt
  | nothing | never | rule _ | ending _ | amid _ | blanks | finish => true

/-- A reading that goes on as a pattern tells: it ends on a line that is not blank where the pattern ends, or
keeps, so. -/
structure GoesOn (source : Bytes) (p : Pattern ρ) (s s' : Reading) : Prop where
  ends : p.endsVisible = true → source.LineVisible s'.offset
  keeps : p.keepsVisible = true → source.LineVisible s.offset → source.LineVisible s'.offset

/-- A pattern that tells nothing of where it ends may still keep the end of what was read before. -/
theorem GoesOn.of_keeps (h : p.endsVisible = false)
    (hkeeps : p.keepsVisible = true → source.LineVisible s.offset → source.LineVisible s'.offset) :
    GoesOn source p s s' where
  ends hends := absurd (h.symm.trans hends) Bool.false_ne_true
  keeps := hkeeps

/-- A pattern that tells nothing of where it ends. -/
theorem GoesOn.of_neither (h : p.endsVisible = false) (h' : p.keepsVisible = false) :
    GoesOn source p s s' :=
  .of_keeps h fun hkeeps => absurd (h'.symm.trans hkeeps) Bool.false_ne_true

/-- Reading by a pattern keeps what has been read in order, and ends where the pattern tells. -/
theorem run_sound (hrules : ∀ r, (rules r).wellBuilt = true) (hp : p.wellBuilt = true)
    (hs : s.Sound source lo) (h : run rules fuel around p s = some s') :
    s'.Sound source lo ∧ GoesOn source p s s' := by
  induction fuel generalizing around p s s' lo with
  | zero => cases h
  | succ fuel ih =>
    have hleaf : ∀ {l : Lexeme} {k : Kind}, (k != .identifier && k != .string || l.isSolid) = true →
        k = .identifier ∨ k = .string → l.isSolid = true := by
      rintro l k hsolid (rfl | rfl)
      · exact hsolid
      · exact hsolid
    unfold run at h
    cases p with
    | nothing => cases h; exact ⟨hs, .of_keeps rfl fun _ => id⟩
    | never => cases h
    | token l k =>
      obtain ⟨hsolid, himport⟩ := Bool.and_eq_true_iff.mp hp
      have hline := fun hl => hs.skip.take_lineVisible hl h
      exact ⟨hs.skip.take (hleaf hsolid) (by simpa using himport) h, hline, fun hl _ => hline hl⟩
    | glued l k =>
      obtain ⟨hsolid, himport⟩ := Bool.and_eq_true_iff.mp hp
      have hline := fun hl => hs.take_lineVisible hl h
      exact ⟨hs.take (hleaf hsolid) (by simpa using himport) h, hline, fun hl _ => hline hl⟩
    | both p q =>
      obtain ⟨hp, hq⟩ := Bool.and_eq_true_iff.mp hp
      dsimp only at h
      split at h
      · cases h
      · rename_i middle hmiddle
        obtain ⟨hfirst, hgoes⟩ := ih hp hs hmiddle
        obtain ⟨hsecond, hgoes'⟩ := ih hq hfirst h
        refine ⟨hsecond, fun hends => ?_, fun hkeeps hline => ?_⟩
        · unfold endsVisible at hends
          rcases Bool.or_eq_true_iff.mp hends with hends | hends
          · exact hgoes'.ends hends
          · obtain ⟨hends, hkeeps⟩ := Bool.and_eq_true_iff.mp hends
            exact hgoes'.keeps hkeeps (hgoes.ends hends)
        · unfold keepsVisible at hkeeps
          rcases Bool.or_eq_true_iff.mp hkeeps with hends | hkeeps
          · exact hgoes'.ends hends
          · obtain ⟨hkeeps, hkeeps'⟩ := Bool.and_eq_true_iff.mp hkeeps
            exact hgoes'.keeps hkeeps' (hgoes.keeps hkeeps hline)
    | either p q =>
      obtain ⟨hp, hq⟩ := Bool.and_eq_true_iff.mp hp
      dsimp only at h
      split at h
      · obtain ⟨hdone, hgoes⟩ := ih hq hs h
        refine ⟨hdone, fun hends => ?_, fun hkeeps => ?_⟩
        · unfold endsVisible at hends
          exact hgoes.ends (Bool.and_eq_true_iff.mp hends).2
        · unfold keepsVisible at hkeeps
          exact hgoes.keeps (Bool.and_eq_true_iff.mp hkeeps).2
      · cases h
        obtain ⟨hdone, hgoes⟩ := ih hp hs ‹_›
        refine ⟨hdone, fun hends => ?_, fun hkeeps => ?_⟩
        · unfold endsVisible at hends
          exact hgoes.ends (Bool.and_eq_true_iff.mp hends).1
        · unfold keepsVisible at hkeeps
          exact hgoes.keeps (Bool.and_eq_true_iff.mp hkeeps).1
    | many p =>
      dsimp only at h
      split at h
      · cases h; exact ⟨hs, .of_keeps rfl fun _ => id⟩
      · rename_i middle hmiddle
        obtain ⟨hfirst, hgoes⟩ := ih (p := p) hp hs hmiddle
        split at h
        · cases h; exact ⟨hfirst, .of_keeps rfl hgoes.keeps⟩
        · obtain ⟨hdone, hgoes'⟩ := ih (p := many p) hp hfirst h
          exact ⟨hdone, .of_keeps rfl fun hkeeps hline =>
            hgoes'.keeps hkeeps (hgoes.keeps hkeeps hline)⟩
    | node k p =>
      simp only [wellBuilt, Bool.and_eq_true, bne_iff_ne, Bool.or_eq_true] at hp
      obtain ⟨⟨hk, himport⟩, hp⟩ := hp
      obtain ⟨done, hdone, rfl⟩ := Option.map_eq_some_iff.mp h
      obtain ⟨hbuilt, hgoes⟩ := ih hp hs.skip.inner hdone
      refine ⟨hs.skip.close hk (fun hkind => ?_) hbuilt, hgoes.ends, fun hends _ => hgoes.ends hends⟩
      exact ⟨trivia_visible hs.reached, hgoes.ends (himport.resolve_left fun hne => hne hkind)⟩
    | group k p =>
      simp only [wellBuilt, Bool.and_eq_true, bne_iff_ne, Bool.or_eq_true] at hp
      obtain ⟨⟨hk, himport⟩, hp⟩ := hp
      obtain ⟨done, hdone, rfl⟩ := Option.map_eq_some_iff.mp h
      obtain ⟨hbuilt, hgoes⟩ := ih hp hs.skip.inner hdone
      have hends : p.endsVisible = true → source.LineVisible (s.skip.closeGroup k done).offset := by
        rw [Reading.closeGroup_offset]
        exact hgoes.ends
      refine ⟨hs.skip.closeGroup hk (fun hkind => ?_) hbuilt, hends, fun h _ => hends h⟩
      exact ⟨trivia_visible hs.reached, hgoes.ends (himport.resolve_left fun hne => hne hkind)⟩
    | part r p =>
      obtain ⟨done, hdone, rfl⟩ := Option.map_eq_some_iff.mp h
      obtain ⟨hbuilt, hgoes⟩ := ih (p := p) hp hs.skip.inner hdone
      exact ⟨hs.skip.closePart hbuilt, hgoes.ends, fun hends _ => hgoes.ends hends⟩
    | rule r =>
      obtain ⟨hdone, -⟩ := ih (hrules r) hs h
      exact ⟨hdone, .of_neither rfl rfl⟩
    | ahead p =>
      obtain ⟨_, -, rfl⟩ := Option.map_eq_some_iff.mp h
      exact ⟨hs, .of_keeps rfl fun _ => id⟩
    | absent p =>
      dsimp only at h
      split at h
      · cases h; exact ⟨hs, .of_keeps rfl fun _ => id⟩
      · cases h
    | ending e =>
      obtain ⟨t, ht, rfl⟩ := Option.map_eq_some_iff.mp h
      obtain ⟨hsound, hline⟩ := statementEnd?_sound ht ⟨hs.reached, CommentsIn.nil _ _⟩
      exact ⟨hs.after hsound, .of_keeps rfl fun _ => hline⟩
    | inside around' p =>
      obtain ⟨hdone, hgoes⟩ := ih (p := p) hp hs h
      exact ⟨hdone, hgoes.ends, hgoes.keeps⟩
    | amid around' =>
      dsimp only at h
      split at h
      · cases h; exact ⟨hs, .of_keeps rfl fun _ => id⟩
      · cases h
    | blanks => cases h; exact ⟨hs.skip, .of_neither rfl rfl⟩
    | finish =>
      dsimp only at h
      split at h
      · cases h; exact ⟨hs, .of_keeps rfl fun _ => id⟩
      · cases h

end Pattern

/-! ### Whole sources -/

theorem Grammar.rules_wellBuilt (d : Dialect) (r : Rule) : (Grammar.rules d r).wellBuilt = true := by
  cases d <;> cases r <;> decide +kernel

theorem Grammar.program_wellBuilt : Grammar.program.wellBuilt = true := by
  decide +kernel

theorem readProgram_sound (d : Dialect) (source : Bytes) : (readProgram d source).Sound source 0 := by
  have hstart : Reading.Sound source 0 ⟨0, source, []⟩ :=
    ⟨⟨rfl, Nat.zero_le _⟩, PlacedIn.nil (Nat.le_refl _)⟩
  unfold readProgram
  dsimp only
  cases hrun : Pattern.run (Grammar.rules d) (stepsPerByte * (source.length + 1)) .statement
      Grammar.program ⟨0, source, []⟩ with
  | none => exact hstart
  | some r =>
    exact (Pattern.run_sound (Grammar.rules_wellBuilt d) Grammar.program_wellBuilt hstart hrun).1

/-- The nodes of a tree lie in order, each within the one that holds it. -/
theorem parse_placed (d : Dialect) (source : Bytes) : (parse d source).Placed source := by
  have hread := readProgram_sound d source
  unfold parse Placed
  refine ⟨Nat.zero_le _, by simp, by simp, hread.found.append ?_⟩
  split
  · exact PlacedIn.nil hread.reached.bound
  · have hleaf : (leaf .unread (readProgram d source).offset source.length).Placed source :=
      placed_leaf hread.reached.bound (by simp) (by simp)
    exact .singleton (Nat.le_refl _) hleaf (Nat.le_refl _)

end Codemod.Syntax
