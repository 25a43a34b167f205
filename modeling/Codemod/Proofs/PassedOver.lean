import Codemod.Proofs.Gaps

/-!
# What is passed over

Blanks and comments are passed over one by one. A run of them that has come to an end, the last comment closed by its
line end or its mark, is passed over before every text. So a text can be cut where such a run ends, and also at the
beginning of a line within it if only blanks follow there.

Main statements:

* `trivia_induction` takes the blanks and comments at the beginning of a text one by one;
* `Passed.rest` says that what is passed over once is passed over before every text;
* `exists_passed` and `exists_passed_before_comment` say which beginnings of a text are passed over;
* `Passed.before_blanks` cuts such a beginning where a line begins.
-/

namespace Codemod.Syntax

variable {t v w x y z : Bytes} {found found' : List (Nat × Nat)} {offset offset' k : Nat}

/-! ### Single blanks and comments -/

/-- A text from its next line end on. -/
def fromLineEnd : Bytes → Bytes
  | [] => []
  | a :: rest => if startsWithLineEnd (a :: rest) then a :: rest else fromLineEnd rest

/-- A text behind the mark that closes a comment; `starred` tells whether the byte before was an asterisk. -/
def behindBlock? : Bool → Bytes → Option Bytes
  | _, [] => none
  | starred, a :: rest => if starred && a == code '/' then some rest else behindBlock? (a == code '*') rest

/-- A text behind the comment that it begins with. A comment that ends with its line leaves the line end. -/
def behindComment? : Bytes → Option Bytes
  | a :: b :: rest =>
    if a != code '/' then none
    else if b == code '/' then some (fromLineEnd rest)
    else if b == code '*' then behindBlock? false rest
    else none
  | _ => none

theorem fromLineEnd_cases (t : Bytes) : fromLineEnd t = [] ∨ startsWithLineEnd (fromLineEnd t) = true := by
  induction t with
  | nil => exact .inl rfl
  | cons a rest ih =>
    unfold fromLineEnd
    split
    · exact .inr ‹_›
    · exact ih

theorem fromLineEnd_suffix (t : Bytes) : fromLineEnd t <:+ t := by
  induction t with
  | nil => exact List.suffix_rfl
  | cons a rest ih =>
    unfold fromLineEnd
    split
    · exact List.suffix_rfl
    · exact ih.trans (List.suffix_cons a rest)

/-- A comment that is closed is closed by its own bytes. -/
theorem exists_block {starred : Bool} (h : behindBlock? starred t = some z) :
    ∃ v, t = v ++ z ∧ ∀ y, behindBlock? starred (v ++ y) = some y := by
  induction t generalizing starred with
  | nil => cases h
  | cons a rest ih =>
    unfold behindBlock? at h
    split at h
    · rename_i hclosed
      cases h
      refine ⟨[a], rfl, fun y => ?_⟩
      rw [List.singleton_append, behindBlock?, if_pos hclosed]
    · rename_i hopen
      obtain ⟨v, rfl, hv⟩ := ih h
      refine ⟨a :: v, rfl, fun y => ?_⟩
      rw [List.cons_append, behindBlock?, if_neg hopen, hv]

/-- A comment is opened by two marks. -/
theorem behindComment?_eq_some : behindComment? t = some z ↔
    (∃ rest, t = code '/' :: code '/' :: rest ∧ fromLineEnd rest = z) ∨
      ∃ rest, t = code '/' :: code '*' :: rest ∧ behindBlock? false rest = some z := by
  constructor
  · intro h
    unfold behindComment? at h
    split at h
    · rename_i a b rest
      by_cases ha : a = code '/'
      · by_cases hb : b = code '/'
        · subst ha hb
          exact .inl ⟨rest, rfl, Option.some.inj h⟩
        · by_cases hb' : b = code '*'
          · subst ha hb'
            exact .inr ⟨rest, rfl, h⟩
          · simp [ha, hb, hb'] at h
      · simp [ha] at h
    · cases h
  · rintro (⟨rest, rfl, rfl⟩ | ⟨rest, rfl, h⟩)
    · rfl
    · exact h

theorem blankLength_le (t : Bytes) : blankLength t ≤ t.length := by
  rcases t with _ | ⟨a, rest⟩
  · exact Nat.le_refl 0
  by_cases ha : a < 0x80
  · rw [blankLength_ascii ha]
    split <;> simp
  by_cases hc : a = 0xC2
  · rcases rest with _ | ⟨b, rest⟩
    · simp [blankLength, ha]
    · rw [blankLength_two ha hc]
      split <;> simp
  · rcases blankLength_three ha hc rest with h | ⟨h, hlength⟩
    · simp [h]
    · rw [h, List.length_cons]
      omega

/-- The bytes of a blank decide that it is one. -/
theorem exists_blank (h : blankLength t = k + 1) :
    ∃ v z, t = v ++ z ∧ v ≠ [] ∧ ∀ y, blankLength (v ++ y) = v.length := by
  have hlength : (t.take (k + 1)).length = k + 1 := by
    have := blankLength_le t
    rw [List.length_take]
    omega
  have hsplit : blankLength (t.take (k + 1) ++ t.drop (k + 1)) = k + 1 := by rwa [List.take_append_drop]
  refine ⟨t.take (k + 1), t.drop (k + 1), (List.take_append_drop ..).symm, ?_, fun y => ?_⟩
  · exact List.ne_nil_of_length_pos (by omega)
  · rw [hlength]
    exact blankLength_append hsplit (by omega)

/-- A blank that is a line end begins with no byte that another line end could go on with. -/
theorem startsWithLineEnd_first (h : startsWithLineEnd (w ++ z) = true) (hw : w ≠ []) :
    ∃ a rest, w = a :: rest ∧ a ≠ 0x80 ∧ a ≠ 0xA8 ∧ a ≠ 0xA9 := by
  obtain ⟨a, rest, rfl⟩ := List.exists_cons_of_ne_nil hw
  refine ⟨a, rest, rfl, ?_⟩
  rcases startsWithLineEnd_eq_true h with rfl | rfl | ⟨rfl, -⟩ <;> decide

/-- The line end at which a comment ends is that at which it ends before every text. -/
theorem fromLineEnd_append (hend : startsWithLineEnd (w ++ z) = true) (hw : w ≠ [])
    (hblank : ∀ y, blankLength (w ++ y) = w.length) (h : fromLineEnd (v ++ (w ++ z)) = w ++ z) (y : Bytes) :
    fromLineEnd (v ++ (w ++ y)) = w ++ y := by
  obtain ⟨first, more, hfirst, h80, hA8, hA9⟩ := startsWithLineEnd_first hend hw
  induction v with
  | nil =>
    have hend' : startsWithLineEnd (w ++ y) = true :=
      startsWithLineEnd_append hend (Nat.le_of_eq (hblank z))
    rw [hfirst, List.cons_append] at hend'
    rw [List.nil_append, hfirst, List.cons_append, fromLineEnd, if_pos hend']
  | cons a v ih =>
    rw [List.cons_append] at h ⊢
    unfold fromLineEnd at h ⊢
    split at h
    · have hlength := congrArg List.length h
      simp only [List.length_cons, List.length_append] at hlength
      omega
    · rename_i hopen
      have hopen' : ¬ startsWithLineEnd (a :: (v ++ (w ++ y))) = true := by
        intro hclosed
        rcases startsWithLineEnd_eq_true hclosed with ha | ha | ⟨rfl, c, rest, hrest, hc⟩
        · exact hopen (startsWithLineEnd_of_first (.inl ha) _)
        · exact hopen (startsWithLineEnd_of_first (.inr ha) _)
        · -- A line end of three bytes that began here would have to go on in the line end itself.
          rcases v with _ | ⟨b, _ | ⟨d, v⟩⟩
          · rw [List.nil_append, hfirst, List.cons_append] at hrest
            exact h80 (List.cons.inj hrest).1
          · rw [List.cons_append, List.nil_append, hfirst, List.cons_append] at hrest
            obtain ⟨-, hrest⟩ := List.cons.inj hrest
            obtain ⟨rfl, -⟩ := List.cons.inj hrest
            exact hc.elim hA8 hA9
          · rw [List.cons_append, List.cons_append] at hrest
            obtain ⟨hb, hmore⟩ := List.cons.inj hrest
            obtain ⟨hd, -⟩ := List.cons.inj hmore
            subst hb hd
            refine hopen ?_
            rcases hc with rfl | rfl <;> rfl
      rw [if_neg hopen']
      exact ih h

/-- A comment at the beginning of a text is closed by its own bytes, or by the line end that follows it. -/
theorem exists_comment (h : behindComment? t = some z) (hz : z ≠ []) :
    (∃ v, t = v ++ z ∧ v ≠ [] ∧ ∀ y, behindComment? (v ++ y) = some y) ∨
      ∃ v w u, t = v ++ (w ++ u) ∧ z = w ++ u ∧ v ≠ [] ∧ w ≠ [] ∧ startsWithLineEnd (w ++ u) = true ∧
        (∀ y, blankLength (w ++ y) = w.length) ∧ ∀ y, behindComment? (v ++ (w ++ y)) = some (w ++ y) := by
  rcases behindComment?_eq_some.mp h with ⟨rest, rfl, rfl⟩ | ⟨rest, rfl, hblock⟩
  · have hend := (fromLineEnd_cases rest).resolve_left hz
    obtain ⟨k, hk⟩ := Nat.exists_eq_succ_of_ne_zero (blankLength_of_lineEnd hend)
    obtain ⟨w, u, hsplit, hw, hblank⟩ := exists_blank hk
    obtain ⟨v, hv⟩ := fromLineEnd_suffix rest
    rw [hsplit] at hend hv
    have hself : fromLineEnd (v ++ (w ++ u)) = w ++ u := by rw [hv, hsplit]
    refine .inr ⟨code '/' :: code '/' :: v, w, u, by simp [← hv], hsplit, by simp, hw, hend, hblank, fun y => ?_⟩
    exact behindComment?_eq_some.mpr (.inl ⟨_, rfl, fromLineEnd_append hend hw hblank hself y⟩)
  · obtain ⟨v, rfl, hv⟩ := exists_block hblock
    exact .inl ⟨code '/' :: code '*' :: v, rfl, by simp, fun y => behindComment?_eq_some.mpr (.inr ⟨_, rfl, hv y⟩)⟩

/-! ### One after another -/

theorem triviaFrom_outside (t : Bytes) : triviaFrom blankLength (.outside k) found offset t =
    triviaFrom blankLength (.outside 0) found (offset + min k t.length) (t.drop k) := by
  induction t generalizing k offset with
  | nil => cases k <;> simp [triviaFrom]
  | cons a rest ih =>
    cases k with
    | zero => simp
    | succ k =>
      rw [triviaFrom, ih, List.drop_succ_cons, List.length_cons, Nat.add_min_add_right, Nat.add_right_comm,
        Nat.add_assoc]

theorem triviaFrom_line (before : Trivia) (t : Bytes) :
    triviaFrom blankLength (.line before) found offset t =
      triviaFrom blankLength (.outside 0) (before.comment (offset + (t.length - (fromLineEnd t).length)))
        (offset + (t.length - (fromLineEnd t).length)) (fromLineEnd t) := by
  induction t generalizing offset with
  | nil => rfl
  | cons a rest ih =>
    by_cases hend : startsWithLineEnd (a :: rest) = true
    · have hself : fromLineEnd (a :: rest) = a :: rest := by
        unfold fromLineEnd
        rw [if_pos hend]
      obtain ⟨k, hk⟩ := Nat.exists_eq_succ_of_ne_zero (blankLength_of_lineEnd hend)
      have hline : triviaFrom blankLength (.line before) found offset (a :: rest) =
          triviaFrom blankLength (.outside k) (before.comment offset) (offset + 1) rest := by
        rw [triviaFrom, if_pos hend, hk]
      have houtside : triviaFrom blankLength (.outside 0) (before.comment offset) offset (a :: rest) =
          triviaFrom blankLength (.outside k) (before.comment offset) (offset + 1) rest := by
        rw [triviaFrom, hk]
      rw [hself, Nat.sub_self, Nat.add_zero, hline, houtside]
    · have hmore : fromLineEnd (a :: rest) = fromLineEnd rest := by
        conv => lhs; unfold fromLineEnd
        rw [if_neg hend]
      have hle := (fromLineEnd_suffix rest).length_le
      have hoffset : offset + ((a :: rest).length - (fromLineEnd rest).length) =
          offset + 1 + (rest.length - (fromLineEnd rest).length) := by
        rw [List.length_cons]
        omega
      rw [hmore, hoffset, triviaFrom, if_neg hend, ih]

theorem triviaFrom_block (before : Trivia) (starred : Bool) (t : Bytes) :
    triviaFrom blankLength (.block before starred) found offset t =
      (behindBlock? starred t).elim before fun z =>
        triviaFrom blankLength (.outside 0) (before.comment (offset + (t.length - z.length)))
          (offset + (t.length - z.length)) z := by
  induction t generalizing starred offset with
  | nil => rfl
  | cons a rest ih =>
    rw [triviaFrom, behindBlock?]
    split
    · rw [Option.elim_some, List.length_cons, Nat.add_sub_cancel_left]
    · rw [ih]
      cases hz : behindBlock? (a == code '*') rest with
      | none => rfl
      | some z =>
        obtain ⟨v, rfl, -⟩ := exists_block hz
        have hoffset : offset + 1 + ((v ++ z).length - z.length) = offset + ((a :: (v ++ z)).length - z.length) := by
          simp only [List.length_cons, List.length_append]
          omega
        rw [Option.elim_some, Option.elim_some, hoffset]

/-! ### The three steps -/

/-- A blank is passed over. -/
theorem triviaFrom_blank (hv : v ≠ []) (h : ∀ y, blankLength (v ++ y) = v.length) (z : Bytes) :
    triviaFrom blankLength (.outside 0) found offset (v ++ z) =
      triviaFrom blankLength (.outside 0) found (offset + v.length) z := by
  obtain ⟨a, rest, rfl⟩ := List.exists_cons_of_ne_nil hv
  have hz := h z
  rw [List.cons_append] at hz ⊢
  rw [triviaFrom, hz, List.length_cons]
  dsimp only
  rw [triviaFrom_outside, List.drop_left, List.length_append, Nat.min_eq_left (Nat.le_add_right ..),
    Nat.add_assoc, Nat.add_comm 1]

/-- A comment is passed over, and reported. -/
theorem triviaFrom_comment (h : behindComment? t = some z) :
    triviaFrom blankLength (.outside 0) found offset t =
      triviaFrom blankLength (.outside 0) ((offset, offset + (t.length - z.length)) :: found)
        (offset + (t.length - z.length)) z := by
  -- Two marks open the comment.
  have hopening : ∀ {b : UInt8} {rest : Bytes}, triviaFrom blankLength (.outside 0) found offset (code '/' :: b :: rest) =
      triviaFrom blankLength (.opening ⟨found, offset, code '/' :: b :: rest⟩) found (offset + 1) (b :: rest) := by
    intro b rest
    have hslash : blankLength (code '/' :: b :: rest) = 0 := rfl
    rw [triviaFrom, hslash]
    rfl
  rcases behindComment?_eq_some.mp h with ⟨rest, rfl, rfl⟩ | ⟨rest, rfl, hblock⟩
  · have hle := (fromLineEnd_suffix rest).length_le
    have hoffset : offset + 1 + 1 + (rest.length - (fromLineEnd rest).length) =
        offset + ((code '/' :: code '/' :: rest).length - (fromLineEnd rest).length) := by
      simp only [List.length_cons]
      omega
    rw [hopening, triviaFrom, if_pos (by decide), triviaFrom_line, hoffset]
    rfl
  · obtain ⟨v, rfl, -⟩ := exists_block hblock
    have hoffset : offset + 1 + 1 + ((v ++ z).length - z.length) =
        offset + ((code '/' :: code '*' :: (v ++ z)).length - z.length) := by
      simp only [List.length_cons, List.length_append]
      omega
    rw [hopening, triviaFrom, if_neg (by decide), if_pos (by decide), triviaFrom_block, hblock, Option.elim_some,
      hoffset]
    rfl

/-- Where neither begins, nothing is passed over. -/
theorem triviaFrom_stop (hblank : blankLength t = 0) (hcomment : behindComment? t = none) :
    triviaFrom blankLength (.outside 0) found offset t = ⟨found, offset, t⟩ := by
  rcases t with _ | ⟨a, rest⟩
  · rfl
  rw [triviaFrom, hblank]
  dsimp only
  split
  · rename_i ha
    rcases rest with _ | ⟨b, rest⟩
    · rfl
    rw [behindComment?, if_neg (by simpa using ha)] at hcomment
    rw [triviaFrom]
    split at hcomment
    · cases hcomment
    · rename_i hb
      rw [if_neg hb]
      split at hcomment
      · rename_i hb'
        rw [if_pos hb', triviaFrom_block, hcomment]
        rfl
      · rename_i hb'
        rw [if_neg hb']
  · rfl

/-- What is passed over is a row of blanks and of comments, each of which is closed by a mark or by a line end. Behind
the last one there may be a comment that the text ends. -/
theorem trivia_induction {motive : Bytes → Prop}
    (stop : ∀ t, blankLength t = 0 → behindComment? t = none → motive t)
    (last : ∀ t, behindComment? t = some [] → motive t)
    (blank : ∀ v z, v ≠ [] → (∀ y, blankLength (v ++ y) = v.length) → motive z → motive (v ++ z))
    (comment : ∀ v z, v ≠ [] → (∀ y, behindComment? (v ++ y) = some y) → motive z → motive (v ++ z))
    (line : ∀ v w z, w ≠ [] → startsWithLineEnd (w ++ z) = true → (∀ y, blankLength (w ++ y) = w.length) →
      (∀ y, behindComment? (v ++ (w ++ y)) = some (w ++ y)) → motive z → motive (v ++ (w ++ z))) (t : Bytes) :
    motive t := by
  induction hn : t.length using Nat.strongRecOn generalizing t with
  | ind n ih =>
    subst hn
    have hshorter : ∀ {v z : Bytes}, v ≠ [] → t = v ++ z → motive z := by
      rintro v z hv rfl
      have hpos := List.length_pos_iff.mpr hv
      exact ih z.length (by rw [List.length_append]; omega) z rfl
    cases hblank : blankLength t with
    | succ k =>
      obtain ⟨v, z, rfl, hv, hall⟩ := exists_blank hblank
      exact blank v z hv hall (hshorter hv rfl)
    | zero =>
      cases hcomment : behindComment? t with
      | none => exact stop t hblank hcomment
      | some u =>
        cases u with
        | nil => exact last t hcomment
        | cons c more =>
          rcases exists_comment hcomment (List.cons_ne_nil c more) with
            ⟨v, rfl, hv, hall⟩ | ⟨v, w, z, rfl, -, hv, hw, hend, hone, hall⟩
          · exact comment v _ hv hall (hshorter hv rfl)
          · refine line v w z hw hend hone hall (hshorter (v := v ++ w) (by simp [hv]) ?_)
            rw [List.append_assoc]

/-- What is passed over does not depend on what was passed over before, nor on where the text lies. -/
theorem triviaFrom_rest (t : Bytes) : (triviaFrom blankLength (.outside 0) found offset t).rest =
    (triviaFrom blankLength (.outside 0) found' offset' t).rest := by
  induction t using trivia_induction generalizing found found' offset offset' with
  | stop t hblank hcomment => rw [triviaFrom_stop hblank hcomment, triviaFrom_stop hblank hcomment]
  | last t h => rw [triviaFrom_comment h, triviaFrom_comment h]; rfl
  | blank v z hv h ih => rw [triviaFrom_blank hv h, triviaFrom_blank hv h]; exact ih
  | comment v z hv h ih => rw [triviaFrom_comment (h z), triviaFrom_comment (h z)]; exact ih
  | line v w z hw hend hblank h ih =>
    rw [triviaFrom_comment (h z), triviaFrom_comment (h z), triviaFrom_blank hw hblank, triviaFrom_blank hw hblank]
    exact ih

/-! ### Runs that have come to an end -/

/-- Blanks and comments that are all closed. -/
inductive Passed : Bytes → Prop
  | nil : Passed []
  | blank {v x : Bytes} (hv : v ≠ []) (h : ∀ y, blankLength (v ++ y) = v.length) (hx : Passed x) : Passed (v ++ x)
  | comment {v x : Bytes} (h : ∀ y, behindComment? (v ++ y) = some y) (hx : Passed x) : Passed (v ++ x)
  | line {v w x : Bytes} (hw : w ≠ []) (hblank : ∀ y, blankLength (w ++ y) = w.length)
      (h : ∀ y, behindComment? (v ++ (w ++ y)) = some (w ++ y)) (hx : Passed x) : Passed (v ++ (w ++ x))

/-- They are passed over before every text. -/
theorem Passed.rest (h : Passed x) (offset offset' : Nat) (y : Bytes) :
    (trivia offset (x ++ y)).rest = (trivia offset' y).rest := by
  unfold trivia
  induction h generalizing offset with
  | nil => exact triviaFrom_rest y
  | blank hv h _ ih => rw [List.append_assoc, triviaFrom_blank hv h, ih]
  | comment h _ ih =>
    rw [List.append_assoc, triviaFrom_comment (h _)]
    exact (triviaFrom_rest _).trans (ih offset)
  | line hw hblank h _ ih =>
    rw [List.append_assoc, List.append_assoc, triviaFrom_comment (h _), triviaFrom_blank hw hblank]
    exact (triviaFrom_rest _).trans (ih offset)

/-- What stands before the place where the passing over stops is passed over, unless the text has ended. -/
theorem exists_passed (h : (trivia offset t).rest ≠ []) : ∃ x, Passed x ∧ t = x ++ (trivia offset t).rest := by
  unfold trivia at h ⊢
  induction t using trivia_induction generalizing offset with
  | stop t hblank hcomment =>
    rw [triviaFrom_stop hblank hcomment]
    exact ⟨[], .nil, rfl⟩
  | last t hlast =>
    rw [triviaFrom_comment hlast] at h
    exact absurd rfl h
  | blank v z hv hall ih =>
    rw [triviaFrom_blank hv hall] at h ⊢
    obtain ⟨x, hx, hz⟩ := ih h
    exact ⟨v ++ x, .blank hv hall hx, by rw [List.append_assoc, ← hz]⟩
  | comment v z hv hall ih =>
    rw [triviaFrom_comment (hall z)] at h ⊢
    obtain ⟨x, hx, hz⟩ := @ih offset (by rwa [triviaFrom_rest])
    exact ⟨v ++ x, .comment hall hx, by rw [List.append_assoc, triviaFrom_rest, ← hz]⟩
  | line v w z hw hend hblank hall ih =>
    rw [triviaFrom_comment (hall z), triviaFrom_blank hw hblank] at h ⊢
    obtain ⟨x, hx, hz⟩ := @ih offset (by rwa [triviaFrom_rest])
    exact ⟨v ++ (w ++ x), .line hw hblank hall hx, by rw [List.append_assoc, List.append_assoc, triviaFrom_rest, ← hz]⟩

/-- What stands before a comment that is passed over is passed over too. -/
theorem exists_passed_before_comment {span : Nat × Nat} (h : span ∈ (trivia offset t).comments) :
    ∃ x z, Passed x ∧ t = x ++ z ∧ span.1 = offset + x.length := by
  have hall : ∀ found offset, span ∈ (triviaFrom blankLength (.outside 0) found offset t).comments →
      span ∈ found ∨ ∃ x z, Passed x ∧ t = x ++ z ∧ span.1 = offset + x.length := by
    clear h
    induction t using trivia_induction with
    | stop t hblank hcomment =>
      intro found offset h
      rw [triviaFrom_stop hblank hcomment] at h
      exact .inl h
    | last t hlast =>
      intro found offset h
      rw [triviaFrom_comment hlast] at h
      refine (List.mem_cons.mp h).symm.imp_right ?_
      rintro rfl
      exact ⟨[], t, .nil, rfl, rfl⟩
    | blank v z hv hall ih =>
      intro found offset h
      rw [triviaFrom_blank hv hall] at h
      refine (ih _ _ h).imp_right ?_
      rintro ⟨x, u, hx, rfl, hspan⟩
      exact ⟨v ++ x, u, .blank hv hall hx, by rw [List.append_assoc], by rw [hspan, List.length_append, Nat.add_assoc]⟩
    | comment v z hv hall ih =>
      intro found offset h
      rw [triviaFrom_comment (hall z), List.length_append, Nat.add_sub_cancel] at h
      rcases ih _ _ h with h | ⟨x, u, hx, rfl, hspan⟩
      · refine (List.mem_cons.mp h).symm.imp_right ?_
        rintro rfl
        exact ⟨[], _, .nil, rfl, rfl⟩
      · exact .inr ⟨v ++ x, u, .comment hall hx, by rw [List.append_assoc],
          by rw [hspan, List.length_append, Nat.add_assoc]⟩
    | line v w z hw hend hblank hall ih =>
      intro found offset h
      rw [triviaFrom_comment (hall z), triviaFrom_blank hw hblank, List.length_append, Nat.add_sub_cancel] at h
      rcases ih _ _ h with h | ⟨x, u, hx, rfl, hspan⟩
      · refine (List.mem_cons.mp h).symm.imp_right ?_
        rintro rfl
        exact ⟨[], _, .nil, rfl, rfl⟩
      · exact .inr ⟨v ++ (w ++ x), u, .line hw hblank hall hx, by simp only [List.append_assoc],
          by simp only [hspan, List.length_append, Nat.add_assoc]⟩
  exact (hall [] offset h).resolve_left List.not_mem_nil

/-! ### Cuts at line ends -/

theorem exists_slash {starred : Bool} (h : behindBlock? starred t = some z) : ∃ u, t = u ++ code '/' :: z := by
  induction t generalizing starred with
  | nil => cases h
  | cons a rest ih =>
    unfold behindBlock? at h
    split at h
    · rename_i hclosed
      cases h
      exact ⟨[], congrArg (· :: _) (beq_iff_eq.mp (Bool.and_eq_true_iff.mp hclosed).2)⟩
    · obtain ⟨u, rfl⟩ := ih h
      exact ⟨a :: u, rfl⟩

theorem newline_not_mem_of_fromLineEnd (h : fromLineEnd (v ++ z) = z) : Bytes.newline ∉ v := by
  induction v with
  | nil => exact List.not_mem_nil
  | cons a v ih =>
    rw [List.cons_append] at h
    unfold fromLineEnd at h
    split at h
    · have hlength := congrArg List.length h
      simp only [List.length_cons, List.length_append] at hlength
      omega
    · rename_i hopen
      refine List.not_mem_cons_of_ne_of_not_mem ?_ (ih h)
      rintro rfl
      exact hopen (startsWithLineEnd_of_first (.inl rfl) _)

/-- A comment ends with a mark, or it holds no line feed. -/
theorem comment_ends (h : behindComment? (v ++ z) = some z) : (∃ u, v = u ++ [code '/']) ∨ Bytes.newline ∉ v := by
  rcases behindComment?_eq_some.mp h with ⟨rest, hv, hrest⟩ | ⟨rest, hv, hblock⟩
  · obtain ⟨u, hu⟩ := fromLineEnd_suffix rest
    rw [hrest] at hu
    subst hu
    obtain rfl : v = code '/' :: code '/' :: u := List.append_cancel_right hv
    have hline := newline_not_mem_of_fromLineEnd hrest
    exact .inr (List.not_mem_cons_of_ne_of_not_mem (by decide) (List.not_mem_cons_of_ne_of_not_mem (by decide) hline))
  · obtain ⟨u, rfl⟩ := exists_slash hblock
    refine .inl ⟨code '/' :: code '*' :: u, List.append_cancel_right (hv.trans ?_)⟩
    rw [List.append_assoc]
    rfl

/-- No line feed stands in a blank, unless at its end. -/
theorem getLast?_ne_newline (h : blankLength (v ++ w) = (v ++ w).length) (hw : w ≠ []) :
    v.getLast? ≠ some Bytes.newline := by
  have hpos := List.length_pos_iff.mpr hw
  rcases v with _ | ⟨a, _ | ⟨b, v⟩⟩
  · rintro ⟨⟩
  · intro hlast
    obtain rfl : a = Bytes.newline := by simpa using hlast
    rw [List.singleton_append, blankLength_ascii (by decide), List.length_cons, if_pos (by decide)] at h
    omega
  · intro hlast
    rw [List.cons_append, List.cons_append] at h
    simp only [List.length_cons, List.length_append] at h
    by_cases ha : a < 0x80
    · rw [blankLength_ascii ha] at h
      split at h <;> omega
    by_cases hc : a = 0xC2
    · rw [blankLength_two ha hc] at h
      split at h <;> omega
    rcases blankLength_three ha hc (b :: (v ++ w)) with hzero | ⟨hthree, -⟩
    · omega
    · -- Only the third byte is left to stand behind the line feed.
      obtain rfl : v = [] := List.length_eq_zero_iff.mp (by omega)
      obtain rfl : b = Bytes.newline := by simpa using hlast
      obtain ⟨c, more, rfl⟩ := List.exists_cons_of_ne_nil hw
      simp [blankLength, ha, hc, Bytes.newline] at hthree

/-- Blanks are passed over. -/
theorem Passed.of_blanks (h : w.all Bytes.isBlank = true) : Passed w := by
  induction w with
  | nil => exact .nil
  | cons a w ih =>
    obtain ⟨ha, hw⟩ := Bool.and_eq_true_iff.mp (List.all_cons ▸ h)
    have hascii : a < 0x80 := by
      simp only [Bytes.isBlank, Bool.or_eq_true, Bool.and_eq_true, beq_iff_eq, decide_eq_true_eq] at ha
      rcases ha with rfl | ⟨-, hle⟩
      · decide
      · exact UInt8.lt_of_le_of_lt hle (by decide)
    refine .blank (v := [a]) (by simp) (fun y => ?_) (ih hw)
    rw [List.singleton_append, blankLength_ascii hascii, if_pos ha]
    rfl

/-- Whether a text is empty or ends with a line feed. -/
def EndsLine (x : Bytes) : Prop := ∀ b, x.getLast? = some b → b = Bytes.newline

theorem EndsLine.getLast? (h : EndsLine x) (hx : x ≠ []) : x.getLast? = some Bytes.newline := by
  have hlast := List.getLast?_eq_some_getLast hx
  rw [hlast, h _ hlast]

theorem EndsLine.behind (h : EndsLine (v ++ x)) : EndsLine x := fun b hb =>
  h b (by rw [List.getLast?_append, hb, Option.some_or])

/-- No comment goes on with blanks behind a line feed. -/
theorem comment_not_cut (h : behindComment? ((x ++ w) ++ z) = some z) (hx : EndsLine x)
    (hw : w.all Bytes.isBlank = true) : x = [] := by
  refine Decidable.byContradiction fun hne => ?_
  have hlast := hx.getLast? hne
  rcases comment_ends h with ⟨u, hu⟩ | hline
  · have hslash : (x ++ w).getLast? = some (code '/') := by rw [hu, List.getLast?_concat]
    rw [List.getLast?_append, hlast] at hslash
    cases hmore : w.getLast? with
    | none =>
      rw [hmore] at hslash
      cases hslash
    | some b =>
      rw [hmore] at hslash
      obtain rfl := Option.some.inj hslash
      have hblank := List.all_eq_true.mp hw _ (List.mem_of_getLast? hmore)
      cases hblank
  · exact hline (List.mem_append_left _ (List.mem_of_getLast? hlast))

/-- What stands before a cut ends before a part of the text or holds it, unless the cut is in the part. -/
theorem eq_nil_or_of_append {u : Bytes} (h : x ++ w = v ++ u) (hcut : ∀ c, v = x ++ c → w = c ++ u → c ≠ [] → x = []) :
    x = [] ∨ ∃ x', x = v ++ x' ∧ u = x' ++ w := by
  rcases List.append_eq_append_iff.mp h with ⟨c, hv, hw⟩ | hbehind
  · by_cases hc : c = []
    · subst hc
      exact .inr ⟨[], by simp [hv], hw.symm⟩
    · exact .inl (hcut c hv hw hc)
  · exact .inr hbehind

/-- A run of blanks and comments can be cut at the beginning of a line behind which it has only blanks. -/
theorem Passed.before_blanks (h : Passed (x ++ w)) (hw : w.all Bytes.isBlank = true) (hx : EndsLine x) :
    Passed x := by
  generalize hy : x ++ w = y at h
  have hall : ∀ {c u : Bytes}, w = c ++ u → c.all Bytes.isBlank = true := by
    rintro c u rfl
    exact (Bool.and_eq_true_iff.mp (List.all_append ▸ hw)).1
  induction h generalizing x with
  | nil =>
    obtain ⟨rfl, -⟩ := List.append_eq_nil_iff.mp hy
    exact .nil
  | @blank v u hv h _ ih =>
    have hcut : ∀ c, v = x ++ c → w = c ++ u → c ≠ [] → x = [] := fun c hsplit _ hc => by
      refine Decidable.byContradiction fun hne => ?_
      have hself := h []
      rw [List.append_nil, hsplit] at hself
      exact getLast?_ne_newline hself hc (hx.getLast? hne)
    rcases eq_nil_or_of_append hy hcut with rfl | ⟨x', rfl, hmore⟩
    · exact .nil
    · exact .blank hv h (ih hx.behind hmore.symm)
  | @comment v u h _ ih =>
    have hcut : ∀ c, v = x ++ c → w = c ++ u → c ≠ [] → x = [] := fun c hsplit hblank _ =>
      comment_not_cut (z := []) (by rw [← hsplit]; exact h []) hx (hall hblank)
    rcases eq_nil_or_of_append hy hcut with rfl | ⟨x', rfl, hmore⟩
    · exact .nil
    · exact .comment h (ih hx.behind hmore.symm)
  | @line v v' u hne hblank h _ ih =>
    have hcut : ∀ c, v = x ++ c → w = c ++ (v' ++ u) → c ≠ [] → x = [] := fun c hsplit hblank _ =>
      comment_not_cut (by rw [← hsplit]; exact h []) hx (hall hblank)
    rcases eq_nil_or_of_append hy hcut with rfl | ⟨x', rfl, hmore⟩
    · exact .nil
    have hcut' : ∀ c, v' = x' ++ c → w = c ++ u → c ≠ [] → x' = [] := fun c hsplit _ hc => by
      refine Decidable.byContradiction fun hne => ?_
      have hself := hblank []
      rw [List.append_nil, hsplit] at hself
      exact getLast?_ne_newline hself hc (hx.behind.getLast? hne)
    rcases eq_nil_or_of_append hmore.symm hcut' with rfl | ⟨x'', rfl, hmore'⟩
    · -- The comment alone stands before the cut, and ends with no line feed.
      rw [List.append_nil] at hx ⊢
      have hself : behindComment? ((v ++ []) ++ (v' ++ [])) = some (v' ++ []) := by
        rw [List.append_nil v]
        exact h []
      rw [comment_not_cut hself hx rfl]
      exact .nil
    · exact .line hne hblank h (ih hx.behind.behind hmore'.symm)

end Codemod.Syntax
