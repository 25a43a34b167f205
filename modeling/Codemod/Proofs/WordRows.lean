import Codemod.Proofs.Readings
import Codemod.Proofs.Words

/-!
# Patterns of words

A row of words, each behind a gap, is the text that a pattern without marks reads. The nodes that a reading adds
stand among comments, which `Reading.Adds` leaves aside.

Main statements:

* `one_of_word` says that a pattern for one word decides by the word alone whether it reads it, and what node it
  makes of it;
* `exists_word` says that what such a pattern has read was a word behind a gap;
* `reads_node` puts what was read inside a node into one node.
-/

namespace Codemod.Syntax

/-! ### What a reading adds -/

/-- Whether the comments among nodes are as they are passed over: they have no role, and hold nothing. -/
def Tree.PlainComments (ts : List Tree) : Prop :=
  ∀ c ∈ ts, c.is .comment = true → c.role = none ∧ c.children = []

namespace Reading

variable {s s' s'' done : Reading} {ts us : List Tree}

/-- Whether a reading adds the given nodes, comments aside. -/
def Adds (ts : List Tree) (s s' : Reading) : Prop :=
  ∃ added, s'.found = added ++ s.found ∧ added.reverse.filter (fun t => !t.is .comment) = ts ∧
    Tree.PlainComments added

theorem Adds.refl (s : Reading) : Adds [] s s :=
  ⟨[], rfl, rfl, fun _ h => absurd h List.not_mem_nil⟩

theorem Adds.trans (h : Adds ts s s') (h' : Adds us s' s'') : Adds (ts ++ us) s s'' := by
  obtain ⟨added, hfound, rfl, hplain⟩ := h
  obtain ⟨added', hfound', rfl, hplain'⟩ := h'
  refine ⟨added' ++ added, by rw [hfound', hfound, List.append_assoc], by simp, fun t ht => ?_⟩
  exact (List.mem_append.mp ht).elim (hplain' t) (hplain t)

/-- The nodes that a reading adds to none are the parts of the node that is made of them. -/
theorem Adds.parts {t : Tree} (h : Adds ts s done) (hfound : s.found = []) (ht : t.children = done.found.reverse) :
    t.children.filter (fun c => !c.is .comment) = ts ∧ Tree.PlainComments t.children := by
  obtain ⟨added, hadded, hparts, hplain⟩ := h
  rw [hfound, List.append_nil] at hadded
  rw [ht, hadded]
  exact ⟨hparts, fun c hc => hplain c (List.mem_reverse.mp hc)⟩

/-- What is passed over adds comments alone. -/
theorem adds_after (s : Reading) (t : Trivia) : Adds [] s (s.after t) := by
  refine ⟨_, rfl, ?_, ?_⟩
  · rw [List.filter_eq_nil_iff]
    intro t ht
    obtain ⟨span, -, rfl⟩ := List.mem_map.mp (List.mem_reverse.mp ht)
    simp [commentLeaf, Tree.leaf, Tree.is, Tree.kind]
  · intro t ht _
    obtain ⟨span, -, rfl⟩ := List.mem_map.mp ht
    exact ⟨rfl, rfl⟩

theorem adds_skip (s : Reading) : Adds [] s s.skip :=
  s.adds_after _

theorem Adds.push {t : Tree} (h : Adds ts s s') (hk : t.kind ≠ .comment) (offset : Nat) (rest : Bytes) :
    Adds (ts ++ [t]) s ⟨offset, rest, t :: s'.found⟩ := by
  have ht : t.is .comment = false := decide_eq_false hk
  refine h.trans ⟨[t], rfl, by simp [ht], fun u hu hcomment => ?_⟩
  obtain rfl := List.mem_singleton.mp hu
  rw [ht] at hcomment
  cases hcomment

/-- Parts that get a role are added with it. -/
theorem Adds.part {r : Role} (h : Adds ts s.inner done) : Adds (ts.map (·.withRole r)) s (s.closePart r done) := by
  obtain ⟨added, hfound, rfl, hplain⟩ := h
  have hfound' : done.found = added := by rw [hfound]; simp [inner]
  have hsame : ∀ t : Tree, (if t.is .comment then t else t.withRole r).is .comment = t.is .comment := by
    intro t
    split
    · rfl
    · cases t; rfl
  refine ⟨_, rfl, ?_, ?_⟩
  · rw [hfound', ← List.map_reverse, List.filter_map]
    have hkept : ((fun t : Tree => !t.is .comment) ∘ fun t => if t.is .comment then t else t.withRole r) =
        fun t => !t.is .comment := funext fun t => by simp [hsame]
    rw [hkept]
    refine List.map_congr_left fun t ht => ?_
    have hno := (List.mem_filter.mp ht).2
    simp only [Bool.not_eq_true'] at hno
    rw [hno]
    rfl
  · rintro t ht hcomment
    obtain ⟨u, hu, rfl⟩ := List.mem_map.mp ht
    rw [hsame] at hcomment
    rw [if_pos hcomment]
    exact hplain u (hfound' ▸ hu) hcomment

theorem adds_close {k : Kind} (hk : k ≠ .comment) (s done : Reading) :
    Adds [.node k none s.offset done.offset done.found.reverse] s (s.close k done) := by
  refine (Adds.refl s).push ?_ _ _
  exact hk

/-- Before what follows a gap, the gap is passed over. -/
theorem skip_gap {g y : Bytes} (hg : Gap g) (hy : Visible y) (hs : s.rest = g ++ y) :
    s.skip.offset = s.offset + g.length ∧ s.skip.rest = y := by
  unfold skip after
  rw [hs]
  exact hg s.offset y hy

end Reading

/-! ### Rows of words -/

/-- A word with the gap before it. -/
structure Chunk where
  gap : Bytes
  word : Bytes
  deriving DecidableEq, Repr

/-- The text of a word with the gap before it. -/
def Chunk.text (c : Chunk) : Bytes := c.gap ++ c.word

/-- The text of a row of words. -/
def rowText (cs : List Chunk) : Bytes := cs.flatMap Chunk.text

/-- Whether a row is read as its words where a text follows it. -/
def Spelled : List Chunk → Bytes → Prop
  | [], _ => True
  | c :: rest, z => Gap c.gap ∧ Word (rowText rest ++ z) c.word ∧ Spelled rest z

/-- The node of a word: what kind it is of and which role it has is told beforehand. -/
def leafAt (offset : Nat) (c : Chunk) (kind : Kind × Option Role) : Tree :=
  .node kind.1 kind.2 (offset + c.gap.length) (offset + c.text.length) []

/-- The nodes of a row of words that begins at an offset. -/
def leavesAt : Nat → List Chunk → List (Kind × Option Role) → List Tree
  | offset, c :: cs, kind :: kinds => leafAt offset c kind :: leavesAt (offset + c.text.length) cs kinds
  | _, _, _ => []

@[simp] theorem rowText_nil : rowText [] = [] := rfl

@[simp] theorem rowText_cons (c : Chunk) (cs : List Chunk) : rowText (c :: cs) = c.text ++ rowText cs := rfl

namespace Pattern

variable {ρ : Type} {rules : ρ → Pattern ρ} {around : Surroundings} {mark p q : Pattern ρ} {s s' : Reading}
  {c : Chunk} {cs : List Chunk} {z : Bytes} {kind : Kind × Option Role} {kinds : List (Kind × Option Role)}

/-- Whether a pattern reads a single word. -/
def isOne : Pattern ρ → Bool
  | token l k => l.isVerbal && k != .comment
  | either p q => p.isOne && q.isOne
  | part _ p => p.isOne
  | _ => false

/-- The node that a pattern makes of a single word, if it reads it. -/
def onWord : Pattern ρ → Bytes → Option (Kind × Option Role)
  | token l k, w => if l.takes w then some (k, none) else none
  | either p q, w => (p.onWord w).orElse fun _ => q.onWord w
  | part r p, w => (p.onWord w).map fun kind => (kind.1, some r)
  | _, _ => none

/-- The nodes that a pattern may make of a single word, whichever of its choices succeeds. -/
def MayTake : Pattern ρ → Bytes → Kind × Option Role → Prop
  | token l k, w, kind => l.takes w = true ∧ kind = (k, none)
  | either p q, w, kind => p.MayTake w kind ∨ q.MayTake w kind
  | part r p, w, kind => ∃ inner, p.MayTake w inner ∧ kind = (inner.1, some r)
  | _, _, _ => False

/-- Where one word has been read. -/
structure ReadsOne (c : Chunk) (kind : Kind × Option Role) (z : Bytes) (s s' : Reading) : Prop where
  rest : s'.rest = z
  offset : s'.offset = s.offset + c.text.length
  adds : Reading.Adds [leafAt s.offset c kind] s s'

theorem ReadsOne.part {done : Reading} {r : Role} (hs : s.skip.offset = s.offset + c.gap.length)
    (h : ReadsOne ⟨[], c.word⟩ kind z s.skip.inner done) :
    ReadsOne c (kind.1, some r) z s (s.skip.closePart r done) := by
  obtain ⟨hrest, hoffset, hadds⟩ := h
  have hlength : s.skip.offset + (Chunk.mk [] c.word).text.length = s.offset + c.text.length := by
    rw [hs]
    simp [Chunk.text, Nat.add_assoc]
  refine ⟨hrest, hoffset.trans hlength, ?_⟩
  have hall := (Reading.adds_skip s).trans (hadds.part (r := r))
  have hleaf : (leafAt s.skip.offset ⟨[], c.word⟩ kind).withRole r = leafAt s.offset c (kind.1, some r) := by
    unfold leafAt
    rw [hlength, hs]
    rfl
  rw [← hleaf]
  exact hall

theorem readsOne_take {l : Lexeme} {k : Kind} (hs : s.rest = c.text ++ z) (hg : Gap c.gap) (hw : Word z c.word)
    (hk : k ≠ .comment) (hl : l.isVerbal = true) (h : s.skip.take l k = some s') :
    l.takes c.word = true ∧ ReadsOne c (k, none) z s s' := by
  obtain ⟨hoffset, hrest⟩ := Reading.skip_gap hg hw.visible (by rw [hs, Chunk.text, List.append_assoc])
  unfold Reading.take at h
  rw [hrest, hw.length?_eq hl] at h
  cases htakes : l.takes c.word with
  | false =>
    rw [htakes] at h
    cases h
  | true =>
    rw [htakes] at h
    cases h
    refine ⟨rfl, by simp, by simp [hoffset, Chunk.text, Nat.add_assoc], ?_⟩
    have hleaf : Tree.leaf k s.skip.offset (s.skip.offset + c.word.length) = leafAt s.offset c (k, none) := by
      unfold leafAt Chunk.text
      rw [hoffset, List.length_append, Nat.add_assoc]
      rfl
    rw [hleaf]
    refine (Reading.adds_skip s).push ?_ _ _
    exact hk

/-- Where a word stands, a pattern that reads a single word makes a node of it or fails. -/
theorem one_of_word (rules : ρ → Pattern ρ) (around : Surroundings) (hp : p.isOne = true)
    (hs : s.rest = c.text ++ z) (hg : Gap c.gap) (hw : Word z c.word) :
    (∀ kind, p.onWord c.word = some kind → ∃ s', Reads rules around p s s' ∧ ReadsOne c kind z s s') ∧
      (p.onWord c.word = none → Refuses rules around p s) ∧
      ∀ s', Ran rules around p s s' → ∃ kind, p.MayTake c.word kind ∧ ReadsOne c kind z s s' := by
  induction p generalizing c s with
  | token l k =>
    obtain ⟨hl, hk⟩ := Bool.and_eq_true_iff.mp hp
    have hk : k ≠ .comment := by simpa using hk
    have htake : ∀ s', s.skip.take l k = some s' → l.takes c.word = true ∧ ReadsOne c (k, none) z s s' :=
      fun s' => readsOne_take hs hg hw hk hl
    have hlength : s.skip.take l k = none ↔ l.takes c.word = false := by
      obtain ⟨-, hrest⟩ := Reading.skip_gap hg hw.visible (by rw [hs, Chunk.text, List.append_assoc])
      unfold Reading.take
      rw [hrest, hw.length?_eq hl]
      cases l.takes c.word <;> simp
    refine ⟨fun kind hkind => ?_, fun hnone => ?_, fun s' hran => ?_⟩
    · unfold onWord at hkind
      split at hkind
      · cases hkind
        cases hdone : s.skip.take l k with
        | none => simp_all
        | some s' => exact ⟨s', .token hdone, (htake s' hdone).2⟩
      · cases hkind
    · unfold onWord at hnone
      split at hnone
      · cases hnone
      · exact .token (hlength.mpr (by simpa using ‹¬ l.takes c.word = true›))
    · obtain ⟨htakes, hone⟩ := htake s' hran.token
      exact ⟨(k, none), ⟨htakes, rfl⟩, hone⟩
  | either p q ihp ihq =>
    obtain ⟨hp, hq⟩ := Bool.and_eq_true_iff.mp hp
    obtain ⟨hreads, hrefuses, hran⟩ := ihp hp hs hg hw
    obtain ⟨hreads', hrefuses', hran'⟩ := ihq hq hs hg hw
    refine ⟨fun kind hkind => ?_, fun hnone => ?_, fun s' h => ?_⟩
    · unfold onWord at hkind
      cases hfirst : p.onWord c.word with
      | none =>
        rw [hfirst] at hkind
        obtain ⟨s', hs', hone⟩ := hreads' kind hkind
        exact ⟨s', .right (hrefuses hfirst) hs', hone⟩
      | some first =>
        rw [hfirst] at hkind
        cases hkind
        obtain ⟨s', hs', hone⟩ := hreads kind hfirst
        exact ⟨s', .left hs', hone⟩
    · unfold onWord at hnone
      cases hfirst : p.onWord c.word with
      | none =>
        rw [hfirst] at hnone
        exact .either (hrefuses hfirst) (hrefuses' hnone)
      | some first =>
        rw [hfirst] at hnone
        cases hnone
    · rcases h.either with h | h
      · obtain ⟨kind, hmay, hone⟩ := hran s' h
        exact ⟨kind, .inl hmay, hone⟩
      · obtain ⟨kind, hmay, hone⟩ := hran' s' h
        exact ⟨kind, .inr hmay, hone⟩
  | part r p ih =>
    have hwhole : s.rest = c.gap ++ (c.word ++ z) := by rw [hs, Chunk.text, List.append_assoc]
    obtain ⟨hoffset, hrest⟩ := Reading.skip_gap hg hw.visible hwhole
    obtain ⟨hreads, hrefuses, hran⟩ :=
      ih (s := s.skip.inner) (c := ⟨[], c.word⟩) hp (by rw [Reading.inner, hrest]; rfl) Gap.nil hw
    refine ⟨fun kind hkind => ?_, fun hnone => ?_, fun s' h => ?_⟩
    · obtain ⟨inner, hinner, rfl⟩ := Option.map_eq_some_iff.mp hkind
      obtain ⟨done, hdone, hone⟩ := hreads inner hinner
      exact ⟨_, .part hdone, hone.part hoffset⟩
    · exact .part (hrefuses (Option.map_eq_none_iff.mp hnone))
    · obtain ⟨done, hdone, rfl⟩ := h.part
      obtain ⟨inner, hmay, hone⟩ := hran done hdone
      exact ⟨_, ⟨inner, hmay, rfl⟩, hone.part hoffset⟩
  | _ => cases hp

/-- What a pattern that reads a single word has read is a word. -/
theorem exists_skipped (hp : p.isOne = true) (h : Ran rules around p s s') :
    ∃ w z, s.skip.rest = w ++ z ∧ Word z w := by
  induction p generalizing s s' with
  | token l k =>
    have htake := h.token
    unfold Reading.take at htake
    split at htake
    · cases htake
    · rename_i n hn
      obtain ⟨w, z, hrest, -, hword, -⟩ := Word.of_length? (Bool.and_eq_true_iff.mp hp).1 hn
      exact ⟨w, z, hrest, hword⟩
  | either p q ihp ihq =>
    obtain ⟨hp, hq⟩ := Bool.and_eq_true_iff.mp hp
    exact h.either.elim (ihp hp) (ihq hq)
  | part r p ih =>
    obtain ⟨done, hdone, -⟩ := h.part
    obtain ⟨w, z, hrest, hword⟩ := ih hp hdone
    exact ⟨w, z, (trivia_again _ s.offset s.rest).symm.trans hrest, hword⟩
  | _ => cases hp

theorem exists_word (hp : p.isOne = true) (h : Ran rules around p s s') :
    ∃ c z, s.rest = Chunk.text c ++ z ∧ Gap c.gap ∧ Word z c.word := by
  obtain ⟨w, z, hrest, hword⟩ := exists_skipped hp h
  have hrest : (trivia s.offset s.rest).rest = w ++ z := hrest
  obtain ⟨g, hg, hsplit, -⟩ := exists_gap (hrest ▸ hword.visible)
  rw [hrest] at hsplit
  exact ⟨⟨g, w⟩, z, by rw [hsplit, Chunk.text, List.append_assoc], hg, hword⟩

/-! ### Reading a node -/

/-- Where a node has been read that holds the given parts, comments aside. -/
structure ReadsNode (k : Kind) (ts : List Tree) (done : Reading) (t : Tree) (s s' : Reading) : Prop where
  rest : s'.rest = done.rest
  offset : s'.offset = done.offset
  adds : Reading.Adds [t] s s'
  kind : t.kind = k
  role : t.role = none
  parts : t.children.filter (fun c => !c.is .comment) = ts
  plain : Tree.PlainComments t.children

/-- Behind a gap a node is read by what reads its parts. -/
theorem reads_node {k : Kind} {ts : List Tree} {done : Reading} {g y : Bytes} (hk : k ≠ .comment) (hg : Gap g)
    (hy : Visible y) (hs : s.rest = g ++ y) (hp : Reads rules around p ⟨s.offset + g.length, y, []⟩ done)
    (hadds : Reading.Adds ts ⟨s.offset + g.length, y, []⟩ done) :
    ∃ t s', Reads rules around (.node k p) s s' ∧ ReadsNode k ts done t s s' := by
  obtain ⟨hoffset, hrest⟩ := Reading.skip_gap hg hy hs
  have hinner : s.skip.inner = ⟨s.offset + g.length, y, []⟩ := by
    rw [Reading.inner, hoffset, hrest]
  obtain ⟨hparts, hplain⟩ := hadds.parts (t := .node k none s.skip.offset done.offset done.found.reverse) rfl rfl
  exact ⟨_, _, .node (hinner ▸ hp), rfl, rfl, (Reading.adds_skip s).trans (Reading.adds_close hk _ _), rfl, rfl,
    hparts, hplain⟩

end Pattern
end Codemod.Syntax
