import Codemod.Proofs.Origins
import Mathlib.Logic.Relation

/-!
# What stands beside what

A watch goes along the children of a node, comments aside, and sees of each its kind and, of a symbol or a constant,
its text. What it sees in the trees of a grammar can be computed from the patterns: `Watch.flow` gives the states that
what a pattern builds may lead to. A rule is taken at its word (`Watch.after`), and `Watch.Watches` checks the word of
every rule and that every node which a pattern makes is accepted. So a finite check on the grammar says something of all
its trees.

A group that holds a single node is that node. Then what its pattern reads leads where one step leads, whatever
longer rows of the same pattern do; `Watch.flow` makes use of that.

Main statements:

* `Watch.run_flow` says that what is built leads where `Watch.flow` says, and that the nodes are accepted;
* `Watch.parse_accepts` says that every node of a tree is accepted.
-/

namespace Codemod.Syntax

/-- Whether the text of a node is seen. -/
def Kind.isShown (k : Kind) : Bool := k = .symbol || k = .constant

/-- What is seen of a node: its kind and, where that is shown, its text. -/
structure Sight where
  kind : Kind
  text : Bytes
  deriving DecidableEq, Repr

namespace Tree

variable {source : Bytes} {t u : Tree} {l l' : List Tree}

/-- What is seen of a node. -/
def sight (source : Bytes) (t : Tree) : Sight :=
  ⟨t.kind, if t.kind.isShown then t.text source else []⟩

/-- What is seen of nodes in a row, comments aside. -/
def sights (source : Bytes) (l : List Tree) : List Sight :=
  (l.filter fun c => !c.is .comment).map (·.sight source)

@[simp] theorem sights_nil (source : Bytes) : sights source [] = [] := rfl

theorem sights_append : sights source (l ++ l') = sights source l ++ sights source l' := by
  simp [sights]

theorem sights_one (h : t.is .comment = false) : sights source [t] = [t.sight source] := by
  simp [sights, h]

@[simp] theorem sight_withRole (r : Role) : (t.withRole r).sight source = t.sight source := by
  cases t; rfl

theorem withRole_is (r : Role) (k : Kind) : (t.withRole r).is k = t.is k := by
  cases t; rfl

/-- Roles are not seen. -/
theorem sights_roles (r : Role) :
    sights source (l.map fun t => if t.is .comment then t else t.withRole r) = sights source l := by
  induction l with
  | nil => rfl
  | cons t rest ih =>
    rw [List.map_cons, ← List.singleton_append, ← List.singleton_append (l := rest), sights_append, sights_append, ih]
    cases hcomment : t.is .comment with
    | true => rfl
    | false =>
      rw [if_neg Bool.false_ne_true, sights_one hcomment, sights_one (by rw [withRole_is, hcomment]), sight_withRole]

theorem sights_comments (cs : List (Nat × Nat)) : sights source (cs.map Reading.commentLeaf) = [] := by
  induction cs with
  | nil => rfl
  | cons c rest ih => rw [List.map_cons, ← List.singleton_append, sights_append, ih]; rfl

end Tree

/-- The text of a lexeme that is known beforehand. -/
def Lexeme.text? : Lexeme → Option Bytes
  | exactly w | word w => some w
  | _ => none

theorem Lexeme.eq_of_text? {l : Lexeme} {w t : Bytes} {n : Nat} (hl : l.text? = some w) (h : l.length? t = some n) :
    w <+: t ∧ n = w.length := by
  cases l with
  | exactly v => cases hl; exact Lexeme.length?_exactly.mp h
  | word v =>
    cases hl
    simp only [Lexeme.length?] at h
    split at h
    · rename_i hword
      cases h
      exact ⟨List.isPrefixOf_iff_prefix.mp (Bool.and_eq_true_iff.mp hword).1, rfl⟩
    · cases h
  | _ => cases hl

/-! ### What can be reached -/

section

variable {σ : Type} [DecidableEq σ] {f : σ → List σ} {q q' : σ} {l : List σ}

/-- Takes a number of steps from what was reached. -/
def spread (f : σ → List σ) : Nat → List σ → List σ
  | 0, l => l
  | n + 1, l =>
    match (l.flatMap f).filter fun q => !l.contains q with
    | [] => l
    | more => spread f n (l ++ more.eraseDups)

theorem subset_spread (n : Nat) (h : q ∈ l) : q ∈ spread f n l := by
  induction n generalizing l with
  | zero => exact h
  | succ n ih =>
    unfold spread
    split
    · exact h
    · exact ih (List.mem_append_left _ h)

/-- What can be reached from a state, among all states. -/
def closure (f : σ → List σ) (states : List σ) (q : σ) : List σ :=
  let l := spread f states.length [q]
  if (l.flatMap f).all l.contains then l else states

theorem self_mem_closure {states : List σ} (h : ∀ q, q ∈ states) (q : σ) : q ∈ closure f states q := by
  unfold closure
  dsimp only
  split
  · exact subset_spread _ (List.mem_singleton_self q)
  · exact h q

theorem mem_closure {states : List σ} {start : σ} (h : ∀ q, q ∈ states) (hq : q ∈ closure f states start)
    (hq' : q' ∈ f q) : q' ∈ closure f states start := by
  unfold closure at hq ⊢
  dsimp only at hq ⊢
  split at hq
  · rename_i hclosed
    rw [if_pos hclosed]
    exact List.contains_iff_mem.mp (List.all_eq_true.mp hclosed _ (List.mem_flatMap_of_mem hq hq'))
  · rename_i hopen
    rw [if_neg hopen]
    exact h q'

end

/-! ### Watches -/

/-- What goes along the children of nodes, with one of finitely many states at each place. -/
structure Watch (ρ σ : Type) where
  /-- The state before the children of a node. -/
  start : Kind → σ
  step : σ → Sight → σ
  /-- Whether the children of a node may end so. -/
  accepts : σ → Bool
  /-- The states that one node may lead to. -/
  next : σ → List σ
  /-- The states that what a rule reads may lead to. -/
  after : ρ → σ → List σ
  states : List σ
  step_mem (q : σ) (c : Sight) : step q c ∈ next q
  mem_states (q : σ) : q ∈ states

namespace Watch

variable {ρ σ : Type} (w : Watch ρ σ)

/-- The state behind a row of nodes. -/
def along (q : σ) (l : List Sight) : σ := l.foldl w.step q

theorem along_append (q : σ) (l l' : List Sight) : w.along q (l ++ l') = w.along (w.along q l) l' :=
  List.foldl_append

/-- Whether the children of a node are accepted. -/
def Accepts (source : Bytes) (t : Tree) : Prop :=
  w.accepts (w.along (w.start t.kind) (Tree.sights source t.children)) = true

/-- The states that a leaf may lead to. -/
def leafStates (l : Lexeme) (k : Kind) (q : σ) : List σ :=
  if k.isShown then
    match l.text? with
    | some text => [w.step q ⟨k, text⟩]
    | none => w.next q
  else [w.step q ⟨k, []⟩]

/-- The states that what a pattern builds may lead to. -/
def flow [DecidableEq σ] : Pattern ρ → σ → List σ
  | .token l k, q | .glued l k, q => w.leafStates l k q
  | .both p p', q => ((flow p q).flatMap (flow p')).eraseDups
  | .either p p', q => (flow p q ++ flow p' q).eraseDups
  | .many p, q => closure (flow p) w.states q
  | .node k _, q => [w.step q ⟨k, []⟩]
  | .group k p, q => w.step q ⟨k, []⟩ :: (flow p q).filter (w.next q).contains
  | .part _ p, q | .inside _ p, q => flow p q
  | .rule r, q => w.after r q
  | .never, _ => []
  | .nothing, q | .ahead _, q | .absent _, q | .ending _, q | .amid _, q | .blanks, q | .finish, q => [q]

/-- Whether the nodes that a pattern makes are accepted. -/
def checks [DecidableEq σ] : Pattern ρ → Bool
  | .token _ k | .glued _ k => k != .comment && w.accepts (w.start k)
  | .both p p' | .either p p' => checks p && checks p'
  | .many p | .part _ p | .inside _ p => checks p
  | .node k p | .group k p =>
    k != .comment && !k.isShown && (w.flow p (w.start k)).all w.accepts && checks p
  | .nothing | .never | .rule _ | .ahead _ | .absent _ | .ending _ | .amid _ | .blanks | .finish => true

/-- Whether a grammar is as the watch says. -/
structure Watches [DecidableEq σ] (rules : ρ → Pattern ρ) : Prop where
  after : ∀ r, ∀ q ∈ w.states, ∀ q' ∈ w.flow (rules r) q, q' ∈ w.after r q
  checks : ∀ r, w.checks (rules r) = true
  comments : w.accepts (w.start .comment) = true

variable {w} {source : Bytes} {rules : ρ → Pattern ρ} {p : Pattern ρ} {t : Tree} {k : Kind} {q : σ}

theorem Accepts.withRole (h : w.Accepts source t) (r : Role) : w.Accepts source (t.withRole r) := by
  cases t
  exact h

theorem everywhere_withRole (h : t.Everywhere (w.Accepts source)) (r : Role) :
    (t.withRole r).Everywhere (w.Accepts source) := by
  obtain ⟨ht, hbelow⟩ := Tree.everywhere_iff.mp h
  refine Tree.everywhere_iff.mpr ⟨ht.withRole r, fun c hc => hbelow c ?_⟩
  rwa [Tree.withRole_children] at hc

/-! ### Readings -/

variable (w) in
/-- Whether the nodes that a reading adds are accepted and lead from states to others. -/
def Leads (source : Bytes) (moves : σ → σ → Prop) (s s' : Reading) : Prop :=
  ∃ added, s'.found = added ++ s.found ∧ (∀ t ∈ added, t.Everywhere (w.Accepts source)) ∧
    ∀ q, moves q (w.along q (Tree.sights source added.reverse))

variable {s s' s'' done : Reading} {moves moves' : σ → σ → Prop} {l : Lexeme}

theorem Leads.refl (s : Reading) : w.Leads source Eq s s :=
  ⟨[], rfl, fun _ ht => absurd ht List.not_mem_nil, fun _ => rfl⟩

theorem Leads.mono (h : w.Leads source moves s s') (hmoves : ∀ q q', moves q q' → moves' q q') :
    w.Leads source moves' s s' := by
  obtain ⟨added, hfound, hall, hq⟩ := h
  exact ⟨added, hfound, hall, fun q => hmoves q _ (hq q)⟩

theorem Leads.trans (h : w.Leads source moves s s') (h' : w.Leads source moves' s' s'') :
    w.Leads source (fun q q' => ∃ m, moves q m ∧ moves' m q') s s'' := by
  obtain ⟨added, hfound, hall, hq⟩ := h
  obtain ⟨added', hfound', hall', hq'⟩ := h'
  refine ⟨added' ++ added, by rw [hfound', hfound, List.append_assoc], List.forall_mem_append.mpr ⟨hall', hall⟩,
    fun q => ?_⟩
  rw [List.reverse_append, Tree.sights_append, along_append]
  exact ⟨_, hq q, hq' _⟩

/-- Comments lead nowhere. -/
theorem Leads.after (hw : w.accepts (w.start .comment) = true) (s : Reading) (t : Trivia) :
    w.Leads source Eq s (s.after t) := by
  refine ⟨_, rfl, fun u hu => ?_, fun q => ?_⟩
  · obtain ⟨span, -, rfl⟩ := List.mem_map.mp hu
    exact Tree.everywhere_leaf hw
  · rw [← List.map_reverse, Tree.sights_comments]
    rfl

/-- Behind what leads nowhere. -/
theorem Leads.behind (h : w.Leads source Eq s s') (h' : w.Leads source moves s' s'') : w.Leads source moves s s'' :=
  (h.trans h').mono fun _ _ ⟨_, heq, hmoves⟩ => heq ▸ hmoves

theorem Leads.take (hs : Reached source s.offset s.rest) (hk : k ≠ .comment)
    (haccepts : w.accepts (w.start k) = true) (h : s.take l k = some s') :
    w.Leads source (fun q q' => q' ∈ w.leafStates l k q) s s' := by
  unfold Reading.take at h
  split at h
  · cases h
  · rename_i n hn
    cases h
    refine ⟨[_], rfl, List.forall_mem_singleton.mpr (Tree.everywhere_leaf haccepts), fun q => ?_⟩
    rw [List.reverse_singleton, Tree.sights_one (t := .leaf k _ _) (decide_eq_false hk)]
    unfold leafStates
    split
    · rename_i hshown
      split
      · rename_i text htext
        obtain ⟨⟨rest, hrest⟩, rfl⟩ := Lexeme.eq_of_text? htext hn
        rw [← hrest] at hs
        have hslice : (Tree.leaf k s.offset (s.offset + text.length)).sight source = ⟨k, text⟩ :=
          congrArg (Sight.mk k) ((if_pos hshown).trans hs.slice)
        rw [hslice]
        exact List.mem_singleton_self _
      · exact w.step_mem q _
    · rename_i hno
      have hsight : (Tree.leaf k s.offset (s.offset + n)).sight source = ⟨k, []⟩ :=
        congrArg (Sight.mk k) (if_neg hno)
      rw [hsight]
      exact List.mem_singleton_self _

/-- A node is accepted if all states that its parts lead to are. -/
theorem Leads.close (hk : k ≠ .comment ∧ k.isShown = false) (h : w.Leads source moves s.inner done)
    (haccepts : ∀ q, moves (w.start k) q → w.accepts q = true) :
    w.Leads source (fun q q' => q' = w.step q ⟨k, []⟩) s (s.close k done) := by
  obtain ⟨added, hfound, hall, hq⟩ := h
  have hfound : done.found = added := hfound.trans (List.append_nil added)
  have hnode : Tree.sight source (.node k none s.offset done.offset done.found.reverse) = ⟨k, []⟩ :=
    congrArg (Sight.mk k) (if_neg (by simp [Tree.kind, hk.2]))
  refine ⟨[_], rfl, List.forall_mem_singleton.mpr (Tree.everywhere_iff.mpr ⟨?_, fun c hc => ?_⟩), fun q => ?_⟩
  · rw [hfound]
    exact haccepts _ (hq (w.start k))
  · rw [hfound] at hc
    exact hall c (List.mem_reverse.mp hc)
  · rw [List.reverse_singleton, Tree.sights_one (t := .node k _ _ _ _) (decide_eq_false hk.1), hnode]
    rfl

theorem Leads.closeGroup (hk : k ≠ .comment ∧ k.isShown = false) (h : w.Leads source moves s.inner done)
    (haccepts : ∀ q, moves (w.start k) q → w.accepts q = true) :
    w.Leads source (fun q q' => q' = w.step q ⟨k, []⟩ ∨ moves q q' ∧ q' ∈ w.next q) s (s.closeGroup k done) := by
  unfold Reading.closeGroup
  split
  · rename_i u hu
    obtain ⟨added, hfound, hall, hq⟩ := h
    have hfound : done.found = added := hfound.trans (List.append_nil added)
    refine ⟨added, congrArg (· ++ s.found) hfound, hall, fun q => .inr ⟨hq q, ?_⟩⟩
    have hone : Tree.sights source added.reverse = [u.sight source] := by
      rw [Tree.sights, List.filter_reverse, ← hfound, hu]
      rfl
    rw [hone]
    exact w.step_mem q _
  · exact (h.close hk haccepts).mono fun q q' hq' => .inl hq'

theorem Leads.closePart (h : w.Leads source moves s.inner done) (r : Role) :
    w.Leads source moves s (s.closePart r done) := by
  obtain ⟨added, hfound, hall, hq⟩ := h
  have hfound : done.found = added := hfound.trans (List.append_nil added)
  refine ⟨_, rfl, fun t ht => ?_, fun q => ?_⟩
  · obtain ⟨u, hu, rfl⟩ := List.mem_map.mp ht
    rw [hfound] at hu
    split
    · exact hall u hu
    · exact everywhere_withRole (hall u hu) r
  · rw [hfound, ← List.map_reverse, Tree.sights_roles]
    exact hq q

variable {fuel : Nat} {around : Surroundings} {lo : Nat}

/-- What a repetition builds leads where its steps do. -/
theorem Leads.many (hone : ∀ m < fuel, ∀ s s', s.Sound source lo → Pattern.run rules m around p s = some s' →
      w.Leads source moves s s' ∧ s'.Sound source lo) (hs : s.Sound source lo)
    (h : Pattern.run rules fuel around (.many p) s = some s') :
    w.Leads source (Relation.ReflTransGen moves) s s' := by
  induction fuel generalizing s with
  | zero => cases h
  | succ fuel ih =>
    rw [Pattern.run_many] at h
    split at h
    · cases h
      exact (Leads.refl _).mono fun q q' hq => hq ▸ .refl
    · rename_i middle hmiddle
      obtain ⟨hfirst, hsound⟩ := hone fuel (Nat.lt_succ_self fuel) s middle hs hmiddle
      split at h
      · cases h
        exact hfirst.mono fun q q' => .single
      · have hmore := ih (fun m hm => hone m (Nat.lt_succ_of_lt hm)) hsound h
        exact (hfirst.trans hmore).mono fun q q' ⟨m, hm, hq'⟩ => .head hm hq'

/-- What is built leads where the flow of its pattern does, and the nodes are accepted. -/
theorem run_flow [DecidableEq σ] (hw : w.Watches rules) (hwell : ∀ r, (rules r).wellBuilt = true) (hwellp : p.wellBuilt = true)
    (hp : w.checks p = true) (hs : s.Sound source lo) (h : Pattern.run rules fuel around p s = some s') :
    w.Leads source (fun q q' => q' ∈ w.flow p q) s s' := by
  induction fuel using Nat.strongRecOn generalizing around p s s' lo with
  | ind fuel ihs =>
  cases fuel with
  | zero => cases h
  | succ fuel =>
    have ih {around p s s' lo} := @ihs fuel (Nat.lt_succ_self fuel) p s lo s' around
    have hstay : ∀ s, w.Leads source (fun q q' => q' ∈ [q]) s s := fun s =>
      (Leads.refl s).mono fun q q' hq => List.mem_singleton.mpr hq.symm
    have hskip : w.Leads source Eq s s.skip := .after hw.comments s _
    cases p with
    | nothing => cases h; exact hstay s
    | never => cases h
    | token l k =>
      obtain ⟨hk, haccepts⟩ := Bool.and_eq_true_iff.mp hp
      exact hskip.behind (.take hs.skip.reached (by simpa using hk) haccepts h)
    | glued l k =>
      obtain ⟨hk, haccepts⟩ := Bool.and_eq_true_iff.mp hp
      exact .take hs.reached (by simpa using hk) haccepts h
    | both p p' =>
      obtain ⟨hwp, hwp'⟩ := Bool.and_eq_true_iff.mp hwellp
      obtain ⟨hp, hp'⟩ := Bool.and_eq_true_iff.mp hp
      rw [Pattern.run_both] at h
      obtain ⟨middle, hmiddle, h⟩ := Option.bind_eq_some_iff.mp h
      have hfirst := (Pattern.run_sound hwell hwp hs hmiddle).1
      refine ((ih hwp hp hs hmiddle).trans (ih hwp' hp' hfirst h)).mono fun q q' ⟨m, hm, hq'⟩ => ?_
      exact List.mem_eraseDups.mpr (List.mem_flatMap_of_mem hm hq')
    | either p p' =>
      obtain ⟨hwp, hwp'⟩ := Bool.and_eq_true_iff.mp hwellp
      obtain ⟨hp, hp'⟩ := Bool.and_eq_true_iff.mp hp
      rw [Pattern.run_either] at h
      cases hrun : Pattern.run rules fuel around p s with
      | none =>
        rw [hrun] at h
        exact (ih hwp' hp' hs h).mono fun q q' hq' => List.mem_eraseDups.mpr (List.mem_append_right _ hq')
      | some s₁ =>
        rw [hrun] at h
        cases h
        exact (ih hwp hp hs hrun).mono fun q q' hq' => List.mem_eraseDups.mpr (List.mem_append_left _ hq')
    | many p =>
      have hone : ∀ m < fuel + 1, ∀ s s', s.Sound source lo → Pattern.run rules m around p s = some s' →
          w.Leads source (fun q q' => q' ∈ w.flow p q) s s' ∧ s'.Sound source lo := fun m hm s s' hs h =>
        ⟨ihs m hm (p := p) hwellp hp hs h, (Pattern.run_sound (p := p) hwell hwellp hs h).1⟩
      refine (Leads.many hone hs h).mono fun q q' hq' => ?_
      induction hq' with
      | refl => exact self_mem_closure w.mem_states q
      | tail _ hq' hm => exact mem_closure w.mem_states hm hq'
    | node k p =>
      have hwp : p.wellBuilt = true := (Bool.and_eq_true_iff.mp hwellp).2
      simp only [checks, Bool.and_eq_true, bne_iff_ne, Bool.not_eq_true'] at hp
      obtain ⟨done, hdone, rfl⟩ := Option.map_eq_some_iff.mp h
      refine hskip.behind ((Leads.close hp.1.1 (ih hwp hp.2 hs.skip.inner hdone) ?_).mono fun q q' hq' => ?_)
      · exact List.all_eq_true.mp hp.1.2
      · exact List.mem_singleton.mpr hq'
    | group k p =>
      have hwp : p.wellBuilt = true := (Bool.and_eq_true_iff.mp hwellp).2
      simp only [checks, Bool.and_eq_true, bne_iff_ne, Bool.not_eq_true'] at hp
      obtain ⟨done, hdone, rfl⟩ := Option.map_eq_some_iff.mp h
      refine hskip.behind ((Leads.closeGroup hp.1.1 (ih hwp hp.2 hs.skip.inner hdone) ?_).mono fun q q' hq' => ?_)
      · exact List.all_eq_true.mp hp.1.2
      · rcases hq' with rfl | ⟨hq', hnext⟩
        · exact List.mem_cons_self ..
        · exact List.mem_cons_of_mem _ (List.mem_filter.mpr ⟨hq', List.contains_iff_mem.mpr hnext⟩)
    | part r p =>
      obtain ⟨done, hdone, rfl⟩ := Option.map_eq_some_iff.mp h
      exact hskip.behind (.closePart (ih (p := p) hwellp hp hs.skip.inner hdone) r)
    | rule r => exact (ih (hwell r) (hw.checks r) hs h).mono fun q => hw.after r q (w.mem_states q)
    | ahead p =>
      obtain ⟨_, -, rfl⟩ := Option.map_eq_some_iff.mp h
      exact hstay s
    | absent p =>
      rw [Pattern.run_absent] at h
      split at h
      · cases h; exact hstay s
      · cases h
    | ending e =>
      obtain ⟨t, -, rfl⟩ := Option.map_eq_some_iff.mp h
      exact (Leads.after hw.comments s t).behind (hstay _)
    | inside around' p => exact ih (p := p) hwellp hp hs h
    | amid around' =>
      have h : (if around = around' then some s else none) = some s' := h
      split at h
      · cases h; exact hstay s
      · cases h
    | blanks => cases h; exact hskip.behind (hstay _)
    | finish =>
      have h : (if s.rest.isEmpty then some s else none) = some s' := h
      split at h
      · cases h; exact hstay s
      · cases h

/-! ### Whole sources -/

/-- Whether the watch says of all sources that their nodes are accepted. -/
structure WatchesSources [DecidableEq σ] (w : Watch Rule σ) : Prop where
  rules : ∀ d, w.Watches (Grammar.rules d)
  program : w.checks Grammar.program = true
  /-- What cannot be read stands at the end of a source. -/
  root : ∀ q ∈ w.start .program :: w.flow Grammar.program (w.start .program),
    w.accepts q = true ∧ w.accepts (w.step q ⟨.unread, []⟩) = true
  unread : w.accepts (w.start .unread) = true

/-- The rules of the grammar. -/
def allRules : List Rule :=
  [.type, .plainType, .typeOperand, .typeArguments, .typeParameters, .objectType, .resultType, .signature, .sequence,
    .expression, .operand, .primary, .arrow, .target, .parameters, .functionBody, .classBody, .decorator, .markup,
    .declarators, .declaration, .block, .statement]

/-- Checks whether a watch is right about the grammars. -/
def isRight [DecidableEq σ] (w : Watch Rule σ) : Bool :=
  ([.typescript, .tsx].all fun d => allRules.all fun r =>
    w.checks (Grammar.rules d r) && w.states.all fun q =>
      (w.flow (Grammar.rules d r) q).all (w.after r q).contains) &&
  w.checks Grammar.program && w.accepts (w.start .comment) && w.accepts (w.start .unread) &&
  (w.start .program :: w.flow Grammar.program (w.start .program)).all fun q =>
    w.accepts q && w.accepts (w.step q ⟨.unread, []⟩)

theorem watchesSources_of_isRight [DecidableEq σ] {w : Watch Rule σ} (h : w.isRight = true) : w.WatchesSources := by
  simp only [isRight, Bool.and_eq_true, List.all_eq_true] at h
  obtain ⟨⟨⟨⟨hrules, hprogram⟩, hcomments⟩, hunread⟩, hroot⟩ := h
  have hrule : ∀ (d : Dialect) (r : Rule), w.checks (Grammar.rules d r) = true ∧ ∀ q ∈ w.states,
      ∀ q' ∈ w.flow (Grammar.rules d r) q, (w.after r q).contains q' = true := fun d r =>
    hrules d (by cases d <;> decide) r (by cases r <;> decide)
  exact ⟨fun d => ⟨fun r q hq q' hq' => List.contains_iff_mem.mp ((hrule d r).2 q hq q' hq'), fun r => (hrule d r).1,
    hcomments⟩, hprogram, hroot, hunread⟩

/-- Every node of a tree is accepted. -/
theorem parse_accepts [DecidableEq σ] {w : Watch Rule σ} (hw : w.WatchesSources) (d : Dialect) (source : Bytes) :
    (parse d source).Everywhere (w.Accepts source) := by
  have hread : ∃ q ∈ w.start .program :: w.flow Grammar.program (w.start .program),
      w.along (w.start .program) (Tree.sights source (readProgram d source).found.reverse) = q ∧
        ∀ t ∈ (readProgram d source).found, t.Everywhere (w.Accepts source) := by
    unfold readProgram
    dsimp only
    cases hrun : Pattern.run (Grammar.rules d) (stepsPerByte * (source.length + 1)) .statement
        Grammar.program ⟨0, source, []⟩ with
    | none => exact ⟨_, List.mem_cons_self .., rfl, fun _ ht => absurd ht List.not_mem_nil⟩
    | some r =>
      have hsound : Reading.Sound source 0 ⟨0, source, []⟩ :=
        ⟨⟨rfl, Nat.zero_le _⟩, Tree.PlacedIn.nil (Nat.le_refl _)⟩
      obtain ⟨added, hfound, hall, hq⟩ := run_flow (hw.rules d) (Grammar.rules_wellBuilt d)
        Grammar.program_wellBuilt hw.program hsound hrun
      have hfound : r.found = added := hfound.trans (List.append_nil added)
      rw [Option.getD_some, hfound]
      exact ⟨_, List.mem_cons_of_mem _ (hq _), rfl, hall⟩
  obtain ⟨q, hq, halong, hall⟩ := hread
  obtain ⟨haccepts, hunread⟩ := hw.root q hq
  have hchildren : (parse d source).children = (readProgram d source).found.reverse ++
      if (readProgram d source).rest.isEmpty then []
      else [Tree.leaf .unread (readProgram d source).offset source.length] := rfl
  refine Tree.everywhere_iff.mpr ⟨?_, ?_⟩
  · unfold Accepts
    rw [hchildren, parse_kind, Tree.sights_append, along_append, halong]
    split
    · exact haccepts
    · exact hunread
  · rw [hchildren]
    refine List.forall_mem_append.mpr ⟨fun t ht => hall t (List.mem_reverse.mp ht), ?_⟩
    split
    · exact fun _ ht => absurd ht List.not_mem_nil
    · exact List.forall_mem_singleton.mpr (Tree.everywhere_leaf hw.unread)

end Watch

/-! ### Holders -/

namespace Tree

mutual

/-- What occurs below a node is held by what occurs there too. -/
theorem holder_of_occurrence {above rest : List Tree} {u holder : Tree} :
    ∀ {t : Tree}, (u, holder :: rest) ∈ t.occurrences above →
      (u = t ∧ above = holder :: rest) ∨ (u ∈ holder.children ∧ (holder, rest) ∈ t.occurrences above)
  | .node k r s e cs, ho => by
    unfold occurrences at ho ⊢
    rcases List.mem_cons.mp ho with ho | ho
    · cases ho
      exact .inl ⟨rfl, rfl⟩
    · rcases holder_of_occurrenceIn ho with ⟨hu, habove⟩ | ⟨hu, hholder⟩
      · obtain ⟨rfl, rfl⟩ := List.cons.inj habove
        exact .inr ⟨hu, List.mem_cons_self ..⟩
      · exact .inr ⟨hu, List.mem_cons_of_mem _ hholder⟩

theorem holder_of_occurrenceIn {above rest : List Tree} {u holder : Tree} :
    ∀ {l : List Tree}, (u, holder :: rest) ∈ occurrencesIn above l →
      (u ∈ l ∧ above = holder :: rest) ∨ (u ∈ holder.children ∧ (holder, rest) ∈ occurrencesIn above l)
  | [], ho => by
    unfold occurrencesIn at ho
    cases ho
  | t :: l, ho => by
    unfold occurrencesIn at ho ⊢
    rcases List.mem_append.mp ho with ho | ho
    · rcases holder_of_occurrence ho with ⟨rfl, habove⟩ | ⟨hu, hholder⟩
      · exact .inl ⟨List.mem_cons_self .., habove⟩
      · exact .inr ⟨hu, List.mem_append_left _ hholder⟩
    · rcases holder_of_occurrenceIn ho with ⟨hu, habove⟩ | ⟨hu, hholder⟩
      · exact .inl ⟨List.mem_cons_of_mem _ hu, habove⟩
      · exact .inr ⟨hu, List.mem_append_right _ hholder⟩

end

end Tree
end Codemod.Syntax

namespace Codemod

open Syntax

variable {f : SourceFile} {t holder : Tree} {rest : List Tree}

/-- What is held by a node of a file is a child of it, and the node occurs itself. -/
theorem SourceFile.holder_of_occurrence (h : (t, holder :: rest) ∈ f.tree.occurrences []) :
    t ∈ holder.children ∧ (holder, rest) ∈ f.tree.occurrences [] := by
  rcases Tree.holder_of_occurrence h with ⟨-, habove⟩ | hholder
  · cases habove
  · exact hholder

/-- Every node of a file is accepted. -/
theorem SourceFile.accepts {σ : Type} [DecidableEq σ] {w : Watch Rule σ} (hw : w.WatchesSources)
    (h : (t, rest) ∈ f.tree.occurrences []) : w.Accepts f.text t :=
  (Tree.everywhere_iff.mp ((Watch.parse_accepts hw f.dialect f.text).of_occurrence h)).1

end Codemod
