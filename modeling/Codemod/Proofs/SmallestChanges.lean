import Codemod.Proofs.DisjointEdits
import Codemod.Proofs.ExportEdits
import Codemod.Proofs.SecondNaming

/-!
# What the first pass changes

Naming a default export writes whole statements, with the comments above them, although most of the bytes
that it writes stand there already. What is left of a batch when those are left out makes the same text: a
word is taken away, a value is bound to a name, or a word is put before each declaration and one statement
goes with its comments and the blanks beside it.

Main statements:

* `Patch.Trims.patched_eq` says that patches do the same without the bytes that they write back;
* `Edit.applyAll_trimmed` says so of batches;
* `SourceFile.removed_removeStatement` bounds what is removed with a statement;
* `naming_makes_changes_only` says what naming a default export changes in the text of its file.
-/

namespace Codemod

open Syntax Syntax.Tree

/-! ### Bytes that are written back -/

/-- Whether a patch is what is left of another one when bytes that it writes back at its ends are left
out. -/
structure Patch.Trims (t : Bytes) (p q : Patch) : Prop where
  start_le : p.start ≤ q.start
  le : q.start ≤ q.stop
  stop_le : q.stop ≤ p.stop
  bytes_eq : p.bytes = t.slice p.start q.start ++ q.bytes ++ t.slice q.stop p.stop

namespace Patch

variable {t : Bytes} {lo hi : Nat} {p q : Patch} {ps qs : List Patch}

theorem Trims.refl (h : p.start ≤ p.stop) : p.Trims t p :=
  ⟨Nat.le_refl _, h, Nat.le_refl _, by simp [Bytes.slice]⟩

/-- Patches do the same without the bytes that they write back. -/
theorem Trims.patched_eq (h : List.Forall₂ (Trims t) ps qs) (hps : InOrder lo hi ps) :
    InOrder lo hi qs ∧ patched t lo hi ps = patched t lo hi qs := by
  induction h generalizing lo with
  | nil => exact ⟨hps, rfl⟩
  | @cons p q ps qs hpq _ ih =>
    obtain ⟨hlo, hle, hrest⟩ := hps
    obtain ⟨hqs, hsame⟩ := ih hrest
    -- What is written back behind the patch stays as it is.
    have hgap : InOrder q.stop p.stop [] := hpq.stop_le
    have hbehind : patched t q.stop hi qs = t.slice q.stop p.stop ++ patched t p.stop hi qs :=
      patched_append hgap hqs
    refine ⟨⟨Nat.le_trans hlo hpq.start_le, hpq.le, hgap.append hqs⟩, ?_⟩
    calc patched t lo hi (p :: ps)
        = t.slice lo p.start ++ p.bytes ++ patched t p.stop hi qs := by rw [patched, hsame]
      _ = t.slice lo q.start ++ q.bytes ++ (t.slice q.stop p.stop ++ patched t p.stop hi qs) := by
        rw [hpq.bytes_eq, ← slice_append_slice hlo hpq.start_le]
        simp only [List.append_assoc]
      _ = patched t lo hi (q :: qs) := by rw [patched, hbehind]

end Patch

namespace Edit

variable {t u : Bytes} {e c e' c' : Edit} {edits changes : List Edit}

/-- Whether a change is what is left of an edit when bytes that it writes back are left out. The change does
not lie at the very end of the edit. -/
structure Trims (t : Bytes) (e c : Edit) : Prop where
  patch : e.patch.Trims t c.patch
  start_lt : c.start < e.stop

/-- Of edits that lie apart one is behind the other exactly when its change is. -/
theorem Trims.isBehind_eq (h : e.Trims t c) (h' : e'.Trims t c') (hapart : e.Apart e') :
    e.isBehind e' = c.isBehind c' := by
  obtain ⟨⟨hstart, hle, hstop, -⟩, hlt⟩ := h
  obtain ⟨⟨hstart', hle', hstop', -⟩, hlt'⟩ := h'
  simp only [Edit.patch] at hstart hle hstop hstart' hle' hstop'
  rcases hapart with hbefore | hbehind
  · have hedit : e.isBehind e' = false := isBehind_eq_false_iff.mpr (by omega)
    have hchange : c.isBehind c' = false := isBehind_eq_false_iff.mpr (by omega)
    rw [hedit, hchange]
  · have hedit : e.isBehind e' = true := by simp [isBehind]; omega
    have hchange : c.isBehind c' = true := by simp [isBehind]; omega
    rw [hedit, hchange]

theorem Trims.insertOrdered (he : e.Trims t c) (h : List.Forall₂ (Trims t) edits changes)
    (hapart : ∀ f ∈ edits, f.Apart e) :
    List.Forall₂ (Trims t) (insertOrdered e edits) (insertOrdered c changes) := by
  induction h with
  | nil => exact .cons he .nil
  | @cons f g rest more hfirst hrest ih =>
    obtain ⟨hf, hothers⟩ := List.forall_mem_cons.mp hapart
    unfold Edit.insertOrdered
    rw [hfirst.isBehind_eq he hf]
    split
    · exact .cons hfirst (ih hothers)
    · exact .cons he (.cons hfirst hrest)

/-- Edits that lie apart are put in order as their changes are. -/
theorem Trims.ordered (h : List.Forall₂ (Trims t) edits changes) (hapart : edits.Pairwise Apart) :
    List.Forall₂ (Trims t) (ordered edits) (ordered changes) := by
  induction h with
  | nil => exact .nil
  | cons hfirst _ ih =>
    obtain ⟨hothers, hrest⟩ := List.pairwise_cons.mp hapart
    refine Trims.insertOrdered hfirst (ih hrest) fun f hf => ?_
    exact (hothers f (mem_ordered_iff.mp hf)).symm

/-- A batch that can be applied does the same without the bytes that it writes back. -/
theorem applyAll_trimmed (happlied : applyAll edits t = .ok u) (hedits : ∀ e ∈ edits, e.start ≤ e.stop)
    (h : List.Forall₂ (fun e c => e.patch.Trims t c.patch) (ordered edits) (ordered changes)) :
    u = replacedAtOnce t changes := by
  obtain ⟨hstops, hapart⟩ := (exists_applyAll_iff hedits).mp ⟨u, happlied⟩
  have hchange : ∀ c ∈ changes, ∃ e ∈ edits, e.patch.Trims t c.patch := fun c hc => by
    obtain ⟨e, he, htrims⟩ := exists_mem_of_forall₂ h c (mem_ordered_iff.mpr hc)
    exact ⟨e, mem_ordered_iff.mp he, htrims⟩
  have hchanges : ∀ c ∈ changes, c.start ≤ c.stop := fun c hc => by
    obtain ⟨_, -, htrims⟩ := hchange c hc
    exact htrims.le
  -- The changes can be applied, as each stays within its edit.
  obtain ⟨u', happlied'⟩ : ∃ u', applyAll changes t = .ok u' := by
    refine (exists_applyAll_iff hchanges).mpr ⟨fun c hc => ?_, ?_⟩
    · obtain ⟨e, he, htrims⟩ := hchange c hc
      exact Nat.le_trans htrims.stop_le (hstops e he)
    · rw [← (ordered_perm changes).pairwise_iff Apart.symm]
      refine pairwise_of_forall₂ h (((ordered_perm edits).pairwise_iff Apart.symm).mpr hapart) ?_
      intro e _ e' _ hee c c' hc hc'
      exact hee.imp (fun hle => Nat.le_trans hc.stop_le (Nat.le_trans hle hc'.start_le))
        fun hle => Nat.le_trans hc'.stop_le (Nat.le_trans hle hc.start_le)
  obtain ⟨horder, hu⟩ := applyOrdered_eq_patched happlied (Nat.le_refl _) fun e he =>
    hedits e (mem_ordered_iff.mp he)
  obtain ⟨-, hu'⟩ := applyOrdered_eq_patched happlied' (Nat.le_refl _) fun c hc =>
    hchanges c (mem_ordered_iff.mp hc)
  have hpatches : List.Forall₂ (Patch.Trims t) ((ordered edits).reverse.map patch)
      ((ordered changes).reverse.map patch) := by
    rw [List.forall₂_map_left_iff, List.forall₂_map_right_iff]
    exact List.rel_reverse h
  calc u = u' := by rw [hu, hu', (Patch.Trims.patched_eq hpatches horder).2]
    _ = replacedAtOnce t changes := applyAll_at_once happlied' hchanges

end Edit

/-! ### Statements with what is written above and behind them -/

/-- Whether all bytes of a text are blanks within a line. -/
def Bytes.BlankLine (line : Bytes) : Prop :=
  ∀ b ∈ line, isBlank b = true ∧ b ≠ newline

/-- Whether a text stays within its line: it consists of blanks, and at most its last byte ends a line. -/
def Bytes.BlankToNext (t : Bytes) : Prop :=
  ∃ line, line.BlankLine ∧ (t = line ∨ t = line ++ [newline])

namespace SourceFile

variable {f : SourceFile} {t u : Tree} {text : Bytes} {start stop : Nat} {name : String}

/-- What is taken before an offset lies on its line. -/
theorem blankLine_widenBack (h : start ≤ text.length) :
    (text.slice (widenBack text start) start).BlankLine := by
  obtain ⟨rest, hrest, -⟩ := Bytes.exists_takeWhile_append (· != Bytes.newline) (text.take start).reverse
  unfold widenBack
  dsimp only
  split
  case isFalse =>
    have hnone : text.slice start start = [] := by simp [Bytes.slice]
    rw [hnone]
    exact fun b hb => absurd hb List.not_mem_nil
  case isTrue hall =>
    have hline := fun b => SourceFile.mem_takeWhile (a := b) (p := (· != Bytes.newline))
      (l := (text.take start).reverse)
    generalize (text.take start).reverse.takeWhile (· != Bytes.newline) = line at hrest hall hline ⊢
    have htake : text.take start = rest.reverse ++ line.reverse := by
      rw [← List.reverse_append, ← hrest, List.reverse_reverse]
    have hlength : start - line.length = rest.reverse.length := by
      have := congrArg List.length htake
      simp only [List.length_take, List.length_append, List.length_reverse] at this
      rw [List.length_reverse]
      omega
    unfold Bytes.slice
    rw [htake, hlength, List.drop_left]
    intro b hb
    have hb := List.mem_reverse.mp hb
    exact ⟨List.all_eq_true.mp hall b hb, by simpa using hline b hb⟩

/-- What is taken behind an offset reaches at most to the next line. -/
theorem blankToNext_widenOn (h : stop ≤ text.length) :
    (text.slice stop (widenOn text stop)).BlankToNext := by
  obtain ⟨rest, hrest, hhead⟩ := Bytes.exists_takeWhile_append (· != Bytes.newline) (text.drop stop)
  unfold widenOn
  dsimp only
  split
  case isFalse =>
    refine ⟨[], fun b hb => absurd hb List.not_mem_nil, .inl ?_⟩
    simp [Bytes.slice]
  case isTrue hall =>
    have hline := fun b => SourceFile.mem_takeWhile (a := b) (p := (· != Bytes.newline))
      (l := text.drop stop)
    generalize (text.drop stop).takeWhile (· != Bytes.newline) = line at hrest hall hline ⊢
    have hlength : text.length = stop + (line.length + rest.length) := by
      have := congrArg List.length hrest
      rw [List.length_drop, List.length_append] at this
      omega
    refine ⟨line, fun b hb => ⟨List.all_eq_true.mp hall b hb, by simpa using hline b hb⟩, ?_⟩
    unfold Bytes.slice
    rw [List.drop_take, hrest]
    cases rest with
    | nil =>
      left
      rw [List.append_nil]
      exact List.take_of_length_le (by rw [hlength, List.length_nil]; omega)
    | cons c more =>
      right
      have hc : c = Bytes.newline := by simpa using hhead c rfl
      have hcount : min (stop + line.length + 1) text.length - stop = line.length + 1 := by
        rw [hlength, List.length_cons]
        omega
      rw [hcount, List.take_length_add_append, hc]
      rfl

/-- The range that is removed with a statement: from the first of the comments that lead it, or from the
statement itself, to its end, and among blanks back on its line and on to the next line at most. -/
structure Removed (f : SourceFile) (t : Tree) (e : Edit) : Prop where
  text : e.text = ""
  start_le : e.start ≤ f.opening t
  le_stop : t.stop ≤ e.stop
  stop_le : e.stop ≤ f.text.length
  before : (f.text.slice e.start (f.opening t)).BlankLine
  behind : (f.text.slice t.stop e.stop).BlankToNext

theorem removed_removeStatement (ht : t ∈ f.tree.children) : f.Removed t (f.removeStatement t) := by
  obtain ⟨hstart, hstop⟩ := f.removeStatement_place t
  obtain ⟨-, hplaced, hlength⟩ := f.nodes_placed.bounds ht
  have hopening := (f.opening_bounds t).1
  have hle := hplaced.start_le
  refine ⟨?_, ?_, ?_, ?_, ?_, ?_⟩
  · unfold removeStatement
    rfl
  · rw [hstart]
    exact widenBack_le ..
  · rw [hstop]
    exact le_widenOn hlength
  · rw [hstop]
    exact widenOn_le_of_visible (Bytes.visibleAt_length _) hlength
  · rw [hstart]
    exact blankLine_widenBack (by omega)
  · rw [hstop]
    exact blankToNext_widenOn hlength

/-- A replaced statement is written with what stood above it. -/
theorem replaceStatement_text {text : String} {e : Edit} (h : f.replaceStatement t text true = .ok e) :
    Bytes.ofString e.text = f.text.slice (f.opening t) t.start ++ Bytes.ofString text := by
  unfold replaceStatement at h
  unfold opening
  rw [if_pos rfl] at h
  cases hlead : f.leadingComments t with
  | nil =>
    rw [hlead] at h
    cases h
    simp [Bytes.slice, replaceEdit]
  | cons c more =>
    rw [hlead] at h
    obtain ⟨above, habove, h⟩ := Except.bind_eq_ok h
    cases h
    rw [← ofString_of_decode habove, ← Bytes.ofString_append]

theorem leadingComments_sublist (f : SourceFile) (t : Tree) :
    (f.leadingComments t).Sublist f.tree.children := by
  have hrun : ((f.nodesBefore t).takeWhile (·.is .comment)).reverse.Sublist f.tree.children := by
    have hbefore : (f.nodesBefore t).reverse.Sublist f.tree.children := by
      unfold nodesBefore
      rw [List.reverse_reverse]
      exact List.takeWhile_sublist _
    exact (List.takeWhile_sublist _).reverse.trans hbefore
  unfold leadingComments
  dsimp only
  split
  · split
    · exact (List.dropLast_sublist _).reverse.trans hrun
    · exact hrun
  · exact hrun

/-- The comments that lead a statement stand between where it begins with them and where it begins itself. -/
theorem leadingComments_bounds {c : Tree} (ht : t ∈ f.tree.children) (hc : c ∈ f.leadingComments t) :
    c ∈ f.tree.children ∧ f.opening t ≤ c.start ∧ c.stop ≤ t.start := by
  have hmem := (f.leadingComments_sublist t).mem hc
  refine ⟨hmem, ?_, ?_⟩
  · have hplaced := f.nodes_placed.sublist (f.leadingComments_sublist t)
    unfold opening
    cases hlead : f.leadingComments t with
    | nil =>
      rw [hlead] at hc
      cases hc
    | cons first more =>
      rw [hlead] at hc hplaced
      obtain ⟨-, hfirst, hmore⟩ := hplaced.uncons
      rcases List.mem_cons.mp hc with rfl | hc
      · exact Nat.le_refl _
      · exact Nat.le_trans hfirst.start_le (hmore.bounds hc).1
  · have hbefore : c.start < t.start := by
      have hrun := (List.takeWhile_sublist _).mem (mem_leadingComments hc)
      simpa using mem_takeWhile (List.mem_reverse.mp hrun)
    have hle := (f.nodes_placed.bounds ht).2.1.start_le
    rcases f.nodes_placed.apart hmem ht with rfl | hstop | hstop <;> omega

/-! ### Declared names -/

/-- Whether a node spans another one, and what that one holds lies in order. -/
def Spans (source : Bytes) (t u : Tree) : Prop :=
  t.start ≤ u.start ∧ u.Placed source ∧ u.stop ≤ t.stop

theorem Spans.trans {source : Bytes} {v : Tree} (h : Spans source t u) (h' : Spans source u v) :
    Spans source t v :=
  ⟨Nat.le_trans h.1 h'.1, h'.2.1, Nat.le_trans h'.2.2 h.2.2⟩

theorem Spans.self {source : Bytes} (h : t.Placed source) : Spans source t t :=
  ⟨Nat.le_refl _, h, Nat.le_refl _⟩

theorem spans_child? {source : Bytes} {r : Role} (h : t.Placed source) (hu : t.child? r = some u) :
    Spans source t u :=
  h.children.bounds (List.mem_of_find?_eq_some hu)

/-- A statement spans the declaration that it is or exports. -/
theorem spans_held {source : Bytes} (h : t.Placed source) (hu : held? t = some u) : Spans source t u := by
  cases hexport : t.is .exportStatement with
  | false =>
    rw [held?_of_other hexport] at hu
    cases hu
    exact .self h
  | true =>
    rw [held?_of_export hexport] at hu
    exact spans_child? h (exported?_eq_some.mp hu).2.2

theorem spans_declared {source : Bytes} (h : t.Placed source) : Spans source t (declared t) := by
  unfold declared
  split
  · cases hfirst : t.named.head? with
    | none => exact .self h
    | some u => exact h.children.bounds (mem_named_iff.mp (List.mem_of_head? hfirst)).1
  · exact .self h

/-- A declaration spans the names that it declares. -/
theorem spans_nameNode {source : Bytes} (h : t.Placed source) (hu : u ∈ nameNodes t) : Spans source t u := by
  unfold nameNodes at hu
  split at hu
  · obtain ⟨v, hv, hname⟩ := List.mem_filterMap.mp (List.mem_filter.mp hu).1
    have hbound : Spans source t v := h.children.bounds (List.mem_filter.mp hv).1
    exact hbound.trans (spans_child? hbound.2.1 hname)
  · split at hu
    · exact spans_child? h (Option.mem_toList.mp hu)
    · cases hu

/-- What declares a name holds a declaration with it. -/
theorem exists_declared_of_declares (h : f.declares name t = .ok true) :
    ∃ c names, held? t = some c ∧ f.declaredNames (declared c) = .ok names ∧ name ∈ names := by
  obtain ⟨c, hc⟩ := exists_held_of_declares h
  rw [declares_eq_of_held? hc] at h
  cases hnames : f.declaredNames (declared c) with
  | error e =>
    rw [hnames] at h
    cases h
  | ok names =>
    rw [hnames] at h
    exact ⟨c, names, hc, hnames, by simpa using Except.ok.inj h⟩

/-- The name that a statement declares stands within it. -/
theorem exists_name_of_declares (ht : t.Placed f.text) (h : f.declares name t = .ok true) :
    ∃ n, Spans f.text t n ∧ f.textOf n = .ok name := by
  obtain ⟨c, names, hc, hnames, hname⟩ := exists_declared_of_declares h
  have hheld := spans_held ht hc
  have hdeclared := hheld.trans (spans_declared hheld.2.1)
  obtain ⟨n, hn, htext⟩ := Except.exists_of_mem_mapM hnames name hname
  exact ⟨n, hdeclared.trans (spans_nameNode hdeclared.2.1 hn), htext⟩

/-- All items for which the test succeeds are selected. -/
theorem selectM_complete {ε α : Type} {p : α → Except ε Bool} {l r : List α} (h : selectM p l = .ok r)
    {a : α} (ha : a ∈ l) (hp : p a = .ok true) : a ∈ r := by
  induction l generalizing r with
  | nil => cases ha
  | cons b rest ih =>
    obtain ⟨keep, hkeep, h⟩ := Except.bind_eq_ok h
    obtain ⟨more, hmore, h⟩ := Except.bind_eq_ok h
    cases h
    rcases List.mem_cons.mp ha with rfl | ha
    · cases hkeep.symm.trans hp
      exact List.mem_cons_self ..
    · split
      · exact List.mem_cons_of_mem _ (ih hmore ha)
      · exact ih hmore ha

/-- A statement that declares a name is not empty. -/
theorem start_lt_of_declares (ht : t.Placed f.text) (hname : Bytes.ofString name ≠ [])
    (h : f.declares name t = .ok true) : t.start < t.stop := by
  obtain ⟨n, ⟨hstart, -, hstop⟩, htext⟩ := exists_name_of_declares ht h
  have hlength : (Bytes.ofString name).length ≤ n.stop - n.start := by
    rw [ofString_of_textOf htext, Tree.text, Bytes.slice, List.length_drop, List.length_take]
    omega
  have hpos := List.length_pos_iff.mpr hname
  omega

end SourceFile

/-! ### The changes -/

namespace NamedExport

open SourceFile

variable {f : SourceFile} {d : DefaultExport} {name : String} {edits : List Edit}

/-- What exporting a default export as `name` changes in the text of a file. -/
inductive Changes (f : SourceFile) (d : DefaultExport) (name : String) : List Edit → Prop
  /-- A declaration loses the word that makes it the default, and the spaces and tabs behind that. -/
  | unmark {word : Tree} {stop : Nat} (hform : d.form = .declaration)
      (hword : d.statement.childOfKind? .defaultWord = some word) (hstop : word.stop ≤ stop)
      (hspaces : ∀ b ∈ f.text.slice word.stop stop, b = 32 ∨ b = 9)
      (hall : ∀ b, f.text[stop]? = some b → b ≠ 32 ∧ b ≠ 9) :
      Changes f d name [⟨word.start, stop, ""⟩]
  /-- A value is bound to the name. The semicolon behind it stays, if there is one. -/
  | bind {value mark : String} (hform : d.form = .expression) (hvalue : f.textOf d.target = .ok value)
      (hmark : mark = if d.statement.children.getLast?.any (·.is .semicolon) then ";" else "") :
      Changes f d name [⟨d.statement.start, d.statement.stop, s!"export const {name} = {value}{mark}"⟩]
  /-- What declares the name and is not exported is exported where it stands, and the default export of the
  name is removed. -/
  | move {definitions : List Tree} {removal : Edit} (hform : d.form = .identifier)
      (hname : f.textOf d.target = .ok name) (hdefinitions : f.findDeclarations name = .ok definitions)
      (hremoval : f.Removed d.statement removal) :
      Changes f d name ((definitions.filter fun t => !t.is .exportStatement).map (fun t =>
        ⟨t.start, t.start, "export "⟩) ++ [removal])

/-- Whether a statement is written anew when a default export is exported as `name`. -/
def Rewrites (f : SourceFile) (d : DefaultExport) (name : String) (t : Tree) : Prop :=
  match d.form with
  | .identifier => t ∈ f.statements ∧ t.is .exportStatement = false ∧ f.declares name t = .ok true
  | .declaration | .expression => t = d.statement

theorem slice_skipSpaces (t : Bytes) (offset : Nat) : t.slice offset (skipSpaces t offset) =
    (t.drop offset).takeWhile fun b => b == 32 || b == 9 := by
  unfold skipSpaces Bytes.slice
  rw [List.drop_take, Nat.add_sub_cancel_left]
  exact (List.prefix_iff_eq_take.mp (List.takeWhile_prefix _)).symm

/-- Whether changes leave the comments alone that lead the statements which are written anew. -/
def SparesComments (f : SourceFile) (d : DefaultExport) (name : String) (changes : List Edit) : Prop :=
  ∀ t, Rewrites f d name t → ∀ c ∈ f.leadingComments t, ∀ e ∈ changes, e.stop ≤ c.start ∨ c.stop ≤ e.start

/-- Of a declaration that is exported only the word that exports it is new. -/
theorem trims_of_exported {t : Tree} {e : Edit} (hlt : t.start < t.stop)
    (h : (do f.replaceStatement t ("export " ++ (← f.textOf t)) true) = .ok e) :
    e.Trims f.text ⟨t.start, t.start, "export "⟩ := by
  obtain ⟨own, hown, hedit⟩ := Except.bind_eq_ok h
  obtain ⟨hstart, hstop⟩ := replaceStatement_place hedit
  have hopening := (f.opening_bounds t).1
  refine ⟨⟨?_, Nat.le_refl _, ?_, ?_⟩, ?_⟩
  · exact Nat.le_trans (Nat.le_of_eq hstart) hopening
  · exact Nat.le_trans (Nat.le_of_lt hlt) (Nat.le_of_eq hstop.symm)
  · simp only [Edit.patch, replaceStatement_text hedit, hstart, hstop, Bytes.ofString_append,
      ofString_of_textOf hown, Tree.text, List.append_assoc]
  · exact Nat.lt_of_lt_of_le hlt (Nat.le_of_eq hstop.symm)

section

variable {u : Bytes} (ht : d.statement ∈ f.tree.children) (happlied : Edit.applyAll edits f.text = .ok u)

include ht happlied

theorem changes_of_declaration (hform : d.form = .declaration) (hdefault : isDefaultExport d.statement = true)
    (h : declarationEdits f d = .ok (name, edits)) :
    ∃ changes, Changes f d name changes ∧ u = Edit.replacedAtOnce f.text changes ∧
      SparesComments f d name changes := by
  obtain ⟨word, hword⟩ : ∃ word, d.statement.childOfKind? .defaultWord = some word := by
    obtain ⟨c, hc, hkind⟩ := List.any_eq_true.mp (Bool.and_eq_true_iff.mp hdefault).2
    exact Option.isSome_iff_exists.mp (List.find?_isSome.mpr ⟨c, hc, hkind⟩)
  have hedits : edits = [⟨word.start, skipSpaces f.text word.stop, ""⟩] := by
    unfold declarationEdits at h
    split at h
    · cases h
    · obtain ⟨own, -, h⟩ := Except.bind_eq_ok h
      rw [hword] at h
      cases h
      rfl
  obtain ⟨-, hstatement, -⟩ := f.nodes_placed.bounds ht
  obtain ⟨hlo, hplaced, hhi⟩ := hstatement.children.bounds (childOfKind?_eq_some hword).1
  have hle := hplaced.start_le
  have hskip : word.stop ≤ skipSpaces f.text word.stop := Nat.le_add_right ..
  have hbehind := (Bytes.getElem?_takeWhile (fun b => b == 32 || b == 9) f.text word.stop).2
  refine ⟨edits, ?_, Edit.applyAll_at_once happlied ?_, ?_⟩
  · rw [hedits]
    refine .unmark hform hword hskip (fun b hb => ?_) fun b hb => ?_
    · have hspace := mem_takeWhile (slice_skipSpaces f.text word.stop ▸ hb)
      simpa using hspace
    · simpa using hbehind b hb
  · rw [hedits]
    exact List.forall_mem_singleton.mpr (Nat.le_trans hle hskip)
  · intro t hrewrites c hc e he
    rw [hedits] at he
    obtain rfl := List.mem_singleton.mp he
    unfold Rewrites at hrewrites
    rw [hform] at hrewrites
    obtain rfl : t = d.statement := hrewrites
    exact .inr (Nat.le_trans (leadingComments_bounds ht hc).2.2 hlo)

theorem changes_of_expression (hform : d.form = .expression)
    (h : expressionEdits f d = .ok (name, edits)) :
    ∃ changes, Changes f d name changes ∧ u = Edit.replacedAtOnce f.text changes ∧
      SparesComments f d name changes := by
  unfold expressionEdits at h
  dsimp only at h
  generalize hmark : (if d.statement.children.getLast?.any (·.is .semicolon) then ";" else "") = mark at h
  split at h
  case isFalse => cases h
  obtain ⟨value, hvalue, h⟩ := Except.bind_eq_ok h
  obtain ⟨e, hedit, h⟩ := Except.bind_eq_ok h
  cases h
  obtain ⟨hstart, hstop⟩ := replaceStatement_place hedit
  have hopening := (f.opening_bounds d.statement).1
  have hle := (f.nodes_placed.bounds ht).2.1.start_le
  refine ⟨_, .bind hform hvalue hmark.symm, Edit.applyAll_trimmed happlied ?_ (.cons ?_ .nil), ?_⟩
  · refine List.forall_mem_singleton.mpr ?_
    omega
  · refine ⟨?_, hle, ?_, ?_⟩
    · exact Nat.le_trans (Nat.le_of_eq hstart) hopening
    · exact Nat.le_of_eq hstop.symm
    · simp only [Edit.patch, replaceStatement_text hedit, hstart, hstop]
      simp [Bytes.slice]
  · intro t hrewrites c hc e he
    obtain rfl := List.mem_singleton.mp he
    unfold Rewrites at hrewrites
    rw [hform] at hrewrites
    obtain rfl : t = d.statement := hrewrites
    exact .inr (leadingComments_bounds ht hc).2.2

theorem changes_of_identifier (hform : d.form = .identifier) (hsolid : d.target.is .identifier = true)
    (htarget : Spans f.text d.statement d.target) (h : identifierEdits f d = .ok (name, edits)) :
    ∃ changes, Changes f d name changes ∧ u = Edit.replacedAtOnce f.text changes ∧
      SparesComments f d name changes := by
  have hkeep := identifierEdits_keep ht h
  obtain ⟨own, hname, h⟩ := Except.bind_eq_ok h
  obtain ⟨definitions, hdefinitions, h⟩ := Except.bind_eq_ok h
  split at h
  case isTrue => cases h
  obtain ⟨exported, hexported, h⟩ := Except.bind_eq_ok h
  cases h
  obtain ⟨-, -, hlength⟩ := f.nodes_placed.bounds ht
  have hpos := htarget.2.1.start_lt (.inl hsolid)
  have hremoved := removed_removeStatement ht
  have hapart := ((Edit.exists_applyAll_iff fun e he => (hkeep e he).1).mp ⟨u, happlied⟩).2
  -- The name is not empty, and so nor is what declares it.
  have hfilled : Bytes.ofString name ≠ [] := by
    rw [ofString_of_textOf hname, ← List.length_pos_iff, Tree.text,
      Bytes.length_slice (Nat.le_trans htarget.2.2 hlength)]
    omega
  have hdefinition : ∀ t ∈ definitions, t ∈ f.statements ∧ t.start < t.stop := fun t hmem => by
    have hstatement := findDeclarations_subset hdefinitions t hmem
    have hplaced := (f.nodes_placed.bounds (f.statements_sublist.mem hstatement)).2.1
    exact ⟨hstatement, start_lt_of_declares hplaced hfilled (selectM_sound hdefinitions t hmem)⟩
  have hbelongs : List.Forall₂ (fun t e => e.Trims f.text ⟨t.start, t.start, "export "⟩)
      (definitions.filter fun t => !t.is .exportStatement) exported := by
    refine ((List.forall₂_and_left _ _).mpr ⟨fun t hmem => ?_, Except.forall₂_of_mapM_eq_ok hexported⟩).imp
      fun t e hte => trims_of_exported hte.1 hte.2
    exact (hdefinition t (List.mem_filter.mp hmem).1).2
  have htrims : List.Forall₂ (Edit.Trims f.text) (exported ++ [f.removeStatement d.statement])
      ((definitions.filter fun t => !t.is .exportStatement).map (fun t =>
        (⟨t.start, t.start, "export "⟩ : Edit)) ++ [f.removeStatement d.statement]) := by
    refine List.rel_append (List.forall₂_map_right_iff.mpr hbelongs.flip) (.cons ⟨.refl ?_, ?_⟩ .nil)
    · exact (hkeep _ (by simp)).1
    · have := hremoved.start_le
      have := hremoved.le_stop
      have := (f.opening_bounds d.statement).1
      have := htarget.1
      have := htarget.2.2
      omega
  refine ⟨_, .move hform hname hdefinitions hremoved, ?_, ?_⟩
  · exact Edit.applyAll_trimmed happlied (fun e he => (hkeep e he).1)
      ((Edit.Trims.ordered htrims hapart).imp fun _ _ h => h.patch)
  · intro t hrewrites c hc e he
    unfold Rewrites at hrewrites
    rw [hform] at hrewrites
    obtain ⟨hstatement, hother, hdeclares⟩ := hrewrites
    obtain ⟨hnode, hopening, hstop⟩ := leadingComments_bounds (f.statements_sublist.mem hstatement) hc
    rcases List.mem_append.mp he with he | he
    · -- A declaration begins before the comment or behind it, as nodes lie apart.
      obtain ⟨v, hv, rfl⟩ := List.mem_map.mp he
      have hmem := (hdefinition v (List.mem_filter.mp hv).1).1
      have hle := (f.nodes_placed.bounds (f.statements_sublist.mem hmem)).2.1.start_le
      rcases f.nodes_placed.apart (f.statements_sublist.mem hmem) hnode with rfl | hbefore | hbehind
      · exact .inl (Nat.le_refl _)
      · exact .inl (Nat.le_trans hle hbefore)
      · exact .inr hbehind
    · -- The statement is written anew with the comment, and lies apart from what is removed.
      obtain rfl := List.mem_singleton.mp he
      have hselected : t ∈ definitions.filter fun t => !t.is .exportStatement :=
        List.mem_filter.mpr ⟨selectM_complete hdefinitions hstatement hdeclares, by simpa using hother⟩
      obtain ⟨edit, hmem, hedit⟩ := exists_mem_of_forall₂ (Except.forall₂_of_mapM_eq_ok hexported).flip t hselected
      obtain ⟨_, -, hedit⟩ := Except.bind_eq_ok hedit
      obtain ⟨hstart, hend⟩ := replaceStatement_place hedit
      have hle := (f.nodes_placed.bounds (f.statements_sublist.mem hstatement)).2.1.start_le
      rcases (List.pairwise_append.mp hapart).2.2 edit hmem _ (List.mem_singleton_self _) with hbefore | hbehind
      · right
        omega
      · left
        omega

end

/-- The target of a default export is a name, where the form says so, and its statement spans it. -/
theorem target_of_ofStatement? {t : Tree} (ht : t.Placed f.text) (h : DefaultExport.ofStatement? t = some d)
    (hform : d.form = .identifier) : d.target.is .identifier = true ∧ Spans f.text d.statement d.target := by
  obtain ⟨hvalue, hname⟩ := DefaultExport.ofStatement?_identifier h hform
  rw [DefaultExport.ofStatement?_statement h]
  exact ⟨hname, spans_child? ht hvalue⟩

/-- What is planned for a default export makes the changes that it calls for. -/
theorem changes_of_edits {u : Bytes} (hd : f.defaultExports.outcome = .ok [d])
    (h : NamedExport.edits f d = .ok (name, edits)) (happlied : Edit.applyAll edits f.text = .ok u) :
    ∃ changes, Changes f d name changes ∧ u = Edit.replacedAtOnce f.text changes ∧
      SparesComments f d name changes := by
  obtain ⟨t, hstatement, hdefault, hof⟩ := exists_statement_of_defaultExports hd
  obtain rfl := DefaultExport.ofStatement?_statement hof
  have ht := f.statements_sublist.mem hstatement
  unfold NamedExport.edits at h
  cases hform : d.form with
  | identifier =>
    rw [hform] at h
    obtain ⟨hsolid, htarget⟩ := target_of_ofStatement? (f.nodes_placed.bounds ht).2.1 hof hform
    exact changes_of_identifier ht happlied hform hsolid htarget h
  | declaration =>
    rw [hform] at h
    exact changes_of_declaration ht happlied hform hdefault h
  | expression =>
    rw [hform] at h
    exact changes_of_expression ht happlied hform h

end NamedExport

open NamedExport

/-- A task of the first pass that succeeds on a file with one default export tells its name, and leaves the
text that the planned edits make. -/
theorem exportJob_text {w : Workspace} {f : SourceFile} {d : DefaultExport} {r : Option String}
    (hd : f.defaultExports.outcome = .ok [d]) (h : (exportJob.ending w f).result = .ok r) :
    ∃ name edits, r = some name ∧ NamedExport.edits f d = .ok (name, edits) ∧
      Edit.applyAll edits f.text = .ok (exportJob.ending w f).file.text := by
  have hplan : (plan f).outcome = some <$> NamedExport.edits f d := by
    rw [plan_outcome, hd]
    rfl
  have hplanned : ∀ {a es}, exportJob w.config w.knows f = .ok (a, some es) →
      ∃ name, a = some name ∧ NamedExport.edits f d = .ok (name, es) := by
    intro a es hjob
    obtain ⟨name, ha, hsome⟩ := exportJob_eq_ok hjob
    rw [hplan] at hsome
    obtain ⟨ne, hedits, heq⟩ := Except.map_eq_ok hsome
    cases heq
    exact ⟨name, ha, hedits⟩
  have hends := exportJob.ends w f
  generalize exportJob.ending w f = e at h hends ⊢
  cases hends with
  | failed => cases h
  | idle hjob =>
    -- With a default export there is something to commit.
    unfold exportJob at hjob
    rw [hplan] at hjob
    cases hedits : NamedExport.edits f d <;> rw [hedits] at hjob <;> cases hjob
  | unapplied => cases h
  | refused => cases h
  | clean hjob hedit =>
    cases h
    obtain ⟨name, ha, hedits⟩ := hplanned hjob
    exact ⟨name, _, ha, hedits, (SourceFile.edited_eq_ok hedit).1⟩
  | written hjob hedit =>
    cases h
    obtain ⟨name, ha, hedits⟩ := hplanned hjob
    exact ⟨name, _, ha, hedits, (SourceFile.edited_eq_ok hedit).1⟩

/-- Where the work on a file with one default export succeeds, it tells the name of its edits, and leaves the file
with the text that they make. -/
theorem Workspace.nameDefaultExport_text {w w' : Workspace} {f : SourceFile} {d : DefaultExport} {r : Option String}
    {j j' : Journal} (hw : w.paths.Nodup) (hf : w.file? f.path = some f) (hd : f.defaultExports.outcome = .ok [d])
    (h : Workspace.nameDefaultExport f w j = (.ok r, w', j')) :
    ∃ name edits g, r = some name ∧ NamedExport.edits f d = .ok (name, edits) ∧ w'.file? f.path = some g ∧
      Edit.applyAll edits f.text = .ok g.text := by
  obtain ⟨j₁, hends⟩ := exportJob_ends w f j hw hf
  rw [h] at hends
  obtain ⟨hresult, hrest⟩ := Prod.mk.inj hends
  obtain ⟨rfl, -⟩ := Prod.mk.inj hrest
  obtain ⟨name, edits, hr, hedits, happlied⟩ := exportJob_text hd hresult.symm
  refine ⟨name, edits, (exportJob.ending w f).file, hr, hedits, ?_, happlied⟩
  rw [← Job.ending_path exportJob w f] at hf ⊢
  exact Workspace.file?_settle ⟨_, hf⟩

/-- Naming a default export touches nothing else. For every project and every file in it with one default
export, where the work on the file succeeds, it tells a name, and the text that the file has then is the old
one with the changes made at once that the form of the default export calls for: a word with the spaces and
tabs behind it is taken away, the statement gives way to a constant, or a word is put before the declarations
of the name and one statement is removed with its comments and the blanks beside it. No other byte changes;
in particular the comments above the statements that are written anew are not touched. -/
theorem naming_makes_changes_only (w w' : Workspace) (f : SourceFile) (d : DefaultExport) (r : Option String)
    (j j' : Journal) (hw : w.paths.Nodup) (hf : w.file? f.path = some f)
    (hd : f.defaultExports.outcome = .ok [d])
    (h : Workspace.nameDefaultExport f w j = (.ok r, w', j')) :
    ∃ name changes g, r = some name ∧ Changes f d name changes ∧ w'.file? f.path = some g ∧
      g.text = Edit.replacedAtOnce f.text changes ∧ SparesComments f d name changes := by
  obtain ⟨name, edits, g, hr, hedits, hg, happlied⟩ := Workspace.nameDefaultExport_text hw hf hd h
  obtain ⟨changes, hchanges, htext, hspares⟩ := changes_of_edits hd hedits happlied
  exact ⟨name, changes, g, hr, hchanges, hg, htext, hspares⟩

/-- A file has one default export if one is found in it. -/
theorem SourceFile.exists_defaultExport {f : SourceFile}
    (h : (f.defaultExports.outcome.toOption.any fun ds => ds.length = 1) = true) :
    ∃ d, f.defaultExports.outcome = .ok [d] := by
  obtain ⟨ds, hds, hlength⟩ := (Option.any_eq_true _ _).mp h
  obtain ⟨d, rfl⟩ := List.length_eq_one_iff.mp (of_decide_eq_true hlength)
  cases hfound : f.defaultExports.outcome with
  | error e =>
    rw [hfound] at hds
    cases hds
  | ok ds =>
    rw [hfound] at hds
    cases hds
    exact ⟨d, rfl⟩

/-- How the work on a file has ended that tells a name and leaves a file that passes a test. -/
theorem Workspace.exists_named {w : Workspace} {f : SourceFile} (name : String) {p : SourceFile → Bool}
    (hname : (nameDefaultExport f w []).1.toOption = some (some name))
    (hfile : ((nameDefaultExport f w []).2.1.file? f.path).any p = true) :
    ∃ w' j' g, nameDefaultExport f w [] = (.ok (some name), w', j') ∧ w'.file? f.path = some g ∧ p g = true := by
  cases hrun : nameDefaultExport f w [] with
  | mk result rest =>
    rw [hrun] at hname hfile
    cases result with
    | error e => cases hname
    | ok value =>
      cases hname
      obtain ⟨g, hg, hp⟩ := (Option.any_eq_true _ _).mp hfile
      exact ⟨rest.1, rest.2, g, rfl, hg, hp⟩

/-- A module with a function that is declared twice, and exported further down. -/
def greetingModule : SourceFile :=
  ⟨samplePath "a.ts", .typescript, Bytes.ofString ("// Greets.\nfunction greet(): void;\n" ++
    "function greet() \x7b\x7d\n  // The default.\n  export default greet;  \n\ngreet();\n"), false⟩

/-- A project with no other module. -/
def greetingProject : Workspace := { sampleProject with files := [greetingModule] }

/-- Both declarations are exported below the comment, and two lines go. -/
theorem greetingModule_changes :
    ∃ d w' j' name changes g, greetingModule.defaultExports.outcome = .ok [d] ∧
      Workspace.nameDefaultExport greetingModule greetingProject [] = (.ok (some name), w', j') ∧
      Changes greetingModule d name changes ∧ w'.file? greetingModule.path = some g ∧
      g.text = Edit.replacedAtOnce greetingModule.text changes ∧
      g.text = Bytes.ofString ("// Greets.\nexport function greet(): void;\n" ++
        "export function greet() \x7b\x7d\n\ngreet();\n") := by
  obtain ⟨d, hd⟩ := SourceFile.exists_defaultExport (f := greetingModule) (by decide +kernel)
  obtain ⟨w', j', g, hrun, hg, htext⟩ := Workspace.exists_named (w := greetingProject) (f := greetingModule)
    "greet" (p := fun g => g.text = Bytes.ofString ("// Greets.\nexport function greet(): void;\n" ++
      "export function greet() \x7b\x7d\n\ngreet();\n")) (by decide +kernel) (by decide +kernel)
  obtain ⟨name, changes, g', hr, hchanges, hg', hmade, -⟩ := naming_makes_changes_only greetingProject w'
    greetingModule d (some "greet") [] j' (by decide) (by decide) hd hrun
  cases hr
  cases hg.symm.trans hg'
  exact ⟨d, w', j', "greet", changes, g, hd, hrun, hchanges, hg, hmade, of_decide_eq_true htext⟩

/-- A class with a name loses just the word before it, also where it is read as a value. -/
example : let f : SourceFile :=
      ⟨samplePath "a.ts", .typescript, Bytes.ofString "export default class A \x7b\x7d\nas(1);\n", false⟩
    (f.statements.any fun t => (t.child? .value).any (·.is .classExpression)) = true ∧
      (NamedExport.plan f).outcome.toOption = some (some ("A", [⟨7, 15, ""⟩])) := by decide +kernel

end Codemod
