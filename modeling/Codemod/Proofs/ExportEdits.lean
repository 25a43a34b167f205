import Codemod.Proofs.ImportPlaces
import Codemod.Proofs.Job
import Codemod.Proofs.Patches

/-!
# What the first pass leaves alone

Naming a default export changes the declarations of a name, the statement of the export, and the comments
and blanks beside them. The imports of the file keep their bytes: no edit reaches into one of them.

Main statements:

* `NamedExport.edits_keep` says which statements the edits for a default export leave alone, and
  `NamedExport.edits_spare` that the imports are among them;
* `exportJob_keeps_imports` says that a file after the first pass differs only beside its imports.
-/

namespace Codemod

open Syntax Syntax.Tree

/-- A range of a statement that begins and ends with what is visible. -/
structure SourceFile.Firm (f : SourceFile) (s : Tree) (lo hi : Nat) : Prop where
  mem : s ∈ f.tree.children
  kind : s.is .comment = false
  lower : s.start ≤ lo
  lt : lo < hi
  upper : hi ≤ s.stop
  begins : f.text.VisibleAt lo
  ends : f.text.LineVisible hi

/-- An edit that leaves the firm ranges of all statements but some as they are. -/
def Edit.Keeps (e : Edit) (f : SourceFile) (but : Tree → Prop) : Prop :=
  e.start ≤ e.stop ∧ ∀ s lo hi, f.Firm s lo hi → ¬ but s → e.stop ≤ lo ∨ hi ≤ e.start

/-- An edit that leaves every import of a file as it is. -/
def Edit.Spares (e : Edit) (f : SourceFile) : Prop :=
  e.start ≤ e.stop ∧ ∀ d ∈ f.imports, e.stop ≤ d.statement.start ∨ d.statement.stop ≤ e.start

/-- A text that comes from that of a file by patches beside its imports. -/
def SourceFile.KeepsImports (f : SourceFile) (text : Bytes) : Prop :=
  ∃ patches, Patch.InOrder 0 f.text.length patches ∧
    text = Patch.patched f.text 0 f.text.length patches ∧
    ∀ q ∈ patches, ∀ d ∈ f.imports, q.stop ≤ d.statement.start ∨ d.statement.stop ≤ q.start

namespace SourceFile

variable {f : SourceFile} {t c : Tree}

/-! ### The comments above a statement -/

theorem mem_leadingComments (h : c ∈ f.leadingComments t) :
    c ∈ (f.nodesBefore t).takeWhile (·.is .comment) := by
  unfold leadingComments at h
  dsimp only at h
  split at h
  · split at h
    · exact (List.dropLast_sublist _).mem (List.mem_reverse.mp h)
    · exact List.mem_reverse.mp h
  · exact List.mem_reverse.mp h

/-- Nodes that begin before an offset come before those that do not. -/
theorem mem_takeWhile_of_start_lt {source : Bytes} {lo hi offset : Nat} {l : List Tree}
    (h : PlacedIn source lo hi l) (hc : c ∈ l) (hstart : c.start < offset) :
    c ∈ l.takeWhile fun u => u.start < offset := by
  induction l generalizing lo with
  | nil => cases hc
  | cons u rest ih =>
    obtain ⟨-, hu, hrest⟩ := h.uncons
    have hfirst : u.start < offset := by
      rcases List.mem_cons.mp hc with rfl | hc'
      · exact hstart
      · exact Nat.lt_of_le_of_lt (Nat.le_trans hu.start_le (hrest.bounds hc').1) hstart
    rw [List.takeWhile_cons_of_pos (by simpa using hfirst)]
    rcases List.mem_cons.mp hc with rfl | hc'
    · exact List.mem_cons_self ..
    · exact List.mem_cons_of_mem _ (ih hrest hc')

/-- Where a statement with the comments above it begins. -/
def opening (f : SourceFile) (t : Tree) : Nat :=
  match f.leadingComments t with
  | [] => t.start
  | c :: _ => c.start

/-- A statement with the comments above it begins where one of the nodes does. -/
theorem exists_opening (ht : t ∈ f.tree.children) : ∃ c ∈ f.tree.children, c.start = f.opening t := by
  unfold opening
  split
  case h_1 => exact ⟨t, ht, rfl⟩
  case h_2 c more hlead =>
    have hc := mem_leadingComments (hlead ▸ List.mem_cons_self ..)
    have hbefore := List.mem_reverse.mp ((List.takeWhile_sublist _).mem hc)
    exact ⟨c, (List.takeWhile_sublist _).mem hbefore, rfl⟩

/-- Between a statement and the comments above it stands nothing but comments. -/
theorem opening_bounds (f : SourceFile) (t : Tree) :
    f.opening t ≤ t.start ∧ ∀ u ∈ f.tree.children, u.is .comment = false → u.start < u.stop →
      u.stop ≤ t.start → u.stop ≤ f.opening t := by
  unfold opening
  split
  case h_1 => exact ⟨Nat.le_refl _, fun _ _ _ _ h => h⟩
  case h_2 c more hlead =>
    have hc : c ∈ (f.nodesBefore t).takeWhile (·.is .comment) :=
      mem_leadingComments (hlead ▸ List.mem_cons_self ..)
    have hbefore : c ∈ f.tree.children.takeWhile fun u => u.start < t.start :=
      List.mem_reverse.mp ((List.takeWhile_sublist _).mem hc)
    have hstart : c.start < t.start := by simpa using mem_takeWhile hbefore
    refine ⟨Nat.le_of_lt hstart, fun u hu hkind hpos hstop => ?_⟩
    -- the nodes before the statement are those before its comments and then the comments
    have hmem := mem_takeWhile_of_start_lt f.nodes_placed hu (Nat.lt_of_lt_of_le hpos hstop)
    have hplaced := f.nodes_placed.sublist
      (List.takeWhile_sublist (l := f.tree.children) fun u : Tree => u.start < t.start)
    have hsplit : (f.tree.children.takeWhile fun u => u.start < t.start) =
        ((f.nodesBefore t).dropWhile (·.is .comment)).reverse ++
          ((f.nodesBefore t).takeWhile (·.is .comment)).reverse := by
      rw [← List.reverse_append, List.takeWhile_append_dropWhile]
      unfold nodesBefore
      rw [List.reverse_reverse]
    rw [hsplit] at hmem hplaced
    obtain ⟨mid, hfirst, hsecond⟩ := hplaced.exists_split
    rcases List.mem_append.mp hmem with hmem | hmem
    · exact Nat.le_trans (hfirst.bounds hmem).2.2 (hsecond.bounds (List.mem_reverse.mpr hc)).1
    · have hcomment := mem_takeWhile (p := fun u : Tree => u.is .comment) (List.mem_reverse.mp hmem)
      rw [hkind] at hcomment
      cases hcomment

theorem firm_import {d : ModuleReference} (hd : d ∈ f.imports) :
    f.Firm d.statement d.statement.start d.statement.stop := by
  have hkind : d.statement.is .comment = false := by
    have himport := of_decide_eq_true (import_kind hd)
    simp [Tree.is, himport]
  obtain ⟨hbegins, hends⟩ := (import_placed hd).1.visible (import_kind hd)
  exact ⟨import_mem_nodes hd, hkind, Nat.le_refl _, import_start_lt hd, Nat.le_refl _, hbegins, hends⟩

/-! ### Edits of statements -/

/-- An edit from where a statement with its comments begins, or from before it among blanks, to the end of
the statement or of its line leaves the other statements as they are. -/
theorem keeps_of_bounds {e : Edit} {but : Tree → Prop} (ht : t ∈ f.tree.children) (hbut : but t)
    (hstart : e.start = f.opening t ∨ e.start = widenBack f.text (f.opening t))
    (hstop : e.stop = t.stop ∨ e.stop = widenOn f.text t.stop) : e.Keeps f but := by
  have hopening := (f.opening_bounds t).1
  obtain ⟨-, hplaced, hlength⟩ := f.nodes_placed.bounds ht
  have hle := hplaced.start_le
  have hback := widenBack_le f.text (f.opening t)
  have hon := le_widenOn hlength
  refine ⟨by omega, fun s lo hi hfirm hs => ?_⟩
  obtain ⟨hmem, hkind, hlower, hlt, hupper, hbegins, hends⟩ := hfirm
  have hne : t ≠ s := by
    rintro rfl
    exact hs hbut
  rcases (f.nodes_placed.apart ht hmem).resolve_left hne with hbehind | hbefore
  · left
    have hbehind := Nat.le_trans hbehind hlower
    rcases hstop with hstop | hstop
    · rwa [hstop]
    · rw [hstop]
      exact widenOn_le_of_visible hbegins hbehind
  · right
    have hbefore := Nat.le_trans hupper ((f.opening_bounds t).2 s hmem hkind (by omega) hbefore)
    rcases hstart with hstart | hstart
    · rwa [hstart]
    · rw [hstart]
      exact le_widenBack_of_lineVisible hends hbefore (by omega)

/-- A replaced statement gives way from where its comments begin. -/
theorem replaceStatement_place {text : String} {e : Edit} (h : f.replaceStatement t text true = .ok e) :
    e.start = f.opening t ∧ e.stop = t.stop := by
  unfold replaceStatement at h
  unfold opening
  rw [if_pos rfl] at h
  cases hlead : f.leadingComments t with
  | nil =>
    rw [hlead] at h
    cases h
    exact ⟨rfl, rfl⟩
  | cons c more =>
    rw [hlead] at h
    obtain ⟨above, -, h⟩ := Except.bind_eq_ok h
    cases h
    exact ⟨rfl, rfl⟩

/-- A removed statement goes with its comments, and with the lines that they leave blank. -/
theorem removeStatement_place (f : SourceFile) (t : Tree) :
    (f.removeStatement t).start = widenBack f.text (f.opening t) ∧
      (f.removeStatement t).stop = widenOn f.text t.stop := by
  unfold removeStatement opening
  cases f.leadingComments t <;> exact ⟨rfl, rfl⟩

theorem replaceStatement_keeps {text : String} {e : Edit} {but : Tree → Prop} (ht : t ∈ f.tree.children)
    (hbut : but t) (h : f.replaceStatement t text true = .ok e) : e.Keeps f but :=
  keeps_of_bounds ht hbut (.inl (replaceStatement_place h).1) (.inl (replaceStatement_place h).2)

theorem removeStatement_keeps {but : Tree → Prop} (ht : t ∈ f.tree.children) (hbut : but t) :
    (f.removeStatement t).Keeps f but :=
  keeps_of_bounds ht hbut (.inr (f.removeStatement_place t).1) (.inr (f.removeStatement_place t).2)

theorem selectM_sound {ε α : Type} {p : α → Except ε Bool} {l r : List α}
    (h : selectM p l = .ok r) : ∀ a ∈ r, p a = .ok true := by
  induction l generalizing r with
  | nil =>
    cases h
    simp
  | cons b rest ih =>
    obtain ⟨keep, hkeep, h⟩ := Except.bind_eq_ok h
    obtain ⟨more, hmore, h⟩ := Except.bind_eq_ok h
    cases h
    intro a ha
    cases keep with
    | false => exact ih hmore a ha
    | true =>
      rcases List.mem_cons.mp ha with rfl | ha
      · exact hkeep
      · exact ih hmore a ha

/-- An import declares no name for the file. -/
theorem kind_of_declares {name : String} (h : f.declares name t = .ok true) :
    t.is .importStatement = false := by
  by_contra himport
  have hkind : t.kind = .importStatement := by simpa [Tree.is] using himport
  have hself : declaration? t = some t := by simp [declaration?, Tree.is, hkind]
  have hnames : nameNodes t = [] := by simp [nameNodes, Tree.is, hkind, naming]
  unfold declares at h
  rw [hself] at h
  dsimp only at h
  unfold declaredNames at h
  rw [hnames] at h
  cases h

end SourceFile

namespace NamedExport

open SourceFile

variable {f : SourceFile} {d : DefaultExport} {name : String} {es : List Edit}

/-- Whether a statement is the default export, or declares the name of one and is not exported. -/
def Reworks (f : SourceFile) (d : DefaultExport) (name : String) (t : Tree) : Prop :=
  t = d.statement ∨ t.is .exportStatement = false ∧ f.declares name t = .ok true

theorem identifierEdits_keep (hd : d.statement ∈ f.tree.children) (h : identifierEdits f d = .ok (name, es)) :
    ∀ e ∈ es, e.Keeps f (Reworks f d name) := by
  obtain ⟨own, -, h⟩ := Except.bind_eq_ok h
  obtain ⟨definitions, hdefinitions, h⟩ := Except.bind_eq_ok h
  split at h
  · cases h
  · obtain ⟨exported, hexported, h⟩ := Except.bind_eq_ok h
    cases h
    intro e he
    rcases List.mem_append.mp he with he | he
    · -- what declares the name is a statement
      obtain ⟨t, ht, hedit⟩ := Except.exists_of_mem_mapM hexported e he
      obtain ⟨hdefinition, hother⟩ := List.mem_filter.mp ht
      have hstatement := findDeclarations_subset hdefinitions t hdefinition
      obtain ⟨text, -, hedit⟩ := Except.bind_eq_ok hedit
      exact replaceStatement_keeps (f.statements_sublist.mem hstatement)
        (.inr ⟨by simpa using hother, selectM_sound hdefinitions t hdefinition⟩) hedit
    · obtain rfl := List.mem_singleton.mp he
      exact removeStatement_keeps hd (.inl rfl)

theorem declarationEdits_keep (hd : d.statement ∈ f.tree.children) (h : declarationEdits f d = .ok (name, es)) :
    ∀ e ∈ es, e.Keeps f (Reworks f d name) := by
  unfold declarationEdits at h
  split at h
  · cases h
  · obtain ⟨own, -, h⟩ := Except.bind_eq_ok h
    cases h
    intro e he
    obtain ⟨word, hword, rfl⟩ := List.mem_map.mp he
    obtain ⟨hmem, -⟩ := childOfKind?_eq_some (Option.mem_toList.mp hword)
    obtain ⟨-, hstatement, -⟩ := f.nodes_placed.bounds hd
    obtain ⟨hlo, hplaced, hhi⟩ := hstatement.children.bounds hmem
    have hle := hplaced.start_le
    have hskip : word.stop ≤ skipSpaces f.text word.stop := Nat.le_add_right ..
    refine ⟨Nat.le_trans hle hskip, fun s lo hi hfirm hs => ?_⟩
    have hne : d.statement ≠ s := fun heq => hs (.inl heq.symm)
    rcases (f.nodes_placed.apart hd hfirm.mem).resolve_left hne with hbehind | hbefore
    · left
      exact skipSpaces_le_of_visible hfirm.begins (Nat.le_trans hhi (Nat.le_trans hbehind hfirm.lower))
    · exact .inr (Nat.le_trans hfirm.upper (Nat.le_trans hbefore hlo))

theorem expressionEdits_keep (hd : d.statement ∈ f.tree.children) (h : expressionEdits f d = .ok (name, es)) :
    ∀ e ∈ es, e.Keeps f (Reworks f d name) := by
  unfold expressionEdits at h
  dsimp only at h
  split at h
  · obtain ⟨value, -, h⟩ := Except.bind_eq_ok h
    obtain ⟨edit, hedit, h⟩ := Except.bind_eq_ok h
    obtain ⟨-, rfl⟩ := Prod.mk.inj (Except.ok.inj h)
    intro e he
    obtain rfl := List.mem_singleton.mp he
    exact replaceStatement_keeps hd (.inl rfl) hedit
  · cases h

/-- The edits for a default export leave all other statements alone but those that declare its name. -/
theorem edits_keep (hd : d.statement ∈ f.tree.children) (h : edits f d = .ok (name, es)) :
    ∀ e ∈ es, e.Keeps f (Reworks f d name) := by
  unfold edits at h
  split at h
  · exact identifierEdits_keep hd h
  · exact declarationEdits_keep hd h
  · exact expressionEdits_keep hd h

/-- No edit for a default export touches an import. -/
theorem edits_spare (hd : d.statement ∈ f.tree.children)
    (hkind : d.statement.is .importStatement = false) (h : edits f d = .ok (name, es)) :
    ∀ e ∈ es, e.Spares f := by
  intro e he
  obtain ⟨hle, hkeeps⟩ := edits_keep hd h e he
  refine ⟨hle, fun i hi => hkeeps _ _ _ (firm_import hi) ?_⟩
  have himport := import_kind hi
  rintro (heq | ⟨-, hdeclares⟩)
  · rw [← heq, himport] at hkind
    cases hkind
  · rw [kind_of_declares hdeclares] at himport
    cases himport

theorem defaultExportsOf_statement {ts : List Tree} {ds : List DefaultExport} {j j' : Journal}
    (h : f.defaultExportsOf ts j = (.ok ds, j')) : ∀ d ∈ ds, d.statement ∈ ts := by
  induction ts generalizing ds j with
  | nil =>
    cases h
    simp
  | cons t rest ih =>
    unfold defaultExportsOf at h
    cases hd : DefaultExport.ofStatement? t with
    | some d =>
      rw [hd] at h
      obtain ⟨more, _, hmore, h⟩ := Journaled.bind_eq_ok h
      cases h
      intro d' hd'
      rcases List.mem_cons.mp hd' with rfl | hd'
      · rw [DefaultExport.ofStatement?_statement hd]
        exact List.mem_cons_self ..
      · exact List.mem_cons_of_mem _ (ih hmore d' hd')
    | none =>
      rw [hd] at h
      obtain ⟨_, _, -, h⟩ := Journaled.bind_eq_ok h
      obtain ⟨_, _, -, h⟩ := Journaled.bind_eq_ok h
      exact fun d hd => List.mem_cons_of_mem _ (ih h d hd)

theorem plan_spares (h : (plan f).outcome = .ok (some (name, es))) : ∀ e ∈ es, e.Spares f := by
  obtain ⟨j, h⟩ := Journaled.exists_run h
  obtain ⟨ds, _, hds, h⟩ := Journaled.bind_eq_ok h
  have hstatement := defaultExportsOf_statement hds
  split at h
  · cases h
  · rename_i d
    obtain ⟨r, _, hr, h⟩ := Journaled.bind_eq_ok h
    cases h
    obtain ⟨hmem, hdefault⟩ := List.mem_filter.mp (hstatement d (by simp))
    have hkind : d.statement.is .importStatement = false := by
      have hexport := of_decide_eq_true (Bool.and_eq_true_iff.mp hdefault).1
      simp [Tree.is, hexport]
    exact edits_spare (f.statements_sublist.mem hmem) hkind (Journaled.ofExcept_eq_ok hr).1
  · cases h

end NamedExport

/-- Whether its task in the first pass succeeds or not, a file keeps its imports. -/
theorem exportJob_keeps_imports (w : Workspace) (f : SourceFile) :
    f.KeepsImports (exportJob.ending w f).file.text := by
  have hsame : f.KeepsImports f.text := ⟨[], Nat.zero_le _, by simp [Bytes.slice], by simp⟩
  have hcommitted {a : Option String} {edits : List Edit} {g : SourceFile}
      (hjob : exportJob w.config w.knows f = .ok (a, some edits)) (hedit : f.edited edits = .ok g) :
      f.KeepsImports g.text := by
    obtain ⟨name, -, hplan⟩ := exportJob_eq_ok hjob
    have hspare := NamedExport.plan_spares hplan
    obtain ⟨patches, horder, htext, hmem⟩ :=
      Edit.applyAll_eq_patched (SourceFile.edited_eq_ok hedit).1 fun e he => (hspare e he).1
    refine ⟨patches, horder, htext, fun q hq => ?_⟩
    obtain ⟨e, he, rfl⟩ := (hmem q).mp hq
    exact (hspare e he).2
  have hends := exportJob.ends w f
  generalize exportJob.ending w f = e at hends ⊢
  cases hends with
  | failed | idle | unapplied => exact hsame
  | clean hjob hedit | refused hjob hedit => exact hcommitted hjob hedit
  | written hjob hedit =>
    -- only the mark for unsaved changes differs from what was committed
    have hkept := hcommitted hjob hedit
    exact hkept

end Codemod
