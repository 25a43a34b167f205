import Codemod.Proofs.ExportedOnce
import Codemod.Proofs.ImportBindings

/-!
# Which definitions are found

A name that is the default export is looked for among the statements of its file. A statement can declare it in many
forms, behind `export` and `declare`, and comments can stand anywhere. The search opens a statement in two steps and
then looks at one place for each kind of declaration. So some forms are overlooked: a namespace, what follows a comment
directly behind `declare`, a variable that only a destructuring pattern binds, and the first part of a dotted name.

Main statements:

* `SourceFile.declares_iff` says that a statement is found exactly when it declares the name in another form;
* `SourceFile.findDeclarations_eq_nil_iff` says when the search finds nothing;
* `definition_not_found_iff` says for which files the first pass fails because of that.
-/

namespace Codemod

open Syntax Syntax.Tree

/-! ### The names that statements declare -/

namespace Syntax.Tree

/-- The declaration in what a statement holds: a namespace that stands as a statement of its own, and what is declared
to be defined elsewhere, whatever comments stand before it. -/
def revealed (d : Tree) : Tree :=
  if d.is .expressionStatement then (d.childOfKind? .internalModule).getD d
  else if d.is .ambientDeclaration then (d.named.find? fun c => !c.is .comment).getD d
  else d

/-- Whether a declaration declares variables. -/
def isVariables (c : Tree) : Bool :=
  c.is .lexicalDeclaration || c.is .variableDeclaration

/-- Whether a declaration is one of a function, an overload, a class, an interface, a type alias, an enumeration or a
namespace. -/
def isNaming (c : Tree) : Bool :=
  SourceFile.naming.contains c.kind || c.is .internalModule

/-- The names that a declaration declares: those of variables, plain or in patterns, or its own name, of which the
first part counts too if there are dots in it. -/
def declarationNames (source : Bytes) (c : Tree) : List Bytes :=
  if c.isVariables then
    (c.children.filter (·.is .variableDeclarator)).flatMap fun v => (v.child? .name).elim [] (patternNames source)
  else if c.isNaming then
    (c.child? .name).elim [] fun m => m.text source :: m.children.head?.elim [] fun first => [first.text source]
  else []

/-- The forms in which the declaration of a name is overlooked. -/
inductive Overlooked (source name : Bytes) (d : Tree) : Prop
  /-- A namespace, unless it is written with the older word `module`. -/
  | internal (h : d.revealed.is .internalModule = true)
  /-- A comment directly behind `declare`. -/
  | comment (h : d.is .ambientDeclaration = true) (c : Tree) (hc : d.named.head? = some c)
      (hcomment : c.is .comment = true)
  /-- Variables of which none is called by the name as a whole: a pattern binds it. -/
  | pattern (h : d.revealed.isVariables = true)
      (hplain : ∀ v ∈ d.revealed.children, v.is .variableDeclarator = true → ∀ n, v.child? .name = some n →
        n.is .identifier = true → n.text source ≠ name)
  /-- A name with dots, of which it is only the first part. -/
  | dotted (h : d.revealed.isNaming = true) (hpart : ∀ n, d.revealed.child? .name = some n → n.text source ≠ name)

end Syntax.Tree

namespace SourceFile

/-- The names that a statement declares, as the declaration that it is or exports. -/
def namesOf (f : SourceFile) (t : Tree) : List Bytes :=
  (held? t).elim [] fun d => d.revealed.declarationNames f.text

/-- Whether the declaration in a statement has a form in which a name is overlooked. -/
def Overlooks (f : SourceFile) (name : String) (t : Tree) : Prop :=
  ∃ d, held? t = some d ∧ d.Overlooked f.text (Bytes.ofString name)

end SourceFile

/-! ### One declaration -/

namespace Syntax.Tree

open SourceFile

variable {source name : Bytes} {c d : Tree}

theorem nameNodes_of_other (hv : c.isVariables = false) (hn : c.isNaming = false) : nameNodes c = [] := by
  obtain ⟨hn, -⟩ := Bool.or_eq_false_iff.mp hn
  unfold isVariables at hv
  unfold nameNodes
  rw [hv, hn]
  rfl

theorem declarationNames_of_other (hv : c.isVariables = false) (hn : c.isNaming = false) :
    c.declarationNames source = [] := by
  unfold declarationNames
  rw [hv, hn]
  rfl

/-- No declaration of variables is of another kind. -/
theorem not_naming_of_variables (h : c.isVariables = true) : c.isNaming = false := by
  unfold isVariables at h
  rcases (Bool.or_eq_true_iff.mp h) with h | h <;>
  · rw [isNaming, Tree.is, of_decide_eq_true h]
    decide

/-- A node of a kind that declares nothing. -/
theorem other_of_kind {k : Kind} (h : c.is k = true)
    (hk : (k == .lexicalDeclaration || k == .variableDeclaration || naming.contains k || k == .internalModule) = false) :
    c.isVariables = false ∧ c.isNaming = false := by
  obtain rfl : c.kind = k := of_decide_eq_true h
  simp only [Bool.or_eq_false_iff, beq_eq_false_iff_ne] at hk
  obtain ⟨⟨⟨hlexical, hvariable⟩, hnaming⟩, hmodule⟩ := hk
  constructor
  · simp [isVariables, Tree.is, hlexical, hvariable]
  · rw [isNaming, hnaming, Bool.false_or]
    exact decide_eq_false hmodule

/-- The names of variables are found where they are bound as a whole. -/
theorem mem_nameNodes_variables_iff (hv : c.isVariables = true) :
    (∃ n ∈ nameNodes c, n.text source = name) ↔ name ∈ c.declarationNames source ∧
      ¬ ∀ v ∈ c.children, v.is .variableDeclarator = true → ∀ n, v.child? .name = some n → n.is .identifier = true →
        n.text source ≠ name := by
  have hnodes : nameNodes c =
      ((c.children.filter (·.is .variableDeclarator)).filterMap (·.child? .name)).filter (·.is .identifier) := by
    unfold isVariables at hv
    unfold nameNodes
    rw [hv]
    rfl
  have hnames : c.declarationNames source = (c.children.filter (·.is .variableDeclarator)).flatMap fun v =>
      (v.child? .name).elim [] (patternNames source) := by
    unfold declarationNames
    rw [hv]
    rfl
  rw [hnodes, hnames]
  constructor
  · rintro ⟨n, hn, rfl⟩
    obtain ⟨hn, hidentifier⟩ := List.mem_filter.mp hn
    obtain ⟨v, hv, hname⟩ := List.mem_filterMap.mp hn
    refine ⟨List.mem_flatMap.mpr ⟨v, hv, ?_⟩, fun hplain => ?_⟩
    · rw [hname, Option.elim_some, patternNames_identifier hidentifier]
      exact List.mem_singleton_self _
    · obtain ⟨hv, hdeclarator⟩ := List.mem_filter.mp hv
      exact hplain v hv hdeclarator n hname hidentifier rfl
  · rintro ⟨-, hplain⟩
    by_contra hnone
    refine hplain fun v hv hdeclarator n hname hidentifier htext => hnone ⟨n, ?_, htext⟩
    exact List.mem_filter.mpr
      ⟨List.mem_filterMap.mpr ⟨v, List.mem_filter.mpr ⟨hv, hdeclarator⟩, hname⟩, hidentifier⟩

/-- The name of a declaration is found where it has no further parts, unless the declaration is a namespace. -/
theorem mem_nameNodes_naming_iff (hv : c.isVariables = false) (hn : c.isNaming = true) :
    (∃ n ∈ nameNodes c, n.text source = name) ↔ name ∈ c.declarationNames source ∧
      ¬ (c.is .internalModule = true ∨ ∀ n, c.child? .name = some n → n.text source ≠ name) := by
  have hnames : c.declarationNames source = (c.child? .name).elim [] fun m =>
      m.text source :: m.children.head?.elim [] fun first => [first.text source] := by
    unfold declarationNames
    rw [hv, hn]
    rfl
  have hnodes : nameNodes c = if naming.contains c.kind then (c.child? .name).toList else [] := by
    unfold isVariables at hv
    unfold nameNodes
    rw [hv]
    rfl
  rw [hnodes, hnames]
  cases hmodule : c.is .internalModule with
  | true =>
    have hother : naming.contains c.kind = false := by
      rw [of_decide_eq_true hmodule]
      decide
    rw [hother, if_neg Bool.false_ne_true]
    simp
  | false =>
    have hnaming : naming.contains c.kind = true := by
      simpa [isNaming, hmodule] using hn
    rw [hnaming, if_pos rfl]
    cases hname : c.child? .name with
    | none => simp
    | some m =>
      simp only [Option.toList_some, List.mem_singleton, exists_eq_left, Option.elim_some, Option.some.injEq,
        forall_eq', Bool.false_eq_true, false_or, not_not]
      exact ⟨fun h => ⟨h ▸ List.mem_cons_self .., h⟩, And.right⟩

/-! ### What a statement holds -/

/-- What a statement holds is opened as far as the declaration in it, unless it is a namespace that stands as a
statement of its own or begins with a comment behind `declare`. -/
theorem declared_eq_revealed (h : d.is .expressionStatement = false)
    (hcomment : d.is .ambientDeclaration = true → ∀ c, d.named.head? = some c → c.is .comment = false) :
    declared d = d.revealed := by
  unfold declared revealed
  rw [h, if_neg Bool.false_ne_true]
  split
  case isFalse => rfl
  case isTrue hambient =>
    have hfirst := hcomment hambient
    cases hnamed : d.named with
    | nil => rfl
    | cons c rest =>
      rw [hnamed] at hfirst
      rw [List.head?_cons, Option.getD_some, List.find?_cons_of_pos (by simpa using hfirst c rfl), Option.getD_some]

/-- A name is found in what a statement holds exactly when the declaration in it declares the name in none of the forms
that are overlooked. -/
theorem mem_nameNodes_declared_iff : (∃ n ∈ nameNodes (declared d), n.text source = name) ↔
    name ∈ d.revealed.declarationNames source ∧ ¬ d.Overlooked source name := by
  by_cases hstatement : d.is .expressionStatement = true
  · have hself : declared d = d := by
      unfold declared
      rw [if_neg]
      simp [Tree.is, show d.kind = .expressionStatement from of_decide_eq_true hstatement]
    obtain ⟨hv, hn⟩ := other_of_kind hstatement (by decide)
    have hrevealed : d.revealed = (d.childOfKind? .internalModule).getD d := by
      unfold revealed
      rw [if_pos hstatement]
    rw [hself, nameNodes_of_other hv hn]
    refine iff_of_false (by simp) ?_
    rintro ⟨hname, hseen⟩
    cases hmodule : d.childOfKind? .internalModule with
    | none =>
      rw [hrevealed, hmodule, Option.getD_none, declarationNames_of_other hv hn] at hname
      cases hname
    | some m =>
      refine hseen (.internal ?_)
      rw [hrevealed, hmodule, Option.getD_some]
      exact List.find?_some (p := fun c : Tree => c.is .internalModule) hmodule
  by_cases hcomment : ∃ c, d.is .ambientDeclaration = true ∧ d.named.head? = some c ∧ c.is .comment = true
  · obtain ⟨c, hambient, hfirst, hcomment⟩ := hcomment
    have hinner : declared d = c := by
      unfold declared
      rw [if_pos hambient, hfirst, Option.getD_some]
    obtain ⟨hv, hn⟩ := other_of_kind hcomment (by decide)
    rw [hinner, nameNodes_of_other hv hn]
    refine iff_of_false (by simp) ?_
    rintro ⟨-, hseen⟩
    exact hseen (.comment hambient c hfirst hcomment)
  -- From here on the declaration that is looked at is the one that is there.
  have hnone : d.is .ambientDeclaration = true → ∀ c, d.named.head? = some c → c.is .comment = false :=
    fun hambient c hfirst => Bool.eq_false_iff.mpr fun h => hcomment ⟨c, hambient, hfirst, h⟩
  rw [declared_eq_revealed (Bool.eq_false_iff.mpr hstatement) hnone]
  cases hv : d.revealed.isVariables with
  | true =>
    have hn := not_naming_of_variables hv
    rw [mem_nameNodes_variables_iff hv]
    refine and_congr_right fun _ => not_congr ⟨fun hplain => .pattern hv hplain, fun h => ?_⟩
    cases h with
    | internal h =>
      obtain ⟨-, hother⟩ := Bool.or_eq_false_iff.mp hn
      cases h.symm.trans hother
    | comment h c hc hkind => exact absurd ⟨c, h, hc, hkind⟩ hcomment
    | pattern _ hplain => exact hplain
    | dotted h => cases h.symm.trans hn
  | false =>
    cases hn : d.revealed.isNaming with
    | true =>
      rw [mem_nameNodes_naming_iff hv hn]
      refine and_congr_right fun _ => not_congr ⟨fun h => ?_, fun h => ?_⟩
      · exact h.elim .internal (.dotted hn)
      · cases h with
        | internal h => exact .inl h
        | comment h c hc hkind => exact absurd ⟨c, h, hc, hkind⟩ hcomment
        | pattern h => cases h.symm.trans hv
        | dotted _ hpart => exact .inr hpart
    | false =>
      rw [nameNodes_of_other hv hn, declarationNames_of_other hv hn]
      exact iff_of_false (by simp) fun h => absurd h.1 List.not_mem_nil

end Syntax.Tree

/-! ### The search -/

namespace SourceFile

variable {f : SourceFile} {name : String} {t : Tree}

/-- Whether the names that are looked at in a statement are texts of characters. -/
def NamesReadIn (f : SourceFile) (t : Tree) : Prop :=
  ∀ d, held? t = some d → ∀ n ∈ nameNodes (declared d), ∃ s, f.textOf n = .ok s

/-- Whether the names that are looked at in the search are texts of characters. -/
def NamesRead (f : SourceFile) : Prop :=
  ∀ t ∈ f.statements, f.NamesReadIn t

/-- The test of a statement gives an answer exactly where the names in it can be read. -/
theorem exists_declares_iff : (∃ b, f.declares name t = .ok b) ↔ f.NamesReadIn t := by
  unfold NamesReadIn
  cases hd : held? t with
  | none =>
    refine iff_of_true ⟨false, ?_⟩ fun d h => by cases h
    unfold declares
    rw [declaration?_eq, hd]
    rfl
  | some d =>
    rw [declares_eq_of_held? hd]
    unfold declaredNames
    constructor
    · rintro ⟨b, hb⟩ d' hd'
      cases hd'
      refine Except.exists_mapM_iff.mp ?_
      cases hns : (nameNodes (declared d)).mapM f.textOf with
      | error e => rw [hns] at hb; cases hb
      | ok ns => exact ⟨ns, rfl⟩
    · intro hread
      obtain ⟨ns, hns⟩ := Except.exists_mapM_iff.mpr (hread d rfl)
      rw [hns]
      exact ⟨_, rfl⟩

/-- A statement is found exactly when it declares the name in none of the forms that are overlooked. -/
theorem declares_iff (hread : f.NamesReadIn t) : f.declares name t = .ok true ↔
    Bytes.ofString name ∈ f.namesOf t ∧ ¬ f.Overlooks name t := by
  cases hd : held? t with
  | none =>
    refine iff_of_false (fun h => ?_) fun h => ?_
    · obtain ⟨d, hheld⟩ := exists_held_of_declares h
      cases hd.symm.trans hheld
    · rw [namesOf, hd] at h
      exact absurd h.1 List.not_mem_nil
  | some d =>
    obtain ⟨ns, hns⟩ := Except.exists_mapM_iff.mpr (hread d hd)
    have hfound : f.declares name t = .ok true ↔ ∃ n ∈ nameNodes (declared d), n.text f.text = Bytes.ofString name := by
      have hrun : f.declares name t = .ok (ns.contains name) := by
        rw [declares_eq_of_held? hd, declaredNames, hns]
        rfl
      rw [hrun, Except.ok.injEq, List.contains_iff_mem]
      constructor
      · intro hname
        obtain ⟨n, hn, htext⟩ := Except.exists_of_mem_mapM hns name hname
        exact ⟨n, hn, (ofString_of_textOf htext).symm⟩
      · rintro ⟨n, hn, htext⟩
        obtain ⟨s, hs, hrel⟩ := exists_mem_of_forall₂ (Except.forall₂_of_mapM_eq_ok hns).flip n hn
        cases (textOf_eq_ok htext).symm.trans hrel
        exact hs
    have hoverlooks : f.Overlooks name t ↔ d.Overlooked f.text (Bytes.ofString name) := by
      unfold Overlooks
      rw [hd]
      exact ⟨fun ⟨_, heq, h⟩ => by cases heq; exact h, fun h => ⟨d, rfl, h⟩⟩
    rw [hfound, mem_nameNodes_declared_iff, hoverlooks, namesOf, hd, Option.elim_some]

theorem selectM_eq_nil_iff {ε α : Type} {p : α → Except ε Bool} {l : List α} :
    selectM p l = .ok [] ↔ ∀ a ∈ l, p a = .ok false := by
  induction l with
  | nil => exact iff_of_true rfl fun _ ha => absurd ha List.not_mem_nil
  | cons a rest ih =>
    rw [List.forall_mem_cons, ← ih]
    constructor
    · intro h
      obtain ⟨keep, hkeep, h⟩ := Except.bind_eq_ok h
      obtain ⟨more, hmore, h⟩ := Except.bind_eq_ok h
      cases keep with
      | true => cases h
      | false =>
        cases h
        exact ⟨hkeep, hmore⟩
    · rintro ⟨hfirst, hrest⟩
      unfold selectM
      rw [hfirst, hrest]
      rfl

/-- The search finds nothing exactly when all names can be read and whatever declares the name is overlooked. -/
theorem findDeclarations_eq_nil_iff : f.findDeclarations name = .ok [] ↔
    f.NamesRead ∧ ∀ t ∈ f.statements, Bytes.ofString name ∈ f.namesOf t → f.Overlooks name t := by
  unfold findDeclarations
  rw [selectM_eq_nil_iff]
  constructor
  · intro h
    have hread : f.NamesRead := fun t ht => exists_declares_iff.mp ⟨false, h t ht⟩
    refine ⟨hread, fun t ht hname => ?_⟩
    by_contra hseen
    cases (h t ht).symm.trans ((declares_iff (hread t ht)).mpr ⟨hname, hseen⟩)
  · rintro ⟨hread, hall⟩ t ht
    obtain ⟨b, hb⟩ := exists_declares_iff.mpr (hread t ht)
    cases b with
    | false => exact hb
    | true =>
      obtain ⟨hname, hseen⟩ := (declares_iff (hread t ht)).mp hb
      exact absurd (hall t ht hname) hseen

/-- An import declares nothing in this sense. -/
theorem namesOf_import (h : t.is .importStatement = true) : f.namesOf t = [] := by
  have hkind : t.kind = .importStatement := of_decide_eq_true h
  have hheld : held? t = some t := held?_of_other (by simp [Tree.is, hkind])
  have hself : t.revealed = t := by
    unfold revealed
    simp [Tree.is, hkind]
  obtain ⟨hv, hn⟩ := other_of_kind h (by decide)
  rw [namesOf, hheld, Option.elim_some, hself, declarationNames_of_other hv hn]

end SourceFile

/-! ### The first pass -/

namespace NamedExport

open NamedImport

variable {f : SourceFile} {d : DefaultExport} {name : String}

theorem selectM_failsUndecodable {α : Type} {p : α → Except Fault Bool} (hp : ∀ a, FailsUndecodable (p a))
    (l : List α) : FailsUndecodable (SourceFile.selectM p l) := by
  induction l with
  | nil => exact .pure _
  | cons a rest ih => exact (hp a).bind fun _ => ih.bind fun _ => .pure _

theorem textOf_failsUndecodable (t : Tree) : FailsUndecodable (f.textOf t) :=
  .decode f t.start t.stop

theorem replaceStatement_failsUndecodable (t : Tree) (text : String) :
    FailsUndecodable (f.replaceStatement t text true) := by
  unfold SourceFile.replaceStatement
  split
  · exact .pure _
  · exact .bind (.decode f _ _) fun _ => .pure _

theorem declares_failsUndecodable (t : Tree) : FailsUndecodable (f.declares name t) := by
  unfold SourceFile.declares
  split
  · exact .pure _
  · rename_i c _
    have hnames : FailsUndecodable (f.declaredNames c) := .mapM textOf_failsUndecodable _
    exact hnames.bind fun ns => .pure (ns.contains name)

/-- The edits for a name that is exported by default are missing for want of a definition exactly when the search finds
nothing: everything else that can go wrong is a text that cannot be read. -/
theorem edits_definitionNotFound_iff (hform : d.form = .identifier) (hname : f.textOf d.target = .ok name) :
    edits f d = .error (.definitionNotFound f.path name) ↔ f.findDeclarations name = .ok [] := by
  have hedits : edits f d = identifierEdits f d := by
    unfold edits
    rw [hform]
  have hsearch : FailsUndecodable (f.findDeclarations name) :=
    selectM_failsUndecodable declares_failsUndecodable _
  rw [hedits]
  unfold identifierEdits
  rw [hname]
  change (f.findDeclarations name >>= _) = _ ↔ _
  cases hfound : f.findDeclarations name with
  | error e =>
    obtain ⟨u, rfl⟩ := hsearch e hfound
    exact iff_of_false (by rintro ⟨⟩) (by rintro ⟨⟩)
  | ok definitions =>
    cases definitions with
    | nil => exact iff_of_true rfl rfl
    | cons t rest =>
      refine iff_of_false (fun h => ?_) (by rintro ⟨⟩)
      -- What is found only has to be written again, which can fail only for want of characters.
      have hexported : FailsUndecodable (((t :: rest).filter fun t => !t.is .exportStatement).mapM fun t => do
          f.replaceStatement t ("export " ++ (← f.textOf t)) true) :=
        .mapM (fun t => (textOf_failsUndecodable t).bind fun _ => replaceStatement_failsUndecodable t _) _
      obtain ⟨u, hu⟩ := (hexported.bind fun exported =>
        .pure (name, exported ++ [f.removeStatement d.statement])) _ h
      cases hu

end NamedExport

namespace Workspace

variable {w w' : Workspace} {f : SourceFile} {j j' : Journal} {e : Fault}

/-- A commit fails for want of room for the edits, or on the disk. -/
theorem commit_error_cases {edits : List Edit} (h : commit f edits w j = (.error e, w', j')) :
    (∃ start, e = .overlappingEdits f.path start) ∨ ∃ io, e = .io io := by
  cases hedit : f.edited edits with
  | error e' =>
    rw [commit_error hedit] at h
    cases h
    unfold SourceFile.edited at hedit
    split at hedit
    · cases hedit
    · split at hedit
      · cases hedit
      · cases hedit
        exact .inl ⟨_, rfl⟩
  | ok g =>
    have hrun : edit f edits w j = (.ok g, w.setFile g, j) := by
      unfold edit
      rw [hedit]
      rfl
    cases hdirty : g.dirty with
    | false =>
      have hcommit : commit f edits w j = _ :=
        (Work.bind_ok hrun).trans (Work.bind_ok (save_of_clean hdirty (w.setFile g) j))
      cases h.symm.trans hcommit
    | true =>
      obtain ⟨j₁, hsave⟩ := save_of_dirty hdirty (w.setFile g) j
      cases hwrite : (w.setFile g).disk.write g.path g.text with
      | error io =>
        rw [hwrite] at hsave
        have hcommit : commit f edits w j = _ := (Work.bind_ok hrun).trans (Work.bind_error hsave)
        cases h.symm.trans hcommit
        exact .inr ⟨io, rfl⟩
      | ok disk =>
        rw [hwrite] at hsave
        have hcommit : commit f edits w j = _ := (Work.bind_ok hrun).trans (Work.bind_ok hsave)
        cases h.symm.trans hcommit

/-- The first pass fails for want of a definition exactly when its plan does. -/
theorem nameDefaultExport_definitionNotFound_iff {name : String} :
    (nameDefaultExport f w j).1 = .error (.definitionNotFound f.path name) ↔
      (NamedExport.plan f).outcome = .error (.definitionNotFound f.path name) := by
  have hrun := Work.ofJournaled_run (NamedExport.plan_steady f) w j
  unfold nameDefaultExport
  cases hplan : (NamedExport.plan f).outcome with
  | error e =>
    rw [hplan] at hrun
    rw [Work.bind_error hrun, Except.error.injEq, Except.error.injEq]
  | ok planned =>
    rw [hplan] at hrun
    rw [Work.bind_ok hrun]
    refine iff_of_false (fun h => ?_) (by rintro ⟨⟩)
    cases planned with
    | none => cases h
    | some ne =>
      obtain ⟨name', edits⟩ := ne
      cases hcommit : commit f edits w (j ++ (NamedExport.plan f []).2) with
      | mk r state =>
        obtain ⟨w', j'⟩ := state
        cases r with
        | error e =>
          dsimp only at h
          rw [Work.bind_error hcommit] at h
          cases h
          obtain ⟨_, h⟩ | ⟨_, h⟩ := commit_error_cases hcommit <;> cases h
        | ok u =>
          dsimp only at h
          rw [Work.bind_ok hcommit] at h
          cases h

end Workspace

/-- In a file whose only default export is a name, the first pass fails for want of a definition exactly when the names
that it looks at can be read and each statement, except imports, that declares the name does so in a form that is
overlooked: as a namespace without the word `module`, behind a comment directly behind `declare`, in a destructuring
pattern, or as the first part of a dotted name. -/
theorem definition_not_found_iff {w : Workspace} {f : SourceFile} {d : DefaultExport} {name : String} {j : Journal}
    (hd : f.defaultExports.outcome = .ok [d]) (hform : d.form = .identifier) (hname : f.textOf d.target = .ok name) :
    (Workspace.nameDefaultExport f w j).1 = .error (.definitionNotFound f.path name) ↔
      f.NamesRead ∧ ∀ t ∈ f.statements, t.is .importStatement = false → Bytes.ofString name ∈ f.namesOf t →
        f.Overlooks name t := by
  have hplan : (NamedExport.plan f).outcome = some <$> NamedExport.edits f d := by
    rw [NamedExport.plan_outcome, hd]
    rfl
  have himports : (∀ t ∈ f.statements, Bytes.ofString name ∈ f.namesOf t → f.Overlooks name t) ↔
      ∀ t ∈ f.statements, t.is .importStatement = false → Bytes.ofString name ∈ f.namesOf t →
        f.Overlooks name t := by
    refine forall₂_congr fun t _ => ⟨fun h _ => h, fun h hmem => h ?_ hmem⟩
    rw [Bool.eq_false_iff]
    intro himport
    rw [SourceFile.namesOf_import himport] at hmem
    cases hmem
  rw [Workspace.nameDefaultExport_definitionNotFound_iff, hplan, ← himports,
    ← SourceFile.findDeclarations_eq_nil_iff, ← NamedExport.edits_definitionNotFound_iff hform hname]
  cases NamedExport.edits f d <;> simp

/-! ### Declarations that are overlooked -/

/-- A module of a given text. -/
def definingModule (text : String) : SourceFile :=
  ⟨samplePath "a.ts", .typescript, Bytes.ofString text, false⟩

/-- Whether the only default export of a file is a name. -/
def SourceFile.exportsName (f : SourceFile) (name : String) : Bool :=
  f.defaultExports.outcome.toOption.any fun ds =>
    ds.length == 1 && ds.all fun d => decide (d.form = .identifier ∧ f.textOf d.target = .ok name)

/-- A file has one default export if one is found that passes a test. -/
theorem SourceFile.exists_of_single {f : SourceFile} {p : DefaultExport → Bool}
    (h : (f.defaultExports.outcome.toOption.any fun ds => ds.length == 1 && ds.all p) = true) :
    ∃ d, f.defaultExports.outcome = .ok [d] ∧ p d = true := by
  cases houtcome : f.defaultExports.outcome with
  | error e =>
    rw [houtcome] at h
    cases h
  | ok ds =>
    rw [houtcome] at h
    obtain ⟨hlength, hall⟩ := Bool.and_eq_true_iff.mp h
    obtain ⟨d, rfl⟩ := List.length_eq_one_iff.mp (beq_iff_eq.mp hlength)
    exact ⟨d, rfl, List.all_eq_true.mp hall d (List.mem_singleton_self d)⟩

theorem SourceFile.exists_of_exportsName {f : SourceFile} {name : String} (h : f.exportsName name = true) :
    ∃ d, f.defaultExports.outcome = .ok [d] ∧ d.form = .identifier ∧ f.textOf d.target = .ok name := by
  obtain ⟨d, hd, hname⟩ := SourceFile.exists_of_single h
  exact ⟨d, hd, of_decide_eq_true hname⟩

/-- A module whose default export is the first part of a dotted name. -/
def dottedModule : SourceFile :=
  definingModule "module X.Y \x7b\x7d\nexport default X;\n"

/-- No definition is found there, and all that declares the name is overlooked. -/
theorem dottedModule_overlooked :
    (Workspace.nameDefaultExport dottedModule sampleProject []).1 =
        .error (.definitionNotFound (samplePath "a.ts") "X") ∧
      ∀ t ∈ dottedModule.statements, t.is .importStatement = false →
        Bytes.ofString "X" ∈ dottedModule.namesOf t → dottedModule.Overlooks "X" t := by
  have hexports : dottedModule.exportsName "X" = true := by decide +kernel
  obtain ⟨d, hd, hform, hname⟩ := SourceFile.exists_of_exportsName hexports
  have herror : (Workspace.nameDefaultExport dottedModule sampleProject []).1 =
      .error (.definitionNotFound (samplePath "a.ts") "X") := by decide +kernel
  exact ⟨herror, ((definition_not_found_iff hd hform hname).mp herror).2⟩

/-- Whether the work on a module fails for want of a definition of `X` although a statement of it declares that
name. -/
def MissesDefinition (text : String) : Prop :=
  (definingModule text).exportsName "X" = true ∧
    (∃ t ∈ (definingModule text).statements, t.is .importStatement = false ∧
      Bytes.ofString "X" ∈ (definingModule text).namesOf t) ∧
    (Workspace.nameDefaultExport (definingModule text) sampleProject []).1 =
      .error (.definitionNotFound (samplePath "a.ts") "X")

instance (text : String) : Decidable (MissesDefinition text) :=
  inferInstanceAs (Decidable (_ ∧ _))

/-- A comment behind `declare`, a namespace and a destructuring pattern each hide the declaration of the name. -/
theorem hidden_definition_not_found : MissesDefinition "declare /* c */ const X: number;\nexport default X;\n" ∧
    MissesDefinition "namespace X \x7b\x7d\nexport default X;\n" ∧
    MissesDefinition "const \x7b X \x7d = y;\nexport default X;\n" := by
  decide +kernel

end Codemod
