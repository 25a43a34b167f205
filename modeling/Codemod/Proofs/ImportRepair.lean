import Codemod.Proofs.ExportEdits
import Codemod.Proofs.Patches
import Codemod.Proofs.ScheduleIndependence

/-!
# What the second pass makes of the imports

An import of a default export is written anew exactly when its specifier means a file whose default export
got a name in the first pass. What it becomes is given byte by byte: its clause is replaced, and
everything around the clause, the specifier with its quotes among it, stays. All other imports keep their
bytes. Outside the imports only mentions of the replaced local names change.

The edits of a file are made where its nodes lie, and these lie in order. So it can be told for each import
which edits fall into its range: one if it is written anew, and none otherwise.

Main statements:

* `NamedImport.plan_repairs` says what the edits for a file make of its text;
* `default_imports_follow_records` says so of every file and every run.
-/

namespace Codemod

open Syntax Syntax.Tree

/-! ### Texts of nodes -/

theorem Bytes.ofString_intercalate (s : String) (l : List String) :
    Bytes.ofString (s.intercalate l) = (Bytes.ofString s).intercalate (l.map Bytes.ofString) := by
  induction l with
  | nil => simp [Bytes.ofString_eq_flatMap]
  | cons a rest ih =>
    cases rest with
    | nil => simp
    | cons b more =>
      rw [String.intercalate_cons_cons, Bytes.ofString_append, Bytes.ofString_append, ih]
      simp

namespace SourceFile

variable {f : SourceFile}

/-- What is read of a text is written as it was. -/
theorem ofString_of_decode {start stop : Nat} {s : String} (h : f.decode start stop = .ok s) :
    Bytes.ofString s = f.text.slice start stop := by
  unfold decode at h
  split at h
  · cases h
    exact Utf8.ofString_of_decode ‹_›
  · cases h

theorem ofString_of_textOf {t : Tree} {s : String} (h : f.textOf t = .ok s) :
    Bytes.ofString s = t.text f.text :=
  ofString_of_decode h

/-- What is read of a node is decided by its bytes. -/
theorem textOf_congr {g : SourceFile} {t t' : Tree} (h : t.text f.text = t'.text g.text) :
    f.textOf t = g.textOf t' := by
  unfold textOf decode
  rw [show f.text.slice t.start t.stop = g.text.slice t'.start t'.stop from h]

/-- What was written of a text is read as it was. -/
theorem textOf_eq_ok {t : Tree} {s : String} (h : t.text f.text = Bytes.ofString s) :
    f.textOf t = .ok s := by
  unfold textOf decode
  rw [show f.text.slice t.start t.stop = _ from h, Utf8.decode_ofString]

theorem ofString_of_textsOf {ts : List Tree} {l : List String} (h : ts.mapM f.textOf = .ok l) :
    l.map Bytes.ofString = ts.map (·.text f.text) := by
  have hall := Except.forall₂_of_mapM_eq_ok h
  clear h
  induction hall with
  | nil => rfl
  | cons ht _ ih => rw [List.map_cons, List.map_cons, ofString_of_textOf ht, ih]

end SourceFile

namespace NamedImport

open Journaled

variable {f : SourceFile} {resolve : Resolver} {names : Keyed Path String} {d : ModuleReference}
  {name : String}

/-! ### What an import becomes -/

/-- The clause of named imports that takes the place of a clause: the named imports that it has, as they are
written, and the new name, unless one of them has that name already and keeps it. -/
def namedClause (f : SourceFile) (d : ModuleReference) (name : String) : Bytes :=
  let written := d.specifiers.map (·.text f.text)
  let plain := ((d.specifiers.filter fun s => (s.child? .alias).isNone).filterMap (·.child? .name)).map
    (·.text f.text)
  let all := if Bytes.ofString name ∈ plain then written else written ++ [Bytes.ofString name]
  Bytes.ofString "\x7b " ++ (Bytes.ofString ", ").intercalate all ++ Bytes.ofString " \x7d"

/-- The statement of an import with another clause; everything around the clause stays. -/
def withClause (f : SourceFile) (d : ModuleReference) (clause : Tree) (new : Bytes) : Bytes :=
  f.text.slice d.statement.start clause.start ++ new ++ f.text.slice clause.stop d.statement.stop

/-- The statement that an import of a default export becomes when that got a name. The import of the whole
module stays, in a statement of its own on the line above. -/
def namedStatement (f : SourceFile) (d : ModuleReference) (clause : Tree) (name : String) : Bytes :=
  match d.namespace? with
  | none => withClause f d clause (namedClause f d name)
  | some ns => withClause f d clause (ns.text f.text) ++ Bytes.ofString "\n" ++
      withClause f d clause (namedClause f d name)

/-- The statement of an import when it is given a name, or none. -/
def statementText (f : SourceFile) (d : ModuleReference) : Option String → Bytes
  | none => d.statement.text f.text
  | some name => match d.clause? with
    | some clause => namedStatement f d clause name
    | none => d.statement.text f.text

/-- What is put in the place of an import. -/
def importPatch (f : SourceFile) (given : ModuleReference → Option String) (d : ModuleReference) : Patch :=
  ⟨d.statement.start, d.statement.stop, statementText f d (given d)⟩

/-- An edit of a mention: it replaces the local name of an import that is given another name. -/
def EditsMention (f : SourceFile) (given : ModuleReference → Option String) (e : Edit) : Prop :=
  ∃ d ∈ f.imports, ∃ name bound old, given d = some name ∧ d.defaultName? = some bound ∧
    f.textOf bound = .ok old ∧ old ≠ name ∧ e ∈ referenceEdits f old name

/-- The name that an import is given: that of the default export of the file that its specifier means, if
it binds a default export. -/
def newName? (f : SourceFile) (resolve : Resolver) (names : Keyed Path String) (d : ModuleReference) :
    Option String :=
  match d.defaultName?, d.specifier f with
  | some _, .ok spec => match resolve spec with
    | .ok (some target) => names.get? target
    | _ => none
  | _, _ => none

theorem newName?_eq_some_iff : newName? f resolve names d = some name ↔
    d.defaultName?.isSome = true ∧ ∃ spec target, d.specifier f = .ok spec ∧
      resolve spec = .ok (some target) ∧ names.get? target = some name := by
  unfold newName?
  cases d.defaultName? with
  | none => simp
  | some bound =>
    cases hspec : d.specifier f with
    | error e => simp
    | ok spec =>
      cases hresolve : resolve spec with
      | error e => simp [hresolve]
      | ok target? =>
        cases target? with
        | none => simp [hresolve]
        | some target => simp [hresolve]

/-! ### The edits of an import -/

/-- The clause is written as it is told. -/
theorem ofString_namedClause (name : String) {kept plain : List String}
    (hkept : d.specifiers.mapM f.textOf = .ok kept) (hplain : d.unaliasedNames f = .ok plain) :
    Bytes.ofString ("\x7b " ++ ", ".intercalate (if plain.contains name then kept else kept ++ [name]) ++
      " \x7d") = namedClause f d name := by
  have hwritten := SourceFile.ofString_of_textsOf hkept
  have hplain' := SourceFile.ofString_of_textsOf hplain
  have hmem : plain.contains name = true ↔ Bytes.ofString name ∈ plain.map Bytes.ofString := by
    rw [List.contains_iff_mem, List.mem_map_of_injective fun _ _ => Bytes.ofString_injective]
  unfold namedClause
  rw [← hwritten, ← hplain', Bytes.ofString_append, Bytes.ofString_append, Bytes.ofString_intercalate]
  dsimp only
  by_cases h : plain.contains name = true
  · rw [if_pos h, if_pos (hmem.mp h)]
  · rw [if_neg h, if_neg fun h' => h (hmem.mpr h'), List.map_append]
    rfl

/-- An import that is given a name takes one edit within its statement, which makes of the statement what
it becomes. -/
theorem importEdits_eq_ok {bound : Tree} {es : List Edit} (hd : d ∈ f.imports)
    (hbound : d.defaultName? = some bound) (h : importEdits f d name = .ok es) :
    ∃ e : Edit, es = [e] ∧ d.statement.start ≤ e.start ∧ e.start < e.stop ∧
      e.stop ≤ d.statement.stop ∧
      Patch.patched f.text d.statement.start d.statement.stop [e.patch] =
        statementText f d (some name) := by
  unfold importEdits at h
  cases hclause : d.clause? with
  | none => rw [hclause] at h; cases h
  | some clause =>
    obtain ⟨hlo, hstart, hpos, hstop, hhi⟩ := ModuleReference.default_bounds hd hclause hbound
    rw [hclause] at h
    obtain ⟨kept, hkept, h⟩ := Except.bind_eq_ok h
    obtain ⟨plain, hplain, h⟩ := Except.bind_eq_ok h
    have hnamed := ofString_namedClause name hkept hplain
    unfold statementText namedStatement
    rw [hclause]
    cases hns : d.namespace? with
    | none =>
      rw [hns] at h
      cases h
      refine ⟨_, rfl, hlo, Nat.lt_of_le_of_lt hstart (Nat.lt_of_lt_of_le hpos hstop), hhi, ?_⟩
      simp only [Patch.patched, Edit.patch, SourceFile.replaceEdit, hnamed]
      rfl
    | some ns =>
      rw [hns] at h
      obtain ⟨head, hhead, h⟩ := Except.bind_eq_ok h
      obtain ⟨tail, htail, h⟩ := Except.bind_eq_ok h
      obtain ⟨whole, hwhole, h⟩ := Except.bind_eq_ok h
      cases h
      refine ⟨_, rfl, Nat.le_refl _, ?_, Nat.le_refl _, ?_⟩
      · show d.statement.start < d.statement.stop
        omega
      · have hhead' := SourceFile.ofString_of_decode hhead
        have htail' := SourceFile.ofString_of_decode htail
        have hwhole' := SourceFile.ofString_of_textOf hwhole
        simp only [Patch.patched, Edit.patch, SourceFile.replaceEdit, Bytes.ofString_append, hnamed,
          withClause, hhead', htail', hwhole']
        simp [Bytes.slice]

/-! ### The edits of mentions -/

/-- What lies outside of the imports lies apart from each. -/
theorem outside_apart {o : Tree × List Tree} (ho : o ∈ f.tree.occurrences []) (hroot : o.1 ≠ f.tree)
    (houtside : (f.imports.map (·.statement)).any (·.encloses o.1) = false) (hd : d ∈ f.imports) :
    o.1.stop ≤ d.statement.start ∨ d.statement.stop ≤ o.1.start := by
  -- what is not the root lies below a node at the top level
  have hbelow : o ∈ occurrencesIn [f.tree] f.tree.children := by
    rw [occurrences_eq] at ho
    rcases List.mem_cons.mp ho with rfl | hbelow
    · exact absurd rfl hroot
    · exact hbelow
  obtain ⟨c, hc, hstart, -, hstop⟩ := f.nodes_placed.exists_of_occurrence hbelow
  rcases f.nodes_placed.apart hc (SourceFile.import_mem_nodes hd) with rfl | hbefore | hbehind
  · -- that node is not the import, which would hold it
    have hany := List.any_eq_false.mp houtside d.statement (List.mem_map_of_mem hd)
    simp only [encloses, Bool.and_eq_true, decide_eq_true_eq, not_and] at hany
    exact absurd hstop (hany hstart)
  · exact .inl (Nat.le_trans hstop hbefore)
  · exact .inr (Nat.le_trans hbehind hstart)

/-- A mention that is replaced covers something, and lies apart from every import. -/
theorem editsMention_apart {given : ModuleReference → Option String} {e : Edit}
    (h : EditsMention f given e) :
    e.start < e.stop ∧ ∀ d ∈ f.imports, e.stop ≤ d.statement.start ∨ d.statement.stop ≤ e.start := by
  obtain ⟨d, hd, name, bound, old, -, hbound, hold, -, he⟩ := h
  obtain ⟨⟨t, above⟩, ho, he⟩ := List.mem_filterMap.mp he
  split at he
  case isFalse => cases he
  case isTrue hsought =>
    obtain ⟨text, -, rfl⟩ := Option.map_eq_some_iff.mp he
    simp only [Bool.and_eq_true, decide_eq_true_eq, Bool.not_eq_true'] at hsought
    obtain ⟨⟨hname, htext⟩, houtside⟩ := hsought
    show t.start < t.stop ∧ ∀ d ∈ f.imports, t.stop ≤ d.statement.start ∨ d.statement.stop ≤ t.start
    constructor
    · -- the local name is not empty, and the mention has the same text
      obtain ⟨clause, hclause, -, -⟩ := ModuleReference.defaultName?_eq_some hbound
      obtain ⟨-, -, hpos, hstop, hhi⟩ := ModuleReference.default_bounds hd hclause hbound
      have hlength := (SourceFile.import_placed hd).2
      have hbound' : (bound.text f.text).length = bound.stop - bound.start :=
        Bytes.length_slice (by omega)
      have hbytes : (t.text f.text).length = bound.stop - bound.start := by
        rw [htext, SourceFile.ofString_of_textOf hold, hbound']
      unfold Tree.text Bytes.slice at hbytes
      rw [List.length_drop, List.length_take] at hbytes
      omega
    · intro d' hd'
      refine outside_apart ho (fun heq => ?_) houtside hd'
      obtain rfl : t = f.tree := heq
      cases hname

/-! ### The plan for a file -/

/-- What is planned for an import: nothing when it is given no name, and otherwise the edits of the mentions
of its local name and its own. -/
theorem importPlan_eq_ok {first : Option (List Edit)}
    (h : (importPlan f resolve names d).outcome = .ok first) :
    match newName? f resolve names d with
    | none => first = none
    | some name => ∃ bound old own, d.defaultName? = some bound ∧ f.textOf bound = .ok old ∧
        importEdits f d name = .ok own ∧
        first = some ((if old = name then [] else referenceEdits f old name) ++ own) := by
  obtain ⟨j, h⟩ := exists_run h
  unfold importPlan at h
  obtain ⟨spec, j₁, hspec, h⟩ := bind_eq_ok h
  obtain ⟨target?, j₂, hresolve, h⟩ := bind_eq_ok h
  replace hspec := (ofExcept_eq_ok hspec).1
  replace hresolve := (ofExcept_eq_ok hresolve).1
  unfold newName?
  rw [hspec]
  cases target? with
  | none =>
    obtain ⟨_, _, -, h⟩ := bind_eq_ok h
    cases h
    cases d.defaultName? with
    | none => rfl
    | some bound => simp [hresolve]
  | some target =>
    dsimp only at h
    cases hbound : d.defaultName? with
    | none =>
      rw [hbound] at h
      cases hname : names.get? target <;> rw [hname] at h <;> cases h <;> rfl
    | some bound =>
      cases hname : names.get? target with
      | none =>
        rw [hbound, hname] at h
        cases h
        simp [hresolve, hname]
      | some name =>
        rw [hbound, hname] at h
        obtain ⟨old, _, hold, h⟩ := bind_eq_ok h
        obtain ⟨own, _, hown, h⟩ := bind_eq_ok h
        obtain ⟨_, _, -, h⟩ := bind_eq_ok h
        cases h
        simp only [hresolve, hname]
        exact ⟨bound, old, own, rfl, (ofExcept_eq_ok hold).1, (ofExcept_eq_ok hown).1, rfl⟩

theorem plansOf_cons_outcome (rest : List ModuleReference) :
    (plansOf f resolve names (d :: rest)).outcome = (importPlan f resolve names d).outcome >>= fun first =>
      (plansOf f resolve names rest).outcome >>= fun more => .ok (first.toList ++ more) := by
  let more (first : Option (List Edit)) : Journaled Fault (List (List Edit)) :=
    plansOf f resolve names rest >>= fun more => Pure.pure (first.toList ++ more)
  have hmore : ∀ first, Steady (more first) := fun _ =>
    (plansOf_steady f resolve names rest).bind fun _ => pure_steady _
  show outcome (importPlan f resolve names d >>= more) = _
  rw [outcome_bind hmore]
  exact congrArg _ (funext fun first => outcome_bind fun _ => pure_steady _)

/-- The plans for imports are those for each of them. -/
theorem plansOf_eq_ok {ds : List ModuleReference} {plans : List (List Edit)}
    (h : (plansOf f resolve names ds).outcome = .ok plans) :
    (∀ d ∈ ds, ∃ first, (importPlan f resolve names d).outcome = .ok first) ∧
      ∀ es, es ∈ plans ↔ ∃ d ∈ ds, (importPlan f resolve names d).outcome = .ok (some es) := by
  induction ds generalizing plans with
  | nil =>
    cases h
    simp
  | cons d rest ih =>
    rw [plansOf_cons_outcome] at h
    obtain ⟨first, hfirst, h⟩ := Except.bind_eq_ok h
    obtain ⟨more, hmore, h⟩ := Except.bind_eq_ok h
    cases h
    obtain ⟨hall, hmem⟩ := ih hmore
    refine ⟨List.forall_mem_cons.mpr ⟨⟨first, hfirst⟩, hall⟩, fun es => ?_⟩
    rw [List.mem_append, hmem, List.exists_mem_cons_iff, hfirst]
    simp [eq_comm]

section

variable {plans : List (List Edit)} (hplan : (plan f resolve names).outcome = .ok plans)

include hplan

/-- The edits of an import that is given a name are among those that are planned. -/
theorem planned_of_newName? (hd : d ∈ f.imports) (hname : newName? f resolve names d = some name) :
    ∃ bound old own, d.defaultName? = some bound ∧ f.textOf bound = .ok old ∧
      importEdits f d name = .ok own ∧
      (if old = name then [] else referenceEdits f old name) ++ own ∈ plans := by
  obtain ⟨hall, hmem⟩ := plansOf_eq_ok hplan
  obtain ⟨first, hfirst⟩ := hall d hd
  have hspec := importPlan_eq_ok hfirst
  rw [hname] at hspec
  obtain ⟨bound, old, own, hbound, hold, hown, rfl⟩ := hspec
  exact ⟨bound, old, own, hbound, hold, hown, (hmem _).mpr ⟨d, hd, hfirst⟩⟩

/-- The edits for a file are the own edits of the imports that are given names, and those of the mentions
of their local names. -/
theorem mem_plan_iff {e : Edit} : e ∈ plans.flatten ↔
    (∃ d ∈ f.imports, ∃ name, newName? f resolve names d = some name ∧
      importEdits f d name = .ok [e]) ∨ EditsMention f (newName? f resolve names) e := by
  obtain ⟨hall, hmem⟩ := plansOf_eq_ok hplan
  rw [List.mem_flatten]
  constructor
  · rintro ⟨es, hes, he⟩
    obtain ⟨d, hd, hfirst⟩ := (hmem es).mp hes
    have hspec := importPlan_eq_ok hfirst
    cases hname : newName? f resolve names d with
    | none => rw [hname] at hspec; cases hspec
    | some name =>
      rw [hname] at hspec
      obtain ⟨bound, old, own, hbound, hold, hown, hes⟩ := hspec
      obtain rfl := Option.some.inj hes
      obtain ⟨e', rfl, -⟩ := importEdits_eq_ok hd hbound hown
      rcases List.mem_append.mp he with he | he
      · split at he
        · cases he
        · exact .inr ⟨d, hd, name, bound, old, hname, hbound, hold, ‹_›, he⟩
      · obtain rfl := List.mem_singleton.mp he
        exact .inl ⟨d, hd, name, hname, hown⟩
  · rintro (⟨d, hd, name, hname, hown⟩ | ⟨d, hd, name, bound, old, hname, hbound, hold, hne, he⟩)
    · obtain ⟨_, _, own, -, -, hown', hes⟩ := planned_of_newName? hplan hd hname
      obtain rfl := Except.ok.inj (hown.symm.trans hown')
      exact ⟨_, hes, by simp⟩
    · obtain ⟨bound', old', own, hbound', hold', -, hes⟩ := planned_of_newName? hplan hd hname
      obtain rfl := Option.some.inj (hbound.symm.trans hbound')
      obtain rfl := Except.ok.inj (hold.symm.trans hold')
      rw [if_neg hne] at hes
      exact ⟨_, hes, List.mem_append_left _ he⟩

/-- An edit for a file covers something, and lies apart from each import unless it is the import's own. -/
theorem plan_edit_place {e : Edit} (he : e ∈ plans.flatten) :
    e.start < e.stop ∧ ∀ d ∈ f.imports,
      e.patch.Apart (importPatch f (newName? f resolve names) d) ∨
      ∃ name, newName? f resolve names d = some name ∧ importEdits f d name = .ok [e] ∧
        e.patch.Within (importPatch f (newName? f resolve names) d) := by
  rcases (mem_plan_iff hplan).mp he with ⟨d, hd, name, hname, hown⟩ | hmention
  · obtain ⟨bound, hbound⟩ := Option.isSome_iff_exists.mp (newName?_eq_some_iff.mp hname).1
    obtain ⟨e', he', hstart, hpos, hstop, -⟩ := importEdits_eq_ok hd hbound hown
    obtain rfl := List.singleton_inj.mp he'
    refine ⟨hpos, fun d' hd' => ?_⟩
    rcases SourceFile.imports_apart hd hd' with rfl | hbefore | hbehind
    · exact .inr ⟨name, hname, hown, hstart, hstop⟩
    · exact .inl (.inl (Nat.le_trans hstop hbefore))
    · exact .inl (.inr (Nat.le_trans hbehind hstart))
  · obtain ⟨hpos, hapart⟩ := editsMention_apart hmention
    exact ⟨hpos, fun d hd => .inl (hapart d hd)⟩

/-- The edits within an import are its own edit alone, if it is given a name, and none otherwise. What they
make of its statement is what the import becomes. -/
theorem patched_within_import (hd : d ∈ f.imports) {m : List Patch}
    (hm : Patch.InOrder d.statement.start d.statement.stop m)
    (hmem : ∀ p, p ∈ m ↔ (∃ e ∈ plans.flatten, p = e.patch) ∧
      p.Within (importPatch f (newName? f resolve names) d)) :
    Patch.patched f.text d.statement.start d.statement.stop m =
      statementText f d (newName? f resolve names d) := by
  have hown : ∀ p ∈ m, ∃ e name, p = e.patch ∧ newName? f resolve names d = some name ∧
      importEdits f d name = .ok [e] := by
    intro p hp
    obtain ⟨⟨e, he, rfl⟩, hwithin⟩ := (hmem p).mp hp
    obtain ⟨hpos, hplace⟩ := plan_edit_place hplan he
    rcases hplace d hd with hapart | ⟨name, hname, hedits, -⟩
    · exact absurd hwithin (hapart.not_within hpos)
    · exact ⟨e, name, rfl, hname, hedits⟩
  cases hname : newName? f resolve names d with
  | none =>
    have hnil : m = [] := by
      refine List.eq_nil_iff_forall_not_mem.mpr fun p hp => ?_
      obtain ⟨_, _, -, hsome, -⟩ := hown p hp
      rw [hname] at hsome
      cases hsome
    rw [hnil]
    rfl
  | some name =>
    obtain ⟨bound, old, own, hbound, -, hedits, hes⟩ := planned_of_newName? hplan hd hname
    obtain ⟨e, rfl, hstart, hpos, hstop, hpatched⟩ := importEdits_eq_ok hd hbound hedits
    have he : e.patch ∈ m := by
      refine (hmem _).mpr ⟨⟨e, List.mem_flatten.mpr ⟨_, hes, by simp⟩, rfl⟩, hstart, hstop⟩
    have hsingle : m = [e.patch] := by
      refine hm.eq_singleton he hpos fun p hp => ?_
      obtain ⟨e', name', rfl, hname', hedits'⟩ := hown p hp
      obtain rfl := Option.some.inj (hname.symm.trans hname')
      obtain rfl := List.singleton_inj.mp (Except.ok.inj (hedits.symm.trans hedits'))
      rfl
    rw [hsingle, hpatched]

end

/-- What is put in the place of the imports lies in order. -/
theorem importPatches_inOrder (f : SourceFile) (given : ModuleReference → Option String) :
    Patch.InOrder 0 f.text.length (f.imports.map (importPatch f given)) := by
  have hplaced := f.nodes_placed.sublist f.import_statements_sublist
  generalize 0 = lo at hplaced ⊢
  generalize f.imports = ds at hplaced ⊢
  induction ds generalizing lo with
  | nil => exact hplaced.le
  | cons d rest ih =>
    obtain ⟨hlo, hd, hrest⟩ := hplaced.uncons
    exact ⟨hlo, hd.start_le, ih _ hrest⟩

/-- What the edits for a file make of its text: each import becomes what it is to become with the name that
it is given, mentions of local names are replaced, and everything else stays. -/
theorem plan_repairs {plans : List (List Edit)} {text : Bytes}
    (hplan : (plan f resolve names).outcome = .ok plans)
    (happlied : Edit.applyAll plans.flatten f.text = .ok text) :
    ∃ patches, Patch.InOrder 0 f.text.length patches ∧
      text = Patch.patched f.text 0 f.text.length patches ∧
      ∀ q, q ∈ patches ↔ (∃ d ∈ f.imports, q = importPatch f (newName? f resolve names) d) ∨
        ∃ e, EditsMention f (newName? f resolve names) e ∧ q = e.patch := by
  have hplace {e : Edit} (he : e ∈ plans.flatten) := plan_edit_place hplan he
  obtain ⟨l, hl, rfl, hmem⟩ := Edit.applyAll_eq_patched happlied fun e he => (hplace he).1.le
  have hcovers : ∀ p ∈ l, p.start < p.stop := by
    intro p hp
    obtain ⟨e, he, rfl⟩ := (hmem p).mp hp
    exact (hplace he).1
  have hclear : ∀ p ∈ l, ∀ w ∈ f.imports.map (importPatch f (newName? f resolve names)),
      p.Apart w ∨ p.Within w := by
    intro p hp w hw
    obtain ⟨e, he, rfl⟩ := (hmem p).mp hp
    obtain ⟨d, hd, rfl⟩ := List.mem_map.mp hw
    exact ((hplace he).2 d hd).imp_right fun ⟨_, _, _, h⟩ => h
  have hbytes : ∀ w ∈ f.imports.map (importPatch f (newName? f resolve names)), ∀ m,
      Patch.InOrder w.start w.stop m → (∀ p, p ∈ m ↔ p ∈ l ∧ p.Within w) →
        Patch.patched f.text w.start w.stop m = w.bytes := by
    intro w hw m hm hmm
    obtain ⟨d, hd, rfl⟩ := List.mem_map.mp hw
    refine patched_within_import hplan hd hm fun p => ?_
    rw [hmm, hmem]
  obtain ⟨qs, hqs, hsame, hmemqs⟩ := Patch.exists_patched_by_windows hl
    (importPatches_inOrder f (newName? f resolve names)) hcovers hclear hbytes
  refine ⟨qs, hqs, hsame, fun q => ?_⟩
  rw [hmemqs]
  refine or_congr ?_ ?_
  · rw [List.mem_map]
    exact exists_congr fun d => and_congr_right fun _ => eq_comm
  · -- the edits apart from all imports are those of mentions
    rw [hmem]
    constructor
    · rintro ⟨⟨e, he, rfl⟩, hapart⟩
      rcases (mem_plan_iff hplan).mp he with ⟨d, hd, name, hname, hown⟩ | hmention
      · obtain ⟨bound, hbound⟩ := Option.isSome_iff_exists.mp (newName?_eq_some_iff.mp hname).1
        obtain ⟨e', he', hstart, hpos, hstop, -⟩ := importEdits_eq_ok hd hbound hown
        obtain rfl := List.singleton_inj.mp he'
        have hwithin : e.patch.Within (importPatch f (newName? f resolve names) d) := ⟨hstart, hstop⟩
        exact absurd hwithin ((hapart _ (List.mem_map_of_mem hd)).not_within hpos)
      · exact ⟨e, hmention, rfl⟩
    · rintro ⟨e, hmention, rfl⟩
      refine ⟨⟨e, (mem_plan_iff hplan).mpr (.inr hmention), rfl⟩, fun w hw => ?_⟩
      obtain ⟨d, hd, rfl⟩ := List.mem_map.mp hw
      exact (editsMention_apart hmention).2 d hd

end NamedImport

/-! ### Runs -/

open NamedImport

/-- How the imports of a file follow the records of a run: `f` is the file as the second pass finds it, `g`
the file as the run leaves it, and `given` says which name an import is given, if it is given one. -/
structure ImportsFollow (w : Workspace) (r : NamingRun) (f g : SourceFile)
    (given : ModuleReference → Option String) : Prop where
  /-- An import is given a name exactly when it binds a default export and its specifier means a file with
  a record, and the name is that of the record. -/
  given_iff : ∀ d ∈ f.imports, ∀ name, given d = some name ↔ d.defaultName?.isSome = true ∧
    ∃ spec target, d.specifier f = .ok spec ∧ w.resolve f.path spec = .ok (some target) ∧
      r.result.records.get? target = some name
  /-- A record stands for a task of the first pass that ended with a name. -/
  record_iff : ∀ target name, r.result.records.get? target = some name ↔
    ∃ m, w.file? target = some m ∧ (exportJob.ending w m).result = .ok (some name)
  /-- The first pass left the imports of the file as they were. -/
  kept_before : ∃ m, w.file? f.path = some m ∧ m.KeepsImports f.text
  /-- The specifier stands in the part of the statement that stays when the clause is replaced. -/
  source_stays : ∀ d ∈ f.imports, ∀ clause, d.clause? = some clause →
    d.statement.start ≤ d.source.start ∧ d.source.stop ≤ clause.start ∨
      clause.stop ≤ d.source.start ∧ d.source.stop ≤ d.statement.stop
  /-- The text is what it was, but for the imports and the mentions of the local names that they bound. -/
  text_eq : ∃ patches, Patch.InOrder 0 f.text.length patches ∧
    g.text = Patch.patched f.text 0 f.text.length patches ∧
    ∀ q, q ∈ patches ↔ (∃ d ∈ f.imports, q = importPatch f given d) ∨
      ∃ e, EditsMention f given e ∧ q = e.patch
  /-- What has changed is on disk. -/
  saved : g = f ∨ r.workspace.disk.lookup? f.path = some (.file g.text)

/-- A task of the second pass that succeeds has made the edits that it planned, and has written the text if
it changed. -/
theorem importJob_eq_ok {names : Keyed Path String} {w : Workspace} {f : SourceFile} {n : Nat}
    (h : ((importJob names).ending w f).result = .ok n) :
    ∃ plans, (plan f (w.resolve f.path) names).outcome = .ok plans ∧
      Edit.applyAll plans.flatten f.text = .ok ((importJob names).ending w f).file.text ∧
      (((importJob names).ending w f).file = f ∨ ((importJob names).ending w f).written =
        some ((importJob names).ending w f).file.text) := by
  have hplanned : ∀ {a edits}, importJob names w.config w.knows f = .ok (a, some edits) →
      ∃ plans, (plan f (w.resolve f.path) names).outcome = .ok plans ∧ edits = plans.flatten := by
    intro a edits hjob
    unfold importJob at hjob
    unfold Workspace.resolve
    cases hout : (plan f (Resolution.resolve w.config w.knows f.path) names).outcome with
    | error e => rw [hout] at hjob; cases hjob
    | ok plans =>
      rw [hout] at hjob
      cases hjob
      exact ⟨plans, rfl, rfl⟩
  have hends := (importJob names).ends w f
  generalize (importJob names).ending w f = e at h hends ⊢
  cases hends with
  | failed | unapplied | refused => cases h
  | idle hjob =>
    unfold importJob at hjob
    cases hout : (plan f (Resolution.resolve w.config w.knows f.path) names).outcome <;>
      rw [hout] at hjob <;> cases hjob
  | clean hjob hedit hdirty =>
    obtain ⟨plans, hplans, rfl⟩ := hplanned hjob
    obtain ⟨happlied, hg⟩ := SourceFile.edited_eq_ok hedit
    refine ⟨plans, hplans, happlied, .inl (hg.resolve_right fun hg => ?_)⟩
    rw [hg] at hdirty
    cases hdirty
  | written hjob hedit =>
    obtain ⟨plans, hplans, rfl⟩ := hplanned hjob
    exact ⟨plans, hplans, (SourceFile.edited_eq_ok hedit).1, .inr rfl⟩

/-- In every run, whichever tasks fail, the imports of each file whose task in the second pass succeeds
follow the records of the first pass. -/
theorem default_imports_follow_records {w : Workspace} (hw : w.Separate) {limit : Nat}
    {σ₁ σ₂ : List Path} {r : NamingRun} (hrun : nameDefaultsBy limit σ₁ σ₂ w = some r) {p : Path}
    (hok : (⟨p, none⟩ : Outcome) ∈ r.result.imports.outcomes) :
    ∃ f g given, r.exports.workspace.file? p = some f ∧ r.workspace.file? p = some g ∧
      ImportsFollow w r f g given := by
  obtain ⟨hexports, himports⟩ := nameDefaultsBy_eq_some.mp hrun
  obtain ⟨hs, hc⟩ := passBy_sound hw hexports
  have hw₁ := hw.congr hs.paths
  obtain ⟨-, hd⟩ := passBy_sound hw₁ himports
  -- the file at the path, and how its task ended
  obtain ⟨v, hv, hvisit⟩ := List.mem_map.mp hok
  obtain ⟨f, hf, hend⟩ := (hd.mem_visits_iff hw₁.nodup).mp hv
  rw [hvisit] at hf hend
  obtain rfl := Workspace.path_of_file? hf
  have hsuccess : ∃ n, ((importJob r.records).ending r.exports.workspace f).result = .ok n := by
    cases hresult : ((importJob r.records).ending r.exports.workspace f).result with
    | error e =>
      rw [hend, hresult] at hvisit
      cases hvisit
    | ok n => exact ⟨n, rfl⟩
  obtain ⟨n, hresult⟩ := hsuccess
  obtain ⟨plans, hplan, happlied, hsaved⟩ := importJob_eq_ok hresult
  -- both passes see the same configuration and the same paths
  have hresolve : r.exports.workspace.resolve f.path = w.resolve f.path := by
    unfold Workspace.resolve
    rw [hc.config, Workspace.knows_congr hs.paths]
  rw [hresolve] at hplan
  -- the file that the first pass found at the path
  obtain ⟨m, hm⟩ : ∃ m, w.file? f.path = some m := by
    rw [← Workspace.mem_paths_iff, ← hs.paths]
    exact Workspace.mem_paths_iff.mpr ⟨f, hf⟩
  have hkept : m.KeepsImports f.text := by
    obtain rfl := Option.some.inj (hf.symm.trans (hc.file? hw.nodup hm))
    exact exportJob_keeps_imports w m
  refine ⟨f, _, newName? f (w.resolve f.path) r.records, hf, hd.file? hw₁.nodup hf, ?_⟩
  refine ⟨fun d _ name => newName?_eq_some_iff, fun target name => hc.records_eq_some_iff hs hw.nodup,
    ⟨m, hm, hkept⟩, fun d hd clause hclause => ModuleReference.source_outside_clause hd hclause,
    plan_repairs hplan happlied, hsaved.imp_right fun hwritten => ?_⟩
  show r.imports.workspace.disk.lookup? f.path = _
  rw [hd.lookup? f (Workspace.mem_of_file? hf)]
  unfold Ending.entry
  rw [hwritten]

/-- In the sample project the import of a default export beside a named one becomes an import of two
names. -/
theorem sampleProject_imports_follow :
    ∃ r f g given, nameDefaultsBy 2 (sampleSchedule "abababaa") (sampleSchedule "babababb") sampleProject =
        some r ∧ (⟨samplePath "b.ts", none⟩ : Outcome) ∈ r.result.imports.outcomes ∧
      r.exports.workspace.file? (samplePath "b.ts") = some f ∧
      r.workspace.file? (samplePath "b.ts") = some g ∧ ImportsFollow sampleProject r f g given ∧
      g.text = Bytes.ofString "import \x7b y, a \x7d from \"./a\";\na;\n" := by
  have hany : (nameDefaultsBy 2 (sampleSchedule "abababaa") (sampleSchedule "babababb") sampleProject).any
      (fun r => decide ((⟨samplePath "b.ts", none⟩ : Outcome) ∈ r.result.imports.outcomes ∧
        (r.workspace.file? (samplePath "b.ts")).map (·.text) =
          some (Bytes.ofString "import \x7b y, a \x7d from \"./a\";\na;\n"))) = true := by
    decide +kernel
  obtain ⟨r, hrun, hsample⟩ := (Option.any_eq_true _ _).mp hany
  obtain ⟨hok, htext⟩ := of_decide_eq_true hsample
  obtain ⟨f, g, given, hf, hg, hfollow⟩ := default_imports_follow_records sampleProject_separate hrun hok
  rw [hg] at htext
  exact ⟨r, f, g, given, hrun, hok, hf, hg, hfollow, Option.some.inj htext⟩

end Codemod
