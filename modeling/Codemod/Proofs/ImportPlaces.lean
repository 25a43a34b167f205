import Codemod.Proofs.TreeSpans

/-!
# Where the imports of a file lie

The statements of the imports are nodes at the top level of the file. So they lie in order and apart, and
what an import holds lies within its statement: its specifier, and beside it the clause with all the names
that it binds.

Main statements:

* `SourceFile.imports_apart` says that two imports are the same or lie apart;
* `ModuleReference.source_outside_clause` says that the specifier stands beside the clause.
-/

namespace Codemod

open Syntax Syntax.Tree

namespace SourceFile

variable {f : SourceFile}

theorem tree_placed (f : SourceFile) : f.tree.Placed f.text :=
  parse_placed f.dialect f.text

theorem nodes_placed (f : SourceFile) : PlacedIn f.text 0 f.text.length f.tree.children :=
  f.tree_placed.children

theorem reference?_eq_some {t : Tree} {d : ModuleReference} (h : reference? t = some d) :
    d.statement = t ∧ t.child? .source = some d.source ∧ d.source.is .string = true := by
  unfold reference? at h
  split at h
  · split at h
    · split at h
      · cases h
        exact ⟨rfl, ‹_›, ‹_›⟩
      · cases h
    · cases h
  · cases h

theorem statements_sublist (f : SourceFile) : f.statements.Sublist f.tree.children :=
  List.filter_sublist.trans List.filter_sublist

/-- The statements that refer to other modules are statements of the file, in their order. -/
theorem reference_statements_sublist (f : SourceFile) :
    (f.references.map (·.statement)).Sublist f.statements := by
  unfold references
  induction f.statements with
  | nil => exact .slnil
  | cons t rest ih =>
    rw [List.filterMap_cons]
    cases ht : reference? t with
    | none => exact ih.cons t
    | some d =>
      rw [List.map_cons, (reference?_eq_some ht).1]
      exact ih.cons_cons t

/-- The statements of the imports are nodes of the file, in their order. -/
theorem import_statements_sublist (f : SourceFile) :
    (f.imports.map (·.statement)).Sublist f.tree.children :=
  ((f.imports_sublist.map _).trans f.reference_statements_sublist).trans f.statements_sublist

theorem reference_source {d : ModuleReference} (hd : d ∈ f.references) :
    d.statement.child? .source = some d.source ∧ d.source.is .string = true := by
  obtain ⟨t, -, ht⟩ := List.mem_filterMap.mp hd
  obtain ⟨rfl, hsource⟩ := reference?_eq_some ht
  exact hsource

theorem import_source {d : ModuleReference} (hd : d ∈ f.imports) :
    d.statement.child? .source = some d.source ∧ d.source.is .string = true :=
  reference_source (f.imports_sublist.mem hd)

theorem import_mem_nodes {d : ModuleReference} (hd : d ∈ f.imports) :
    d.statement ∈ f.tree.children :=
  f.import_statements_sublist.mem (List.mem_map_of_mem hd)

/-- Two imports are the same or lie apart. -/
theorem imports_apart {d d' : ModuleReference} (hd : d ∈ f.imports) (hd' : d' ∈ f.imports) :
    d = d' ∨ d.statement.stop ≤ d'.statement.start ∨ d'.statement.stop ≤ d.statement.start := by
  refine (f.nodes_placed.apart (import_mem_nodes hd) (import_mem_nodes hd')).imp_left fun h => ?_
  have hsource := (import_source hd).1
  rw [h, (import_source hd').1] at hsource
  obtain ⟨statement, source⟩ := d
  obtain rfl := Option.some.inj hsource
  obtain rfl : statement = d'.statement := h
  rfl

theorem import_placed {d : ModuleReference} (hd : d ∈ f.imports) :
    d.statement.Placed f.text ∧ d.statement.stop ≤ f.text.length :=
  (f.nodes_placed.bounds (import_mem_nodes hd)).2

theorem import_kind {d : ModuleReference} (hd : d ∈ f.imports) :
    d.statement.is .importStatement = true :=
  (List.mem_filter.mp hd).2

/-- An import holds its specifier with the quotes, so it is not empty. -/
theorem import_start_lt {d : ModuleReference} (hd : d ∈ f.imports) :
    d.statement.start < d.statement.stop := by
  obtain ⟨hsource, hstring⟩ := import_source hd
  obtain ⟨hlo, hplaced, hhi⟩ :=
    (import_placed hd).1.children.bounds (List.mem_of_find?_eq_some hsource)
  have := hplaced.start_lt (.inr hstring)
  omega

/-- A statement of another kind lies apart from every import. -/
theorem import_apart_of_kind {t : Tree} {d : ModuleReference} (ht : t ∈ f.tree.children)
    (hkind : t.is .importStatement = false) (hd : d ∈ f.imports) :
    t.stop ≤ d.statement.start ∨ d.statement.stop ≤ t.start := by
  refine (f.nodes_placed.apart ht (import_mem_nodes hd)).resolve_left ?_
  rintro rfl
  rw [import_kind hd] at hkind
  cases hkind

end SourceFile

theorem Syntax.Tree.childOfKind?_eq_some {t c : Tree} {k : Kind} (h : t.childOfKind? k = some c) :
    c ∈ t.children ∧ c.is k = true :=
  ⟨List.mem_of_find?_eq_some h, List.find?_some (p := fun x : Tree => x.is k) h⟩

namespace ModuleReference

variable {f : SourceFile} {d : ModuleReference} {clause bound : Tree}

theorem clause_mem (h : d.clause? = some clause) :
    clause ∈ d.statement.children ∧ clause.is .importClause = true :=
  childOfKind?_eq_some h

theorem defaultName?_eq_some (h : d.defaultName? = some bound) :
    ∃ clause, d.clause? = some clause ∧ bound ∈ clause.children ∧ bound.is .identifier = true := by
  obtain ⟨clause, hclause, hbound⟩ := Option.bind_eq_some_iff.mp h
  exact ⟨clause, hclause, childOfKind?_eq_some hbound⟩

/-- The specifier of an import stands before or behind its clause. -/
theorem source_outside_clause (hd : d ∈ f.imports) (h : d.clause? = some clause) :
    d.statement.start ≤ d.source.start ∧ d.source.stop ≤ clause.start ∨
      clause.stop ≤ d.source.start ∧ d.source.stop ≤ d.statement.stop := by
  have hchildren := (SourceFile.import_placed hd).1.children
  obtain ⟨hsource, hstring⟩ := SourceFile.import_source hd
  have hmem := List.mem_of_find?_eq_some hsource
  obtain ⟨hstart, -, hstop⟩ := hchildren.bounds hmem
  obtain ⟨hclause, hkind⟩ := clause_mem h
  rcases hchildren.apart hmem hclause with heq | hbefore | hbehind
  · -- a node between quotes is no clause
    rw [heq] at hstring
    have hone := of_decide_eq_true hstring
    have hother := of_decide_eq_true hkind
    rw [hone] at hother
    cases hother
  · exact .inl ⟨hstart, hbefore⟩
  · exact .inr ⟨hbehind, hstop⟩

/-- The name that an import binds by default is not empty, and lies in a clause within the statement. -/
theorem default_bounds (hd : d ∈ f.imports) (hclause : d.clause? = some clause)
    (hbound : d.defaultName? = some bound) :
    d.statement.start ≤ clause.start ∧ clause.start ≤ bound.start ∧ bound.start < bound.stop ∧
      bound.stop ≤ clause.stop ∧ clause.stop ≤ d.statement.stop := by
  obtain ⟨clause', hclause', hmem, hkind⟩ := defaultName?_eq_some hbound
  obtain rfl := Option.some.inj (hclause.symm.trans hclause')
  obtain ⟨hlo, hplaced, hhi⟩ := (SourceFile.import_placed hd).1.children.bounds (clause_mem hclause).1
  obtain ⟨hlo', hplaced', hhi'⟩ := hplaced.children.bounds hmem
  exact ⟨hlo, hlo', hplaced'.start_lt (.inl hkind), hhi', hhi⟩

end ModuleReference

end Codemod
