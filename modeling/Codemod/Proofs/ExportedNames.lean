import Codemod.Proofs.RenamedClauses

/-!
# The names that exports keep

When the mentions of a name are replaced, what a module exports through its clauses keeps its names. A name that is
given to a whole module (`export * as name from`) is exported too, but it is no specifier, and is replaced as if it
meant something bound in the file.

Behind such a name stands the word `from`, so that the new name ends where the old one did.

Main statements:

* `clauses_keep_exported_names` says that every export clause is read again as one of the same names, and when a name
  for a whole module is kept;
* `reexported_name_replaced` says that it is not always.
-/

namespace Codemod

open Syntax Syntax.Tree Pattern Grammar

namespace Syntax

/-! ### Where a name for a whole module stands -/

/-- Looks out for nodes of a kind. -/
def lookout (k : Kind) : Watch Rule Bool where
  start _ := false
  step seen c := seen || c.kind == k
  accepts _ := true
  next _ := [false, true]
  after _ seen := [seen]
  states := [false, true]
  step_mem seen c := by cases seen || c.kind == k <;> decide
  mem_states seen := by cases seen <;> decide

/-- No rule adds a name for a whole module. -/
theorem lookout_watches (d : Dialect) : (lookout .namespaceExport).Watches (Grammar.rules d) := by
  refine ⟨fun r => ?_, fun r => ?_, rfl⟩
  · cases d <;> cases r <;> decide +kernel
  · cases d <;> cases r <;> decide +kernel

theorem lookout_along {k : Kind} {l : List Sight} (h : (lookout k).along false l = false) :
    ∀ c ∈ l, c.kind ≠ k := by
  have hall : ∀ (q : Bool) (l : List Sight), (lookout k).along q l = (q || l.any (·.kind == k)) := by
    intro q l
    induction l generalizing q with
    | nil => simp [Watch.along]
    | cons c rest ih =>
      rw [← List.singleton_append, Watch.along_append, ih]
      simp [Watch.along, lookout, Bool.or_assoc]
  rw [hall, Bool.false_or, List.any_eq_false] at h
  exact fun c hc heq => h c hc (by simp [heq])

variable {d : Dialect} {source : Bytes} {around : Surroundings} {p : Phrase} {s s' : Reading} {lo : Nat}

/-- What a pattern adds that has no name for a whole module in it. -/
theorem ran_lacks (hs : s.Sound source lo) (h : Ran (Grammar.rules d) around p s s')
    (hp : p.wellBuilt = true ∧ (lookout .namespaceExport).checks p = true ∧
      (lookout .namespaceExport).flow p false = [false]) :
    (∃ added, s'.found = added ++ s.found ∧ ∀ t ∈ added, t.kind ≠ .namespaceExport) ∧ s'.Sound source lo := by
  obtain ⟨fuel, h⟩ := h
  obtain ⟨added, hfound, -, hq⟩ := Watch.run_flow (lookout_watches d) (Grammar.rules_wellBuilt d) hp.1 hp.2.1 hs h
  refine ⟨⟨added, hfound, fun t ht hkind => ?_⟩, (run_sound (Grammar.rules_wellBuilt d) hp.1 hs h).1⟩
  have hfalse : _ ∈ (lookout .namespaceExport).flow p false := hq false
  rw [hp.2.2] at hfalse
  refine lookout_along (List.mem_singleton.mp hfalse) (t.sight source) ?_ hkind
  refine List.mem_map_of_mem (List.mem_filter.mpr ⟨List.mem_reverse.mpr ht, ?_⟩)
  simp [Tree.is, hkind]

/-- What an export is read by. -/
abbrev exportBody : Phrase :=
  all [many (call .decorator), "export", goesOn .expression,
    any [
      all [opt "type", "*", fromModule, opt importAttribute, semicolon .declaration],
      all [opt "type", namespaceExport, fromModule, opt importAttribute, semicolon .declaration],
      all [opt "type", exportClause, opt fromModule, opt importAttribute, semicolon .declaration],
      all [equals, call .expression, semicolon .expression],
      all ["as", "namespace", identifier, semicolon .declaration],
      defaultExport,
      part .declaration anyDeclaration]]

/-- A name for a whole module stands before the word `from`. -/
theorem exists_from {statement t : Tree} {done : Reading}
    (h : ReadFrom (Grammar.rules d) source exportBody statement around s done) (ht : t ∈ statement.children)
    (hkind : t.kind = .namespaceExport) :
    ∃ before comments c rest z, statement.children = before ++ t :: (comments ++ rest) ∧
      comments.filter (fun u => !u.is .comment) = [leafAt t.stop c (.symbol, none)] ∧ PlainComments comments ∧
      c.word = Bytes.ofString "from" ∧ Spelled [c] z ∧ Reached source t.stop (c.text ++ z) := by
  have hs : s.Sound source s.offset := by
    refine ⟨h.reached, ?_⟩
    rw [h.fresh]
    exact PlacedIn.nil (Nat.le_refl _)
  obtain ⟨s₁, hdecorators, hran⟩ := h.ran.both
  obtain ⟨s₂, hexport, hran⟩ := hran.both
  obtain ⟨s₃, hgoesOn, hran⟩ := hran.both
  obtain ⟨⟨added₁, hfound₁, hlacks₁⟩, hs₁⟩ := ran_lacks hs hdecorators (by decide +kernel)
  obtain ⟨⟨added₂, hfound₂, hlacks₂⟩, hs₂⟩ := ran_lacks hs₁ hexport (by decide +kernel)
  obtain ⟨⟨added₃, hfound₃, hlacks₃⟩, hs₃⟩ := ran_lacks hs₂ hgoesOn (by decide +kernel)
  have hfirst : ∀ u ∈ s₃.found, u.kind ≠ .namespaceExport := by
    rw [hfound₃, hfound₂, hfound₁, h.fresh, List.append_nil]
    exact List.forall_mem_append.mpr ⟨hlacks₃, List.forall_mem_append.mpr ⟨hlacks₂, hlacks₁⟩⟩
  have hmem : t ∈ done.found := List.mem_reverse.mp (h.children ▸ ht)
  have hno : ∀ {p : Phrase}, Ran (Grammar.rules d) around p s₃ done → (p.wellBuilt = true ∧
      (lookout .namespaceExport).checks p = true ∧ (lookout .namespaceExport).flow p false = [false]) → False := by
    intro p hran hp
    obtain ⟨⟨added, hfound, hlacks⟩, -⟩ := ran_lacks hs₃ hran hp
    rw [hfound] at hmem
    rcases List.mem_append.mp hmem with hmem | hmem
    · exact hlacks t hmem hkind
    · exact hfirst t hmem hkind
  rcases hran.either with hran | hran
  · exact (hno hran (by decide +kernel)).elim
  rcases hran.either with hran | hran
  · obtain ⟨s₄, htype, hran⟩ := hran.both
    obtain ⟨s₅, hwhole, hran⟩ := hran.both
    obtain ⟨s₇, hmodule, hrest⟩ := hran.both
    obtain ⟨s₆, hfrom, hsource⟩ := hmodule.both
    obtain ⟨⟨added₄, hfound₄, hlacks₄⟩, hs₄⟩ := ran_lacks hs₃ htype (by decide +kernel)
    obtain ⟨fuel, hrun⟩ := hwhole
    have hs₅ := (run_sound (Grammar.rules_wellBuilt d) (by decide +kernel) hs₄ hrun).1
    obtain ⟨done', -, rfl⟩ := Ran.node ⟨fuel, hrun⟩
    obtain ⟨⟨added₆, hfound₆, hlacks₆⟩, hs₆⟩ := ran_lacks hs₅ hfrom (by decide +kernel)
    obtain ⟨⟨added₇, hfound₇, hlacks₇⟩, hs₇⟩ := ran_lacks hs₆ hsource (by decide +kernel)
    obtain ⟨⟨added₈, hfound₈, hlacks₈⟩, -⟩ := ran_lacks hs₇ hrest (by decide +kernel)
    obtain ⟨c, z, hc, hgap, hword⟩ := exists_word rfl hfrom
    obtain ⟨kind, ⟨hisFrom, rfl⟩, hone⟩ := (one_of_word _ _ rfl hc hgap hword).2.2 s₆ hfrom
    obtain ⟨comments, hcomments, hparts, hplain⟩ := hone.adds
    have hchildren : done.found = (added₈ ++ added₇) ++ (comments ++
        Tree.node .namespaceExport none s₄.skip.offset done'.offset done'.found.reverse :: s₄.skip.found) := by
      rw [hfound₈, hfound₇, hcomments]
      simp [Reading.close]
    have hbefore : ∀ u ∈ s₄.skip.found, u.kind ≠ .namespaceExport := by
      obtain ⟨cs, hcs⟩ := s₄.skip_found_comments
      rw [hcs, hfound₄]
      refine List.forall_mem_append.mpr ⟨fun u hu => ?_, List.forall_mem_append.mpr ⟨hlacks₄, hfirst⟩⟩
      obtain ⟨span, -, rfl⟩ := List.mem_map.mp hu
      exact fun h => by cases h
    obtain rfl : t = .node .namespaceExport none s₄.skip.offset done'.offset done'.found.reverse := by
      rw [hchildren, List.append_assoc] at hmem
      rcases List.mem_append.mp hmem with hmem | hmem
      · exact absurd hkind (hlacks₈ t hmem)
      rcases List.mem_append.mp hmem with hmem | hmem
      · exact absurd hkind (hlacks₇ t hmem)
      rcases List.mem_append.mp hmem with hmem | hmem
      · have hsame : comments = added₆ := List.append_cancel_right (hcomments.symm.trans hfound₆)
        exact absurd hkind (hlacks₆ t (hsame ▸ hmem))
      rcases List.mem_cons.mp hmem with rfl | hmem
      · rfl
      · exact absurd hkind (hbefore t hmem)
    refine ⟨s₄.skip.found.reverse, comments.reverse, c, (added₈ ++ added₇).reverse, z, ?_, hparts,
      fun u hu => hplain u (List.mem_reverse.mp hu), eq_of_beq hisFrom, ⟨hgap, hword, trivial⟩, ?_⟩
    · rw [h.children, hchildren]
      simp
    · rw [← hc]
      exact hs₅.reached
  rcases hran.either with hran | hran
  · exact (hno hran (by decide +kernel)).elim
  rcases hran.either with hran | hran
  · exact (hno hran (by decide +kernel)).elim
  rcases hran.either with hran | hran
  · exact (hno hran (by decide +kernel)).elim
  rcases hran.either with hran | hran
  · exact (hno hran (by decide +kernel)).elim
  · exact (hno hran (by decide +kernel)).elim

end Syntax

namespace NamedImport

variable {f : SourceFile} {old new : String} {statement t u : Tree} {above : List Tree} {x : Whole} {o : Nat}
  {c : Chunk} {z : Bytes} {rules : Rule → Phrase} {around : Surroundings} {s done : Reading}

/-- What another statement holds is no part of an import. -/
theorem not_enclosed (hstatement : statement ∈ f.tree.children) (hkind : statement.is .importStatement = false)
    (hlo : statement.start ≤ u.start) (hlt : u.start < u.stop) (hhi : u.stop ≤ statement.stop) :
    (f.imports.map (·.statement)).any (·.encloses u) = false := by
  rw [List.any_map, List.any_eq_false]
  intro d hd
  have hapart := SourceFile.import_apart_of_kind hstatement hkind hd
  simp only [Function.comp_apply, Tree.encloses, Bool.and_eq_true, decide_eq_true_eq]
  omega

/-! ### Names for whole modules -/

variable (new above) in
/-- The name for a whole module is replaced, though the module exports it. -/
theorem mention?_whole (hold : Bindable (Bytes.ofString old)) (hkind : t.kind = .namespaceExport)
    (hout : (f.imports.map (·.statement)).any (·.encloses (x.leafAfter o)) = false)
    (hsource : Reached f.text o (x.text ++ z)) :
    mention? f old new (x.leafAfter o, t :: above) = if x.last.word = Bytes.ofString old then
      some ⟨o + (x.lead ++ x.last.gap).length, o + x.text.length, Bytes.ofString new⟩ else none := by
  have htext : (x.leafAfter o).text f.text = x.last.word := by
    rw [Whole.text, List.append_assoc] at hsource
    exact text_leafAt hsource.append
  unfold mention?
  rw [htext, hout]
  by_cases hword : x.last.word = Bytes.ofString old
  · have hname : isName (x.leafAfter o) = true := by
      simp [isName, Whole.leafAfter, leafAt, Tree.is, Tree.kind, Specified.nameKind, hword, hold.not_isQuoted]
    have hshorthand : (x.leafAfter o).is .shorthandProperty = false := not_shorthand
    have hholder : t.is .exportSpecifier = false := by simp [Tree.is, hkind]
    have hreplacement : replacement? old new (x.leafAfter o) (t :: above) = some new := by
      simp [replacement?, hshorthand, hholder]
    rw [if_pos hword, hname, hreplacement]
    simp [hword, Whole.leafAfter, leafAt, Tree.start, Tree.stop, Whole.text, Chunk.text, Nat.add_assoc]
  · rw [if_neg hword]
    simp [hword]

/-- The name for a whole module as the edits leave it. -/
def renamedWhole (old new : String) (x : Whole) : Whole :=
  if x.last.word = Bytes.ofString old then { x with last := ⟨x.last.gap, Bytes.ofString new⟩ } else x

theorem renamedWhole_word (old new : String) (x : Whole) : (renamedWhole old new x).last.word =
    if x.last.word = Bytes.ofString old then Bytes.ofString new else x.last.word := by
  unfold renamedWhole
  split <;> rfl

/-- Before the word `from` the name for a whole module is read as before. -/
theorem renamedWhole_written (hold : Bindable (Bytes.ofString old)) (hnew : Bindable (Bytes.ofString new))
    (hx : x.Written exportedName (c.text ++ z)) (hc : c.word = Bytes.ofString "from") (hspelled : Spelled [c] z)
    (z' : Bytes) : (renamedWhole old new x).Written exportedName (c.text ++ z') := by
  obtain ⟨hgap, ⟨hmiddleGap, hmiddle, hlastGap, hlast, -⟩, has, hname⟩ := hx
  have hrow : ∀ y, c.text ++ y = rowText [c] ++ y := fun y => by simp
  unfold renamedWhole
  split
  · rename_i hword
    have hunquoted : isQuoted x.last.word = false := hword ▸ hold.not_isQuoted
    have hfrom : isQuoted c.word = false := by
      rw [hc]
      decide +kernel
    have hmiddleUnquoted : isQuoted x.middle.word = false := by
      rw [has]
      decide +kernel
    refine ⟨hgap, ⟨hmiddleGap, ?_, hlastGap, ?_, trivial⟩, has, mayTake_exportedName hnew.not_isQuoted⟩
    · have hmiddle : Word (x.last.gap ++ (x.last.word ++ (c.text ++ z))) x.middle.word := by
        simpa [Chunk.text] using hmiddle
      obtain ⟨a, g, heq⟩ := List.exists_cons_of_ne_nil (hmiddle.gap_ne_nil hlast hmiddleUnquoted hunquoted)
      rw [heq, List.cons_append] at hmiddle
      have hbefore := hmiddle.before_gap (heq ▸ hlastGap) (Bytes.ofString new ++ (c.text ++ z'))
      simpa [Chunk.text, heq] using hbefore
    · have hlast : Word (c.gap ++ (c.word ++ z)) x.last.word := by simpa [Chunk.text] using hlast
      obtain ⟨a, g, heq⟩ := List.exists_cons_of_ne_nil (hlast.gap_ne_nil hspelled.2.1 hunquoted hfrom)
      have hbefore := hnew.before_gap (Bytes.endsCharacter_ofString new) (heq ▸ hspelled.1) (c.word ++ z')
      simpa [Chunk.text, heq] using hbefore
  · refine ⟨hgap, Spelled.congr (z := c.text ++ z) ⟨hmiddleGap, hmiddle, hlastGap, hlast, trivial⟩
      fun last _ hword => ?_, has, hname⟩
    rw [hrow] at hword ⊢
    exact hword.before_row hspelled (by simp)

variable (above) in
/-- After the edits a name for a whole module exports the new name if it was the old one. -/
theorem exists_renamedWhole (hold : Bindable (Bytes.ofString old)) (hnew : Bindable (Bytes.ofString new))
    (hout : ∀ u ∈ t.children, u.start < u.stop → (f.imports.map (·.statement)).any (·.encloses u) = false)
    (h : ReadFrom rules f.text (wholly exportedName) t around s done) (hkind : t.kind = .namespaceExport)
    (hc : c.word = Bytes.ofString "from") (hspelled : Spelled [c] z) (hbehind : Reached f.text t.stop (c.text ++ z)) :
    ∃ n text, t.exportedNames f.text = [some n] ∧ Becomes f old new above [t] t.start t.stop text ∧
      ∀ z', ExportsNames namespaceExport .namespaceExport text (c.text ++ z')
        [if n = Bytes.ofString old then Bytes.ofString new else n] := by
  obtain ⟨x, hx, hs, hoffset, hname, hparts, hplain⟩ :=
    whole_of_ran (.inr rfl) h.ran h.fresh h.children h.reached
  have hsource := h.reached
  rw [hs] at hsource
  have hrest : done.rest = c.text ++ z := by
    have hdone := hsource.append.rest
    rw [← hoffset, h.stop, ← hbehind.rest] at hdone
    exact hdone
  rw [hrest] at hx hsource
  have hwritten := renamedWhole_written hold hnew hx hc hspelled
  have hleaf : x.leafAfter s.offset ∈ t.children := by
    have hmem : x.leafAfter s.offset ∈ t.children.filter fun c => !c.is .comment := by
      rw [hparts]
      simp [Whole.leaves]
    exact (List.mem_filter.mp hmem).1
  have hlength : x.text.length = (x.lead ++ x.last.gap).length + x.last.word.length := by
    simp only [Whole.text, Chunk.text, List.length_append]
    omega
  have hpos : 0 < x.last.word.length := List.length_pos_iff.mpr hx.spelled.2.2.2.1.ne_nil
  have hmention := mention?_whole new above hold hkind
    (hout _ hleaf (by
      simp only [Whole.leafAfter, leafAt, Tree.start, Tree.stop, Chunk.text, List.length_append]
      omega)) hsource
  have hisName : isName t = false := by
    simp [isName, Tree.is, hkind]
  have hmentions : mentionsIn f old new above [t] =
      (mention? f old new (x.leafAfter s.offset, t :: above)).toList := by
    rw [mentionsIn_node hisName, ← mentionsIn_parts hplain, hparts, Whole.leaves, mentionsIn_leaf, mention?_symbol,
      mentionsIn_leaf, mention?_symbol, Whole.leafAfter, mentionsIn_leaf]
    simp
  refine ⟨x.last.word, (renamedWhole old new x).text, ?_, ?_, fun z' rules around source s' hsource' hs' => ?_⟩
  · unfold Tree.exportedNames
    rw [hkind]
    exact congrArg ([·]) hname
  · rw [← h.start, ← h.stop, hoffset]
    unfold renamedWhole
    split
    · rename_i hword
      rw [hmention, if_pos hword] at hmentions
      have hreached : Reached f.text s.offset ((x.lead ++ x.last.gap) ++ (x.last.word ++ ([] ++ (c.text ++ z)))) := by
        simpa [Whole.text, Chunk.text] using hsource
      have hbecomes := Becomes.one hmentions hreached rfl (by rw [hlength, Nat.add_assoc])
      simpa [Whole.text, Whole.lead, Chunk.text, Nat.add_assoc] using hbecomes
    · rename_i hword
      rw [hmention, if_neg hword] at hmentions
      exact .unchanged hmentions hsource
  · obtain ⟨u, s'', hreads, hrest', -, hadds, hkind', hname'⟩ := reads_whole rules around (k := .namespaceExport)
      (.inr rfl) (fun h => by cases h) (hwritten z') hsource' hs'
    refine ⟨u, s'', hreads, hrest', hadds, hkind', ?_⟩
    unfold Tree.exportedNames
    rw [hkind', hname', renamedWhole_word]
    rfl

/-- Behind a name for a whole module the text stays up to the end of the word `from`. -/
theorem exists_behind (new : String) (hold : old ≠ "") (hstatement : statement ∈ f.tree.children)
    (hname : isName statement = false) {before comments rest : List Tree}
    (hchildren : statement.children = before ++ t :: (comments ++ rest))
    (hcomments : comments.filter (fun u => !u.is .comment) = [leafAt t.stop c (.symbol, none)])
    (hplain : PlainComments comments) (hbehind : Reached f.text t.stop (c.text ++ z)) :
    ∃ w, renamedText f old new t.stop f.text.length = c.text ++ w := by
  obtain ⟨-, -, w, hw⟩ := exists_around new hold hstatement hname hchildren
  have hnone : ∀ above, mentionsIn f old new above comments = [] := fun above => by
    rw [← mentionsIn_parts hplain, hcomments, mentionsIn_leaf, mention?_symbol]
    rfl
  have hplaced := (f.nodes_placed.bounds hstatement).2.1.children
  have hsplit : statement.children = (before ++ t :: comments) ++ rest := by simp [hchildren]
  rw [hsplit] at hplaced
  obtain ⟨mid, hfirst, hrest⟩ := hplaced.exists_split
  have hbare : ∀ u ∈ rest, u.NamesBare := fun u hu =>
    (namesBare_iff.mp (nodes_namesBare f _ hstatement)).2 u (hsplit ▸ List.mem_append_right _ hu)
  have hleaf : leafAt t.stop c (.symbol, none) ∈ before ++ t :: comments := by
    have hmem : leafAt t.stop c (.symbol, none) ∈ comments.filter fun u => !u.is .comment := by simp [hcomments]
    exact List.mem_append_right _ (List.mem_cons_of_mem _ (List.mem_filter.mp hmem).1)
  have hmid : t.stop + c.text.length ≤ mid := (hfirst.bounds hleaf).2.2
  have hrestOrder : Patch.InOrder (t.stop + c.text.length) statement.stop
      (mentionsIn f old new [statement, f.tree] rest) := (mentionsIn_inOrder hrest hbare).mono hmid
  have hnothing : Patch.InOrder t.stop (t.stop + c.text.length) [] := Nat.le_add_right _ _
  have hpatched := Patch.patched_append (t := f.text) hnothing hrestOrder
  rw [mentionsIn_append, hnone, hpatched, Patch.patched_nil, hbehind.slice, List.append_assoc] at hw
  exact ⟨_, hw⟩

end NamedImport

/-- A part of a statement was read by the only pattern of its kind. -/
theorem SourceFile.exists_readFrom {f : SourceFile} {statement t : Tree} {k : Kind} (body : Phrase)
    (h : Pattern.node k body ∈ Grammar.singular) (hstatement : statement ∈ f.tree.children)
    (ht : t ∈ statement.children) (hkind : t.kind = k) :
    ∃ around s done, Syntax.ReadFrom (Grammar.rules f.dialect) f.text body t around s done := by
  have heverywhere := (everywhere_iff.mp (parse_built h f.dialect f.text)).2 _ hstatement
  exact (everywhere_iff.mp ((everywhere_iff.mp heverywhere).2 t ht)).1 hkind

open NamedImport

/-- When the mentions of a name are replaced, every export clause is read again, in its place and before what then
stands behind it, as one that exports the same names in the same order. A name for a whole module that is re-exported
is replaced like any other name, though it is one that the module exports: it is kept just if it was not the old one. -/
theorem clauses_keep_exported_names (f : SourceFile) (old new : String) (hold : Bindable (Bytes.ofString old))
    (hnew : Bindable (Bytes.ofString new)) :
    ∃ g, f.edited (referenceEdits f old new) = .ok g ∧
      ∀ statement ∈ f.tree.children, statement.is .exportStatement = true → ∀ t ∈ statement.children,
        t.is .exportClause = true ∨ t.is .namespaceExport = true →
        g.text = renamedText f old new 0 t.start ++
          (renamedText f old new t.start t.stop ++ renamedText f old new t.stop f.text.length) ∧
        (t.is .exportClause = true → ∃ names : List Bytes, t.exportedNames f.text = names.map some ∧
          ExportsNames exportClause .exportClause (renamedText f old new t.start t.stop)
            (renamedText f old new t.stop f.text.length) names) ∧
        (t.is .namespaceExport = true → ∃ n : Bytes, t.exportedNames f.text = [some n] ∧
          ExportsNames namespaceExport .namespaceExport (renamedText f old new t.start t.stop)
            (renamedText f old new t.stop f.text.length)
            [if n = Bytes.ofString old then Bytes.ofString new else n] ∧
          ((if n = Bytes.ofString old then Bytes.ofString new else n) = n ↔ n = Bytes.ofString old → new = old)) := by
  have hne : old ≠ "" := by
    rintro rfl
    exact hold.word.1.ne_nil rfl
  obtain ⟨g, hg, htext⟩ := edited_mentions new hne
  refine ⟨g, hg, fun statement hstatement hexport t ht hkind => ?_⟩
  have hkindStatement : statement.kind = .exportStatement := of_decide_eq_true hexport
  have hname : isName statement = false := by simp [isName, Tree.is, hkindStatement]
  obtain ⟨before, behind, hchildren⟩ := List.append_of_mem ht
  obtain ⟨hsplit, hmiddle, -⟩ := exists_around new hne hstatement hname hchildren
  refine ⟨htext.trans hsplit, fun hclause => ?_, fun hwhole => ?_⟩
  · have hkind : t.kind = .exportClause := of_decide_eq_true hclause
    obtain ⟨around, s, done, hread⟩ :=
      SourceFile.exists_readFrom (Style.exported.list .exportSpecifier) (by decide +kernel) hstatement ht hkind
    obtain ⟨names, inner, hnames, hbecomes, hexports⟩ := exists_renamedClause old _ hnew hread hkind
    rw [hmiddle, hbecomes.text]
    exact ⟨names, hnames, hexports _⟩
  · have hkind : t.kind = .namespaceExport := of_decide_eq_true hwhole
    obtain ⟨around, s, done, hread⟩ :=
      SourceFile.exists_readFrom (wholly exportedName) (by decide +kernel) hstatement ht hkind
    have hsingular : Pattern.node .exportStatement exportBody ∈ Grammar.singular := by decide +kernel
    obtain ⟨around', s', done', hreadStatement⟩ := (everywhere_iff.mp ((everywhere_iff.mp
      (parse_built hsingular f.dialect f.text)).2 _ hstatement)).1 hkindStatement
    obtain ⟨before, comments, c, rest, z, hchildren, hcomments, hplain, hc, hspelled, hbehind⟩ :=
      exists_from hreadStatement ht hkind
    obtain ⟨w, hw⟩ := exists_behind new hne hstatement hname hchildren hcomments hplain hbehind
    have hplaced := (f.nodes_placed.bounds hstatement).2.1
    have hout : ∀ u ∈ t.children, u.start < u.stop →
        (f.imports.map (·.statement)).any (·.encloses u) = false := fun u hu hlt => by
      obtain ⟨hlo, hplacedT, hhi⟩ := hplaced.children.bounds ht
      obtain ⟨hlo', -, hhi'⟩ := hplacedT.children.bounds hu
      exact not_enclosed hstatement (by simp [Tree.is, hkindStatement]) (hlo.trans hlo') hlt (hhi'.trans hhi)
    obtain ⟨n, text, hnames, hbecomes, hexports⟩ :=
      exists_renamedWhole [statement, f.tree] hold hnew hout hread hkind hc hspelled hbehind
    rw [hmiddle, hbecomes.text, hw]
    refine ⟨n, hnames, hexports w, ?_⟩
    split
    · rename_i hword
      rw [hword]
      exact ⟨fun h _ => Bytes.ofString_injective h, fun h => congrArg Bytes.ofString (h rfl)⟩
    · rename_i hword
      simp [hword]

/-- What a file exports through clauses and names for whole modules. -/
def SourceFile.clauseNames (f : SourceFile) : List (Option Bytes) :=
  (f.tree.children.filter (·.is .exportStatement)).flatMap fun t => t.children.flatMap (·.exportedNames f.text)

/-- A module that exports an imported name in every way. -/
def exportingModule : SourceFile :=
  ⟨samplePath "m.ts", .typescript, Bytes.ofString ("import a from \"./a\";\nexport \x7b a, b as a, a as c \x7d;\n" ++
    "export \x7b a as d \x7d from \"./e\";\nexport * as n from \"./n\";\n"), false⟩

/-- The names that a module exports are kept where a name for a whole module is another one. -/
theorem exportingModule_keeps_names : Bindable (Bytes.ofString "a") ∧ Bindable (Bytes.ofString "b") ∧
    ∃ g, exportingModule.edited (referenceEdits exportingModule "a" "b") = .ok g ∧
      ∀ statement ∈ exportingModule.tree.children, statement.is .exportStatement = true → ∀ t ∈ statement.children,
        t.is .exportClause = true → ∃ names : List Bytes, t.exportedNames exportingModule.text = names.map some ∧
          ExportsNames exportClause .exportClause (renamedText exportingModule "a" "b" t.start t.stop)
            (renamedText exportingModule "a" "b" t.stop exportingModule.text.length) names := by
  have hold : Bindable (Bytes.ofString "a") := by decide +kernel
  have hnew : Bindable (Bytes.ofString "b") := by decide +kernel
  obtain ⟨g, hg, hkeeps⟩ := clauses_keep_exported_names exportingModule "a" "b" hold hnew
  exact ⟨hold, hnew, g, hg, fun statement hstatement hexport t ht hclause =>
    (hkeeps statement hstatement hexport t ht (.inl hclause)).2.1 hclause⟩

/-- A module that re-exports another one under the name of an import. -/
def reexportingModule : SourceFile :=
  ⟨samplePath "m.ts", .typescript,
    Bytes.ofString "import Bar from \"./foo\";\nexport * as Bar from \"./all\";\nBar;\n", false⟩

/-- The name under which a whole module is exported is replaced with the import. -/
theorem reexported_name_replaced : ∃ g,
    reexportingModule.edited (referenceEdits reexportingModule "Bar" "Foo") = .ok g ∧
      reexportingModule.clauseNames = [some (Bytes.ofString "Bar")] ∧ g.clauseNames = [some (Bytes.ofString "Foo")] := by
  have hrun : (reexportingModule.edited (referenceEdits reexportingModule "Bar" "Foo")).toOption.map (·.clauseNames) =
      some [some (Bytes.ofString "Foo")] := by decide +kernel
  have hnames : reexportingModule.clauseNames = [some (Bytes.ofString "Bar")] := by decide +kernel
  cases hedited : reexportingModule.edited (referenceEdits reexportingModule "Bar" "Foo") with
  | error e =>
    rw [hedited] at hrun
    cases hrun
  | ok g =>
    rw [hedited] at hrun
    exact ⟨g, rfl, hnames, Option.some.inj hrun⟩

end Codemod
