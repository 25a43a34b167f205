import Codemod.Proofs.ImportStatements

/-!
# What imports bind when they are given a name

An import of a default export becomes an import of a name. Its other bindings are kept, a whole module in a
statement of its own. The name is added to the specifiers unless one of them is the name alone; so a specifier that
gives the name to the export of that name in so many words does not count, and one of a type does.

Main statements:

* `imports_bind_name_for_default` says what is bound instead, and when that makes the name known exactly once, and
  for values;
* `name_bound_twice` says that it does not always.
-/

namespace Codemod

open Syntax Syntax.Tree Pattern Grammar

namespace NamedImport

variable {f : SourceFile} {d : ModuleReference} {clause bound t : Tree} {name : String}

/-! ### The specifiers of an import -/

/-- What an import holds was read by the patterns of the grammar. -/
theorem statement_everywhere {k : Kind} {body : Phrase} (h : Pattern.node k body ∈ Grammar.singular)
    (hd : d ∈ f.imports) :
    d.statement.Everywhere (ReadBy (Grammar.rules f.dialect) f.text k body) :=
  (everywhere_iff.mp (parse_built h f.dialect f.text)).2 _ (SourceFile.import_mem_nodes hd)

theorem clause_everywhere {k : Kind} {body : Phrase} (h : Pattern.node k body ∈ Grammar.singular)
    (hd : d ∈ f.imports) (hclause : d.clause? = some clause) :
    clause.Everywhere (ReadBy (Grammar.rules f.dialect) f.text k body) :=
  (everywhere_iff.mp (statement_everywhere h hd)).2 _ (ModuleReference.clause_mem hclause).1

/-- The text of a node that a reading was made of. -/
theorem text_of_readFrom {rules : Rule → Phrase} {source v z : Bytes} {body : Phrase} {around : Surroundings}
    {s done : Reading} (h : ReadFrom rules source body t around s done) (hs : s.rest = v ++ z)
    (hlength : done.offset = s.offset + v.length) : t.text source = v := by
  have hreached := h.reached
  rw [hs] at hreached
  unfold Tree.text
  rw [← h.start, ← h.stop, hlength, hreached.slice]

/-- Whether a row is what a specifier was written with. -/
structure WrittenRow (source : Bytes) (t : Tree) (r : Row) : Prop where
  writes : Writes .imported r.meant r.words
  text : t.text source = r.text
  spelled : ∃ z, z ≠ [] ∧ Spelled r.words z
  specified : t.specified? source = some r.meant

theorem exists_writtenRow (hd : d ∈ f.imports) (ht : t ∈ d.specifiers) : ∃ r, WrittenRow f.text t r := by
  unfold ModuleReference.specifiers at ht
  cases hnamed : d.named? with
  | none =>
    rw [hnamed] at ht
    cases ht
  | some named =>
    rw [hnamed] at ht
    obtain ⟨ht, hkind⟩ := List.mem_filter.mp ht
    obtain ⟨clause, hclause, hpart⟩ := Option.bind_eq_some_iff.mp hnamed
    have hsingular : Pattern.node .importSpecifier Style.imported.forms ∈ Grammar.singular := by
      decide +kernel
    have hall := (everywhere_iff.mp (clause_everywhere hsingular hd hclause)).2 _ (childOfKind?_eq_some hpart).1
    obtain ⟨hread, -⟩ := everywhere_iff.mp ((everywhere_iff.mp hall).2 t ht)
    obtain ⟨around, s, done, h⟩ := hread (of_decide_eq_true hkind)
    obtain ⟨x, cs, hwrites, hs, hne, hspelled, hlength, -, hmeant⟩ :=
      specifier_of_ran (y := .imported) h.ran h.fresh h.children h.reached
    exact ⟨⟨x, cs⟩, hwrites, text_of_readFrom h hs hlength, ⟨done.rest, hne, hspelled⟩, hmeant⟩

theorem exists_writtenRows (hd : d ∈ f.imports) : ∃ rs, List.Forall₂ (WrittenRow f.text) d.specifiers rs := by
  have hall : ∀ t ∈ d.specifiers, ∃ r, WrittenRow f.text t r := fun t ht => exists_writtenRow hd ht
  generalize d.specifiers = ts at hall
  induction ts with
  | nil => exact ⟨[], .nil⟩
  | cons t ts ih =>
    obtain ⟨⟨r, hr⟩, hts⟩ := List.forall_mem_cons.mp hall
    obtain ⟨rs, hrs⟩ := ih hts
    exact ⟨r :: rs, .cons hr hrs⟩

/-- A row that can be read as characters stands before a comma as before a space. -/
theorem WrittenRow.imports {source : Bytes} {r : Row} {s : String} (h : WrittenRow source t r)
    (hs : t.text source = Bytes.ofString s) : r.Imports := by
  obtain ⟨z, hne, hspelled⟩ := h.spelled
  refine ⟨h.writes, fun c y hc => hspelled.congr fun last hlast hword => ?_⟩
  have htext : rowText r.words = Bytes.ofString s := h.text.symm.trans hs
  have hends : Bytes.EndsCharacter last.word :=
    (htext ▸ Bytes.endsCharacter_ofString s : Bytes.EndsCharacter (rowText r.words)).suffix (last_suffix hlast)
  rcases hc with rfl | rfl
  · exact hword.of_end hne hends (nameLength_mark rfl _) (by decide)
  · exact hword.of_end hne hends (nameLength_other (by decide) (by decide) (by decide) _) (by decide)

/-- Whether a specifier makes an export known under its own name. -/
def keeps (n : Bytes) (x : Specified) : Bool := x.other.isNone && x.name == n

section

variable {ts : List Tree} {rs : List Row} {source : Bytes}

theorem texts_of_writtenRows (h : List.Forall₂ (WrittenRow source) ts rs) :
    ts.map (·.text source) = rs.map Row.text := by
  induction h with
  | nil => rfl
  | cons hr _ ih => rw [List.map_cons, List.map_cons, hr.text, ih]

theorem specified_of_writtenRows (h : List.Forall₂ (WrittenRow source) ts rs) :
    ts.map (fun t => (t.specified? source).map Binding.named) = rs.map fun r => some (.named r.meant) := by
  induction h with
  | nil => rfl
  | cons hr _ ih => rw [List.map_cons, List.map_cons, hr.specified, ih]; rfl

/-- The names that are kept are those that the specifiers keep. -/
theorem mem_plain_iff (h : List.Forall₂ (WrittenRow source) ts rs) (n : Bytes) :
    n ∈ ((ts.filter fun t => (t.child? .alias).isNone).filterMap (·.child? .name)).map (·.text source) ↔
      (rs.any fun r => keeps n r.meant) = true := by
  induction h with
  | nil => simp
  | @cons t r ts rs hr _ ih =>
    obtain ⟨first, hname, hmeant⟩ := Option.map_eq_some_iff.mp hr.specified
    have hother : r.meant.other = (t.child? .alias).map (·.text source) := by rw [← hmeant]
    have hfirst : r.meant.name = first.text source := by rw [← hmeant]
    rw [List.any_cons, Bool.or_eq_true, ← ih]
    unfold keeps
    rw [hother, hfirst]
    cases halias : t.child? .alias with
    | none => simp [halias, hname, @eq_comm _ n]
    | some a => simp [halias]

end

/-! ### What an import binds beside its default -/

/-- The row of a name alone. -/
def nameRow (n : Bytes) : Row := ⟨⟨none, n, none⟩, [⟨[], n⟩]⟩

theorem nameRow_text (n : Bytes) : (nameRow n).text = n := by
  simp [nameRow, Row.text, Chunk.text]

theorem nameRow_imports (h : Bindable (Bytes.ofString name)) : (nameRow (Bytes.ofString name)).Imports := by
  refine ⟨⟨⟨?_, fun _ => ⟨_, h.word.2, rfl⟩, ?_⟩, rfl⟩, fun c y hc => ⟨Gap.nil, ?_, trivial⟩⟩
  · rintro _ ⟨⟩
  · rintro _ ⟨⟩
  show Word (c :: y) (Bytes.ofString name)
  rcases hc with rfl | rfl
  · exact h.before (Bytes.endsCharacter_ofString name) (nameLength_mark rfl _) (by decide)
  · exact h.before_space y

/-- What an import binds beside its default export: a whole module, or what rows of its list of specifiers say. -/
inductive Others (f : SourceFile) (d : ModuleReference) (clause : Tree) : List Binding → Prop
  | whole {ns : Tree} {x : Whole} {z : Bytes} (hns : d.namespace? = some ns) (hnone : d.specifiers = [])
      (htext : ns.text f.text = x.text) (hgap : x.gap = []) (hwritten : x.Written identifier z)
      (hrest : Reached f.text clause.stop z) : Others f d clause [.whole x.last.word]
  | named {rs : List Row} (hns : d.namespace? = none)
      (hrows : List.Forall₂ (WrittenRow f.text) d.specifiers rs) :
      Others f d clause (rs.map fun r => .named r.meant)

theorem exists_others (hd : d ∈ f.imports) (hclause : d.clause? = some clause)
    (hbound : clause.childOfKind? .identifier = some bound) :
    ∃ bs, Others f d clause bs ∧
      clause.bindings f.text = (Binding.default (bound.text f.text) :: bs).map some := by
  have hsingular : Pattern.node .importClause clauseBody ∈ Grammar.singular := by decide +kernel
  obtain ⟨hread, -⟩ := everywhere_iff.mp (clause_everywhere hsingular hd hclause)
  obtain ⟨around, s, done, h⟩ := hread (of_decide_eq_true (ModuleReference.clause_mem hclause).2)
  obtain ⟨-, rest, hparts, hbeside⟩ := clause_of_ran h.ran h.fresh h.children hbound
  have hidentifier : bound.kind = .identifier := of_decide_eq_true (childOfKind?_eq_some hbound).2
  have hfirst : bound.partBindings f.text = [some (.default (bound.text f.text))] := by
    unfold partBindings
    rw [hidentifier]
  rw [bindings_eq hparts, List.flatMap_cons, hfirst]
  have hpart : ∀ k, k ≠ .comment → d.clausePart? k = (bound :: rest).find? (·.is k) := by
    intro k hk
    rw [ModuleReference.clausePart?, hclause, Option.bind_some, childOfKind?_parts hparts hk]
  cases hbeside with
  | nothing =>
    have hns : d.namespace? = none := by simp [ModuleReference.namespace?, hpart, Tree.is, hidentifier]
    have hnamed : d.named? = none := by simp [ModuleReference.named?, hpart, Tree.is, hidentifier]
    have hrows : List.Forall₂ (WrittenRow f.text) d.specifiers [] := by
      rw [ModuleReference.specifiers, hnamed]
      exact .nil
    exact ⟨[], .named hns hrows, rfl⟩
  | @one comma part hcomma hkind hstop =>
    have hskip : comma.partBindings f.text = [] := by
      unfold partBindings
      rw [hcomma]
    have hmem : part ∈ clause.children := (List.mem_filter.mp (hparts ▸ (by simp : part ∈ [bound, comma, part]))).1
    rcases hkind with hkind | hkind
    · have hns : d.namespace? = some part := by
        simp [ModuleReference.namespace?, hpart, Tree.is, hidentifier, hcomma, hkind]
      have hnamed : d.named? = none := by
        simp [ModuleReference.named?, hpart, Tree.is, hidentifier, hcomma, hkind]
      have hsingular : Pattern.node .namespaceImport (wholly identifier) ∈ Grammar.singular := by decide +kernel
      obtain ⟨hread, -⟩ := everywhere_iff.mp
        ((everywhere_iff.mp (clause_everywhere hsingular hd hclause)).2 part hmem)
      obtain ⟨around, s', done', h'⟩ := hread hkind
      obtain ⟨x, hx, hs, hlength, hname, -⟩ := whole_of_ran (.inl rfl) h'.ran h'.fresh h'.children h'.reached
      have hgap : x.gap = [] := by
        have hstar : s'.rest = x.gap ++ code '*' :: (x.middle.text ++ (x.last.text ++ done'.rest)) := by
          rw [hs, Whole.text, Whole.lead]
          simp
        have hskip := (Reading.skip_gap hx.gap (visible_mark rfl _) hstar).2
        rw [h'.visible, hstar] at hskip
        exact List.append_left_eq_self.mp hskip
      have hreached : Reached f.text clause.stop done'.rest := by
        have := h'.reached
        rw [hs] at this
        rw [← h.stop, ← hstop, ← h'.stop, hlength]
        exact this.append
      refine ⟨_, .whole hns ?_ (text_of_readFrom h' hs hlength) hgap hx hreached, ?_⟩
      · rw [ModuleReference.specifiers, hnamed]
      · have hlast : part.partBindings f.text = [some (.whole x.last.word)] := by
          unfold partBindings
          rw [hkind, hname]
          rfl
        simp [hskip, hlast]
    · have hns : d.namespace? = none := by
        simp [ModuleReference.namespace?, hpart, Tree.is, hidentifier, hcomma, hkind]
      have hnamed : d.named? = some part := by
        simp [ModuleReference.named?, hpart, Tree.is, hidentifier, hcomma, hkind]
      obtain ⟨rs, hrs⟩ := exists_writtenRows hd
      refine ⟨_, .named hns hrs, ?_⟩
      have hlast : part.partBindings f.text = rs.map fun r => some (.named r.meant) := by
        rw [← specified_of_writtenRows hrs, ModuleReference.specifiers, hnamed]
        unfold partBindings
        rw [hkind]
      simp [hskip, hlast]

/-! ### The statements that an import becomes -/

/-- Whether a text, whatever follows it, is read as an import like a given one that binds this: of types alone or
not, from the same module, and with the same text behind the specifier. -/
def ImportsLike (f : SourceFile) (d : ModuleReference) (text : Bytes) (bs : List Binding) : Prop :=
  ∀ (rules : Rule → Phrase) (around : Surroundings) (source : Bytes) (s : Reading) (z : Bytes),
    Reached source s.offset s.rest → s.rest = text ++ z →
    ∃ t s', Pattern.Reads rules around importOpening s s' ∧ Reading.Adds [t] s s' ∧
      s'.rest = f.text.slice d.source.stop d.statement.stop ++ z ∧
      t.importsTypes = d.statement.importsTypes ∧ t.importBindings source = bs.map some ∧
      t.module? source = d.statement.module? f.text

section

variable {x : ImportText} {s : Reading} {old z new : Bytes} {bs : List Binding}

/-- The parts of a statement around its clause are the words that it was written with. -/
theorem withClause_eq (new : Bytes) (hd : d ∈ f.imports) (hx : WrittenAs f.text s d.statement clause x old z)
    (hstart : s.offset = d.statement.start) (hsource : Reached f.text s.offset s.rest) :
    Reached f.text clause.stop (rowText x.tails ++ z) ∧
      withClause f d clause new = x.text new ++ f.text.slice d.source.stop d.statement.stop := by
  rw [hx.text, ImportText.text] at hsource
  have hreached : Reached f.text s.offset ((rowText x.heads ++ x.gap) ++ (old ++ (rowText x.tails ++ z))) := by
    simpa using hsource
  have hclauseStart : clause.start = s.offset + (rowText x.heads ++ x.gap).length := by
    rw [hx.start, List.length_append, Nat.add_assoc]
  have hbehind : Reached f.text clause.stop (rowText x.tails ++ z) := by
    rw [hx.stop, hclauseStart]
    exact hreached.append.append
  have hmodule : d.source = leafAt (clause.stop + x.fromWord.text.length) x.module (.string, some .source) :=
    Option.some.inj ((SourceFile.import_source hd).1.symm.trans hx.module)
  have hstop : d.source.stop = clause.stop + (rowText x.tails).length := by
    rw [hmodule]
    simp [leafAt, Tree.stop, ImportText.tails, Nat.add_assoc]
  have hle : d.source.stop ≤ d.statement.stop := by
    obtain ⟨-, -, hstop⟩ := (SourceFile.import_placed hd).1.children.bounds
      (List.mem_of_find?_eq_some (SourceFile.import_source hd).1)
    exact hstop
  refine ⟨hbehind, ?_⟩
  rw [withClause, ← hstart, hclauseStart, hreached.slice,
    ← Patch.slice_append_slice (show clause.stop ≤ d.source.stop by omega) hle, hstop, hbehind.slice, ImportText.text]
  simp

/-- Another clause in the place of the old one is read as it would be alone. -/
theorem importsLike_of_clause (hd : d ∈ f.imports) (hx : WrittenAs f.text s d.statement clause x old z)
    (hstart : s.offset = d.statement.start) (hsource : Reached f.text s.offset s.rest)
    (hmark : ∃ m y, new = m :: y ∧ isMark m = true)
    (hnew : ∀ (rules : Rule → Phrase) (around : Surroundings) (source z' : Bytes),
      ReadsAsClause rules around source x.gap new (rowText x.tails ++ z') (bs.map some)) :
    ImportsLike f d (withClause f d clause new) bs := by
  intro rules around source s' z' hsource' hs'
  obtain ⟨hbehind, hwith⟩ := withClause_eq new hd hx hstart hsource
  rw [hwith, List.append_assoc] at hs'
  obtain ⟨t, s'', hreads, hrest, -, hadds, htypes, hbs, hmodule⟩ := reads_opening rules around
    (hx.written.replace hx.isName new (f.text.slice d.source.stop d.statement.stop ++ z')) hmark
    (hnew rules around source _) hsource' hs'
  refine ⟨t, s'', hreads, hadds, hrest, htypes.trans hx.types.symm, hbs, hmodule.trans ?_⟩
  rw [ImportText.tails, rowText_cons, rowText_cons, rowText_nil, List.append_assoc, List.append_assoc] at hbehind
  rw [module?, hx.module, Option.map_some, text_leafAt (z := z)]
  exact hbehind.append

end

/-! ### The clause of named imports -/

/-- The rows of a list to which a name is added, unless one of them keeps it. -/
def rowsWith (n : Bytes) (rs : List Row) : List Row :=
  if (rs.any fun r => keeps n r.meant) = true then rs else rs ++ [nameRow n]

section

variable {rs : List Row} {n : Bytes}

theorem rowsWith_ne_nil (n : Bytes) (rs : List Row) : rowsWith n rs ≠ [] := by
  unfold rowsWith
  split
  · rintro rfl
    simp at *
  · simp

theorem namedClause_eq (h : List.Forall₂ (WrittenRow f.text) d.specifiers rs) :
    namedClause f d name = listing ((rowsWith (Bytes.ofString name) rs).map Row.text) := by
  have htexts := texts_of_writtenRows h
  have hplain := mem_plain_iff h (Bytes.ofString name)
  unfold namedClause rowsWith listing
  dsimp only
  rw [htexts]
  by_cases hkept : (rs.any fun r => keeps (Bytes.ofString name) r.meant) = true
  · rw [if_pos (hplain.mpr hkept), if_pos hkept]
  · rw [if_neg fun h => hkept (hplain.mp h), if_neg hkept, List.map_append, List.map_singleton, nameRow_text]

theorem rowsWith_imports (hname : Bindable (Bytes.ofString name)) (hrs : ∀ r ∈ rs, r.Imports) :
    ∀ r ∈ rowsWith (Bytes.ofString name) rs, r.Imports := by
  unfold rowsWith
  split
  · exact hrs
  · exact List.forall_mem_append.mpr ⟨hrs, List.forall_mem_singleton.mpr (nameRow_imports hname)⟩

end

/-! ### What can go wrong -/

/-- Whether a computation fails only for texts that are no characters. -/
def FailsUndecodable {α : Type} (r : Except Fault α) : Prop :=
  ∀ e, r = .error e → ∃ u, e = .undecodable u

namespace FailsUndecodable

variable {α β : Type}

theorem bind {r : Except Fault α} {k : α → Except Fault β} (h : FailsUndecodable r)
    (hk : ∀ a, FailsUndecodable (k a)) : FailsUndecodable (r >>= k) := by
  intro e he
  rcases Except.bind_eq_error he with he | ⟨a, -, he⟩
  · exact h e he
  · exact hk a e he

theorem pure (a : α) : FailsUndecodable (.ok a) := by
  rintro e ⟨⟩

theorem decode (f : SourceFile) (start stop : Nat) : FailsUndecodable (f.decode start stop) := by
  unfold SourceFile.decode
  split
  · exact pure _
  · rintro _ ⟨⟩
    exact ⟨_, rfl⟩

theorem mapM {k : α → Except Fault β} (hk : ∀ a, FailsUndecodable (k a)) (l : List α) :
    FailsUndecodable (l.mapM k) := by
  induction l with
  | nil => exact pure _
  | cons a rest ih =>
    rw [List.mapM_cons]
    exact (hk a).bind fun _ => ih.bind fun _ => pure _

end FailsUndecodable

/-- The edits of an import that binds something fail only for texts that are no characters. -/
theorem importEdits_failsUndecodable (hclause : d.clause? = some clause) :
    FailsUndecodable (importEdits f d name) := by
  unfold importEdits
  rw [hclause]
  refine .bind (.mapM (fun t => .decode f _ _) _) fun kept => .bind (.mapM (fun t => .decode f _ _) _) fun plain => ?_
  dsimp only
  split
  · exact .pure _
  · exact .bind (.decode f _ _) fun _ => .bind (.decode f _ _) fun _ => .bind (.decode f _ _) fun _ => .pure _

/-- Where the edits of an import are found, its specifiers are texts of characters. -/
theorem kept_of_importEdits {es : List Edit} (hclause : d.clause? = some clause) (h : importEdits f d name = .ok es) :
    ∃ kept, d.specifiers.mapM f.textOf = .ok kept := by
  unfold importEdits at h
  rw [hclause] at h
  obtain ⟨kept, hkept, -⟩ := Except.bind_eq_ok h
  exact ⟨kept, hkept⟩

end NamedImport

/-! ### What is bound instead -/

namespace Syntax.Binding

open NamedImport

/-- Whether the default export is bound. -/
def isDefault : Binding → Bool
  | .default _ => true
  | _ => false

/-- Whether a whole module is bound. -/
def isWhole : Binding → Bool
  | .whole _ => true
  | _ => false

/-- Whether a specifier binds. -/
def isNamed : Binding → Bool
  | .named _ => true
  | _ => false

/-- Whether a specifier makes an export known under its own name, which is written once. -/
def keeps (n : Bytes) : Binding → Bool
  | .named x => NamedImport.keeps n x
  | _ => false

/-- Whether an export is bound under its own name, as words are understood. -/
def gives (spoken : Bytes → Bytes) (n : Bytes) : Binding → Bool
  | .named x => spoken x.name == spoken n && spoken (x.other.getD x.name) == spoken n
  | _ => false

/-- Whether it is bound so for values too. -/
def givesValue (spoken : Bytes → Bytes) (n : Bytes) : Binding → Bool
  | .named x => (Binding.named x).gives spoken n && x.typeWord.isNone
  | _ => false

variable {spoken : Bytes → Bytes} {n : Bytes} {b : Binding}

theorem isNamed_of_gives (h : b.gives spoken n = true) : b.isNamed = true := by
  cases b <;> first | rfl | cases h

theorem isNamed_of_givesValue (h : b.givesValue spoken n = true) : b.isNamed = true := by
  cases b <;> first | rfl | cases h

theorem isNamed_of_keeps (h : b.keeps n = true) : b.isNamed = true := by
  cases b <;> first | rfl | cases h

end Syntax.Binding

namespace NamedImport

open Binding

/-- The specifiers that bind a name beside others, unless one of them keeps it. -/
def withName (n : Bytes) (bs : List Binding) : List Binding :=
  if bs.any (·.keeps n) then bs else bs ++ [.named ⟨none, n, none⟩]

/-- What the statements bind, one after the other, that take the place of an import when it is given a name: a whole
module in a statement of its own, and then the specifiers with the name among them. -/
def regrouped (n : Bytes) (bs : List Binding) : List (List Binding) :=
  (bs.filter isWhole).map ([·]) ++ [withName n (bs.filter isNamed)]

section

variable {spoken : Bytes → Bytes} {n : Bytes} {bs : List Binding}

theorem any_keeps_named (n : Bytes) (bs : List Binding) :
    (bs.filter isNamed).any (·.keeps n) = bs.any (·.keeps n) := by
  rw [List.any_filter]
  refine congrArg (List.any bs) (funext fun b => ?_)
  cases hkeeps : b.keeps n with
  | false => exact Bool.and_false _
  | true => rw [isNamed_of_keeps hkeeps]; rfl

theorem flatten_regrouped (n : Bytes) (bs : List Binding) :
    (regrouped n bs).flatten = bs.filter isWhole ++ withName n (bs.filter isNamed) := by
  rw [regrouped, List.flatten_append, ← List.flatMap_def, List.flatMap_singleton', List.flatten_singleton]

/-- How often a name is bound beside the others. -/
theorem countP_regrouped (spoken : Bytes → Bytes) (n : Bytes) (bs : List Binding) :
    (regrouped n bs).flatten.countP (·.gives spoken n) =
      bs.countP (·.gives spoken n) + if bs.any (·.keeps n) then 0 else 1 := by
  have hnamed : (bs.filter isNamed).countP (·.gives spoken n) = bs.countP (·.gives spoken n) := by
    rw [List.countP_filter]
    refine List.countP_congr fun b _ => ?_
    simp only [Bool.and_eq_true, and_iff_left_iff_imp]
    exact isNamed_of_gives
  have hwhole : (bs.filter isWhole).countP (·.gives spoken n) = 0 := by
    rw [List.countP_filter, List.countP_eq_zero]
    rintro (b | b | x) - h
    all_goals simp [gives, isWhole] at h
  rw [flatten_regrouped, List.countP_append, hwhole, Nat.zero_add, withName, any_keeps_named]
  split
  · exact hnamed
  · rw [List.countP_append, hnamed]
    simp [gives]

/-- When a name is bound for values. -/
theorem exists_value_iff (spoken : Bytes → Bytes) (n : Bytes) (bs : List Binding) :
    (∃ b ∈ (regrouped n bs).flatten, b.givesValue spoken n = true) ↔
      (bs.any (·.keeps n) = true → ∃ b ∈ bs, b.givesValue spoken n = true) := by
  rw [flatten_regrouped, withName, any_keeps_named]
  constructor
  · rintro ⟨b, hb, hvalue⟩ hkeeps
    rw [if_pos hkeeps] at hb
    rcases List.mem_append.mp hb with hb | hb
    · exact ⟨b, (List.mem_filter.mp hb).1, hvalue⟩
    · exact ⟨b, (List.mem_filter.mp hb).1, hvalue⟩
  · intro h
    by_cases hkeeps : bs.any (·.keeps n) = true
    · obtain ⟨b, hb, hvalue⟩ := h hkeeps
      rw [if_pos hkeeps]
      exact ⟨b, List.mem_append_right _ (List.mem_filter.mpr ⟨hb, isNamed_of_givesValue hvalue⟩), hvalue⟩
    · rw [if_neg hkeeps]
      exact ⟨.named ⟨none, n, none⟩, by simp, by simp [givesValue, gives]⟩

end

/-- What is bound beside a default export is put into statements of its own. -/
theorem Others.statements {bs : List Binding} {x : ImportText} {s : Reading} {old z : Bytes} {kept : List String}
    (h : Others f d clause bs) (hname : Bindable (Bytes.ofString name)) (hd : d ∈ f.imports)
    (hx : WrittenAs f.text s d.statement clause x old z) (hstart : s.offset = d.statement.start) (hsource : Reached f.text s.offset s.rest)
    (hkept : d.specifiers.mapM f.textOf = .ok kept) :
    ∃ texts, namedStatement f d clause name = (Bytes.ofString "\n").intercalate (texts.map (withClause f d clause)) ∧
      List.Forall₂ (fun text bs => ImportsLike f d (withClause f d clause text) bs) texts
        (regrouped (Bytes.ofString name) bs) := by
  have hnamed : ∀ rs, List.Forall₂ (WrittenRow f.text) d.specifiers rs →
      ImportsLike f d (withClause f d clause (namedClause f d name))
        (withName (Bytes.ofString name) (rs.map fun r => .named r.meant)) := by
    intro rs hrs
    have himports : ∀ r ∈ rs, r.Imports := by
      intro r hr
      obtain ⟨t, ht, hrow⟩ := exists_mem_of_forall₂ hrs r hr
      obtain ⟨s, hs⟩ := Except.exists_mapM_iff.mp ⟨kept, hkept⟩ t ht
      exact hrow.imports (SourceFile.ofString_of_textOf hs).symm
    have hbinds : withName (Bytes.ofString name) (rs.map fun r => Binding.named r.meant) =
        (rowsWith (Bytes.ofString name) rs).map fun r => .named r.meant := by
      unfold withName rowsWith
      rw [List.any_map]
      by_cases hkeeps : (rs.any fun r => keeps (Bytes.ofString name) r.meant) = true
      · exact (if_pos hkeeps).trans (by rw [if_pos hkeeps])
      · refine (if_neg hkeeps).trans ?_
        rw [if_neg hkeeps, List.map_append]
        rfl
    rw [namedClause_eq hrs, hbinds]
    refine importsLike_of_clause hd hx hstart hsource ⟨code '\x7b', _, rfl, rfl⟩ fun rules around source z' => ?_
    rw [List.map_map]
    exact reads_listing rules around (rowsWith_imports hname himports) (rowsWith_ne_nil _ _) hx.written.gap
  cases h with
  | @whole ns whole z' hns hnone htext hgap hwritten hrest =>
    refine ⟨[whole.text, namedClause f d name], ?_, .cons ?_ (.cons ?_ .nil)⟩
    · rw [namedStatement, hns, ← htext]
      simp [List.intercalate]
    · obtain ⟨hbehind, -⟩ := withClause_eq [] hd hx hstart hsource
      obtain rfl : z' = rowText x.tails ++ z := hrest.rest.trans hbehind.rest.symm
      have hstar : whole.text = code '*' :: (whole.middle.text ++ whole.last.text) := by
        rw [Whole.text, Whole.lead, hgap]
        rfl
      refine importsLike_of_clause hd hx hstart hsource ⟨_, _, hstar, rfl⟩ fun rules around source z' => ?_
      refine reads_wholeClause rules around ⟨hwritten.gap, ?_, hwritten.middle, hwritten.isName⟩ hgap hx.written.gap
      exact hwritten.spelled.congr fun last _ hword => hword.before_row hx.written.tails (by simp [ImportText.tails])
    · have hrows : List.Forall₂ (WrittenRow f.text) d.specifiers [] := by
        rw [hnone]
        exact .nil
      exact hnamed [] hrows
  | @named rs hns hrows =>
    have hfilters : ((rs.map fun r => Binding.named r.meant).filter isWhole) = [] ∧
        (rs.map fun r => Binding.named r.meant).filter isNamed = rs.map fun r => .named r.meant := by
      constructor
      · refine List.filter_eq_nil_iff.mpr fun b hb => ?_
        obtain ⟨r, -, rfl⟩ := List.mem_map.mp hb
        exact Bool.false_ne_true
      · refine List.filter_eq_self.mpr fun b hb => ?_
        obtain ⟨r, -, rfl⟩ := List.mem_map.mp hb
        rfl
    refine ⟨[namedClause f d name], ?_, ?_⟩
    · rw [namedStatement, hns]
      simp
    · rw [regrouped, hfilters.1, hfilters.2]
      exact .cons (hnamed rs hrows) .nil

theorem Others.not_default {bs : List Binding} (h : Others f d clause bs) : ∀ b ∈ bs, b.isDefault = false := by
  cases h with
  | whole => simp [isDefault]
  | named =>
    intro b hb
    obtain ⟨r, -, rfl⟩ := List.mem_map.mp hb
    rfl

end NamedImport

open NamedImport

/-- An import that binds a default export binds a name instead when it is given one. Statements one below the other
take its place, each from the same module, of types alone if it was so, and with the same text behind the specifier
of the module. They bind what was bound beside the default, as it was and in order, a whole module apart from the
rest, and the name behind it unless a specifier keeps it.

So the name is bound once, for what it is in the module, just if no specifier that does not keep it gives it, and at
most one that keeps it; and it is bound for values unless those that keep it are all of types and no other specifier
gives it. That holds however words are understood: `spoken` may tell which strings and which names with escapes in
them are spelled alike. -/
theorem imports_bind_name_for_default (f : SourceFile) (d : ModuleReference) (bound : Tree) (name : String)
    (hd : d ∈ f.imports) (hbound : d.defaultName? = some bound) (hname : Bindable (Bytes.ofString name)) :
    ∃ clause bs, d.clause? = some clause ∧
      d.statement.importBindings f.text = (Binding.default (bound.text f.text) :: bs).map some ∧
      (∀ b ∈ bs, b.isDefault = false) ∧
      ((∃ u, importEdits f d name = .error (.undecodable u)) ∨
        ∃ e texts, importEdits f d name = .ok [e] ∧
          Patch.patched f.text d.statement.start d.statement.stop [e.patch] =
            (Bytes.ofString "\n").intercalate (texts.map (withClause f d clause)) ∧
          List.Forall₂ (fun text bs => ImportsLike f d (withClause f d clause text) bs) texts
            (regrouped (Bytes.ofString name) bs)) ∧
      ∀ spoken : Bytes → Bytes,
        ((regrouped (Bytes.ofString name) bs).flatten.countP (·.gives spoken (Bytes.ofString name)) = 1 ↔
          bs.countP (·.gives spoken (Bytes.ofString name)) =
            if bs.any (·.keeps (Bytes.ofString name)) then 1 else 0) ∧
        ((∃ b ∈ (regrouped (Bytes.ofString name) bs).flatten, b.givesValue spoken (Bytes.ofString name) = true) ↔
          (bs.any (·.keeps (Bytes.ofString name)) = true →
            ∃ b ∈ bs, b.givesValue spoken (Bytes.ofString name) = true)) := by
  obtain ⟨clause, hclause, hidentifier⟩ := Option.bind_eq_some_iff.mp hbound
  obtain ⟨bs, hothers, hbs⟩ := exists_others hd hclause hidentifier
  refine ⟨clause, bs, hclause, ?_, hothers.not_default, ?_, fun spoken => ⟨?_, exists_value_iff spoken _ bs⟩⟩
  · rw [importBindings, show d.statement.childOfKind? .importClause = some clause from hclause]
    exact hbs
  · cases hedits : importEdits f d name with
    | error e =>
      obtain ⟨u, rfl⟩ := importEdits_failsUndecodable hclause e hedits
      exact .inl ⟨u, rfl⟩
    | ok es =>
      obtain ⟨e, rfl, -, -, -, hpatched⟩ := importEdits_eq_ok hd hbound hedits
      obtain ⟨kept, hkept⟩ := kept_of_importEdits hclause hedits
      have hsingular : Pattern.node .importStatement statementBody ∈ Grammar.singular := by decide +kernel
      obtain ⟨hread, -⟩ := everywhere_iff.mp (statement_everywhere hsingular hd)
      obtain ⟨around, s, done, h⟩ := hread (of_decide_eq_true (SourceFile.import_kind hd))
      obtain ⟨x, old, z, hx⟩ := exists_opening (Grammar.rules_wellBuilt f.dialect) h.ran h.fresh h.reached h.children
        hclause (by rw [hidentifier]; rfl)
      obtain ⟨texts, htexts, hreads⟩ := hothers.statements hname hd hx h.start h.reached hkept
      refine .inr ⟨e, texts, rfl, hpatched.trans ?_, hreads⟩
      rw [statementText, hclause]
      exact htexts
  · rw [countP_regrouped]
    split
    · rfl
    · omega

/-- A module that imports a clause. -/
def importing (clause : String) : SourceFile :=
  ⟨samplePath "main.ts", .typescript, Bytes.ofString ("import " ++ clause ++ " from \"./foo\";\n"), false⟩

/-- A default import beside an aliased specifier and one of a type becomes a name behind them. -/
theorem importing_binds_name : Bindable (Bytes.ofString "Foo") ∧
    ∃ d bound clause e texts, d ∈ (importing "l, \x7b a as b, type c \x7d").imports ∧
      d.defaultName? = some bound ∧ d.clause? = some clause ∧
      importEdits (importing "l, \x7b a as b, type c \x7d") d "Foo" = .ok [e] ∧
      List.Forall₂ (fun text bs => ImportsLike (importing "l, \x7b a as b, type c \x7d") d
        (withClause (importing "l, \x7b a as b, type c \x7d") d clause text) bs) texts
        [[.named ⟨none, Bytes.ofString "a", some (Bytes.ofString "b")⟩,
          .named ⟨some (Bytes.ofString "type"), Bytes.ofString "c", none⟩,
          .named ⟨none, Bytes.ofString "Foo", none⟩]] := by
  have hname : Bindable (Bytes.ofString "Foo") := by decide +kernel
  have hbinds : (importing "l, \x7b a as b, type c \x7d").imports.head?.map (fun d =>
      (d.defaultName?.isSome, (importEdits (importing "l, \x7b a as b, type c \x7d") d "Foo").toOption.isSome,
        d.statement.importBindings (importing "l, \x7b a as b, type c \x7d").text)) =
      some (true, true, [Binding.default (Bytes.ofString "l"),
        .named ⟨none, Bytes.ofString "a", some (Bytes.ofString "b")⟩,
        .named ⟨some (Bytes.ofString "type"), Bytes.ofString "c", none⟩].map some) := by decide +kernel
  obtain ⟨d, hd, hbinds⟩ := Option.map_eq_some_iff.mp hbinds
  simp only [Prod.mk.injEq] at hbinds
  obtain ⟨hdefault, hedits, hbinds⟩ := hbinds
  obtain ⟨bound, hbound⟩ := Option.isSome_iff_exists.mp hdefault
  obtain ⟨clause, bs, hclause, hbs, -, hresult, -⟩ := imports_bind_name_for_default _ d bound "Foo"
    (List.mem_of_head? hd) hbound hname
  rw [hbinds] at hbs
  have hbs := List.map_injective_iff.mpr (Option.some_injective _) hbs
  obtain ⟨-, rfl⟩ := List.cons.inj hbs
  rcases hresult with ⟨u, hu⟩ | ⟨e, texts, he, -, hreads⟩
  · rw [hu] at hedits
    cases hedits
  · exact ⟨hname, d, bound, clause, e, texts, List.mem_of_head? hd, hbound, hclause, he, hreads⟩

/-- What a module imports after the edits of its first import, when that is given a name. -/
def boundAfter (f : SourceFile) (name : String) : Option (List (Option Binding)) := do
  let d ← f.imports.head?
  let es ← (importEdits f d name).toOption
  let g ← (f.edited es).toOption
  return g.imports.flatMap fun r => r.statement.importBindings g.text

/-- A specifier that writes out that it binds a name as itself does not count as one that keeps the name, which is
then bound twice; one of a type alone does count, and then nothing is bound for values. -/
theorem name_bound_twice :
    (∃ bs : List Binding, boundAfter (importing "Bar, \x7b Foo as Foo \x7d") "Foo" = some (bs.map some) ∧
      bs.countP (·.gives id (Bytes.ofString "Foo")) = 2) ∧
    ∃ bs : List Binding, boundAfter (importing "Bar, \x7b type Foo \x7d") "Foo" = some (bs.map some) ∧
      ∀ b ∈ bs, b.givesValue id (Bytes.ofString "Foo") = false := by
  refine ⟨⟨[.named ⟨none, Bytes.ofString "Foo", some (Bytes.ofString "Foo")⟩,
    .named ⟨none, Bytes.ofString "Foo", none⟩], ?_⟩,
    [.named ⟨some (Bytes.ofString "type"), Bytes.ofString "Foo", none⟩], ?_⟩
  · decide +kernel
  · decide +kernel

end Codemod
