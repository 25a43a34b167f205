import Codemod.Proofs.ExportedNames
import Codemod.Proofs.ImportStatements
import Codemod.Proofs.LocalBindings
import Codemod.Proofs.SmallestChanges

/-!
# How often a name is exported and declared

A default export gets a name, and the declarations of that name are exported. Whether the name is exported or declared
elsewhere in the file is not looked at. Other exports stay as they are: a clause that lists the name goes on exporting
it beside its declaration, and a constant is bound to the name of its file even where another statement binds that name
already.

That the clauses stay is said of the text, whatever the rest of it is read as. How often the name is exported and bound
is counted over the statements of the new text, if they are those that the edits describe, one by one.

Main statements:

* `SourceFile.exists_clause_kept` says that an export clause of another statement stays, and is read as before;
* `SourceFile.Rewritten.count_listed`, `SourceFile.Rewritten.count_exported` and `SourceFile.Rewritten.count_bound`
  count the statements that list, export and bind the name;
* `name_exported_and_bound` puts this together for the first pass.
-/

namespace Codemod

open Syntax Syntax.Tree Pattern Grammar

/-! ### Clauses that stay -/

/-- What lies between patches stays in the text. -/
theorem Patch.exists_around_of_apart {t : Bytes} {l : List Patch} {a b lo hi : Nat} (h : InOrder a b l) (ha : a ≤ lo)
    (hlt : lo < hi) (hb : hi ≤ b) (hall : ∀ p ∈ l, p.stop ≤ lo ∨ hi ≤ p.start) :
    ∃ before behind, patched t a b l = before ++ (t.slice lo hi ++ behind) := by
  induction l generalizing a with
  | nil =>
    refine ⟨t.slice a lo, t.slice hi b, ?_⟩
    rw [patched_nil, slice_append_slice (Nat.le_of_lt hlt) hb, slice_append_slice ha (by omega)]
  | cons p rest ih =>
    obtain ⟨hp, hle, hrest⟩ := h
    rcases hall p (List.mem_cons_self ..) with hstop | hstart
    · obtain ⟨before, behind, hpatched⟩ := ih hrest hstop fun q hq => hall q (List.mem_cons_of_mem _ hq)
      refine ⟨t.slice a p.start ++ p.bytes ++ before, behind, ?_⟩
      rw [patched, hpatched, List.append_assoc _ before]
    · refine ⟨t.slice a lo, t.slice hi p.start ++ (p.bytes ++ patched t p.stop b rest), ?_⟩
      rw [patched, ← slice_append_slice ha (by omega : lo ≤ p.start), ← slice_append_slice (Nat.le_of_lt hlt) hstart]
      simp only [List.append_assoc]

namespace SourceFile

variable {f g : SourceFile} {s t statement : Tree} {edits : List Edit} {but : Tree → Prop} {u : Bytes} {lo hi : Nat}

/-- Edits that keep a statement leave its firm ranges in the text. -/
theorem exists_kept (happlied : Edit.applyAll edits f.text = .ok u) (hkeep : ∀ e ∈ edits, e.Keeps f but)
    (hfirm : f.Firm s lo hi) (hs : ¬ but s) : ∃ before behind, u = before ++ (f.text.slice lo hi ++ behind) := by
  obtain ⟨l, horder, rfl, hmem⟩ := Edit.applyAll_eq_patched happlied fun e he => (hkeep e he).1
  refine Patch.exists_around_of_apart horder (Nat.zero_le _) hfirm.lt
    (hfirm.upper.trans (f.nodes_placed.bounds hfirm.mem).2.2) fun p hp => ?_
  obtain ⟨e, he, rfl⟩ := (hmem p).mp hp
  exact (hkeep e he).2 s lo hi hfirm hs

/-- No name is as long as a whole text, so none is replaced for such a one. -/
theorem mentionsIn_of_long {old new : String} {above ts : List Tree} (h : f.text.length < (Bytes.ofString old).length) :
    NamedImport.mentionsIn f old new above ts = [] := by
  refine List.filterMap_eq_nil_iff.mpr fun o _ => Option.eq_none_iff_forall_ne_some.mpr fun p hp => ?_
  have htext := (NamedImport.mention?_eq_some hp).2.1
  have hle : (o.1.text f.text).length ≤ f.text.length := by
    simp only [Tree.text, Bytes.slice, List.length_drop, List.length_take]
    omega
  rw [htext] at hle
  omega

/-- An export clause begins and ends with a mark, and is read again, whatever follows it, as one that exports the same
names. -/
theorem clause_firm (hstatement : statement ∈ f.tree.children) (hkind : statement.is .comment = false)
    (ht : t ∈ statement.children) (hclause : t.kind = .exportClause) : f.Firm statement t.start t.stop ∧
      ∃ names : List Bytes, t.exportedNames f.text = names.map some ∧
        ∀ z, NamedImport.ExportsNames exportClause .exportClause (t.text f.text) z names := by
  have hsingular : Pattern.node .exportClause (Style.exported.list .exportSpecifier) ∈ Grammar.singular := by
    decide +kernel
  obtain ⟨around, r, done, hread⟩ := exists_readFrom _ hsingular hstatement ht hclause
  -- Replacing a name that is too long to stand there leaves the clause as it is.
  obtain ⟨long, hlong⟩ : ∃ long : String, f.text.length < (Bytes.ofString long).length := by
    refine ⟨String.ofList (List.replicate (f.text.length + 1) 'a'), ?_⟩
    rw [Bytes.ofString_eq_flatMap, String.toList_ofList, List.length_flatMap, List.map_replicate]
    simp [String.utf8EncodeChar]
  have hnew : Bindable (Bytes.ofString "a") := by decide +kernel
  obtain ⟨names, inner, hnames, hbecomes, hexports⟩ :=
    NamedImport.exists_renamedClause (f := f) long [] hnew hread hclause
  have htext : t.text f.text = code '\x7b' :: inner := by
    rw [← hbecomes.text, mentionsIn_of_long hlong, Patch.patched_nil]
    rfl
  obtain ⟨hlower, -, hupper⟩ := (f.nodes_placed.bounds hstatement).2.1.children.bounds ht
  have hlength := (f.nodes_placed.bounds hstatement).2.2
  obtain ⟨hlt, hfirst⟩ := Bytes.first_of_slice (hupper.trans hlength) htext
  have hs : r.Sound f.text r.offset := by
    refine ⟨hread.reached, ?_⟩
    rw [hread.fresh]
    exact PlacedIn.nil (Nat.le_refl _)
  obtain ⟨fuel, hrun⟩ := hread.ran
  have hends := (run_sound (Grammar.rules_wellBuilt f.dialect) (by decide +kernel) hs hrun).2.ends (by decide +kernel)
  rw [hread.stop] at hends
  refine ⟨⟨hstatement, hkind, hlower, hlt, hupper, fun b hb => ?_, hends⟩, names, hnames, fun z => ?_⟩
  · rw [← Option.some.inj (hfirst.symm.trans hb)]
    rfl
  · rw [htext]
    exact hexports z

/-- An export clause of a statement that edits keep stays in the text, where it is read again as one that exports the
same names. -/
theorem exists_clause_kept (happlied : Edit.applyAll edits f.text = .ok u) (hkeep : ∀ e ∈ edits, e.Keeps f but)
    (hstatement : statement ∈ f.tree.children) (hkind : statement.is .comment = false) (hbut : ¬ but statement)
    (ht : t ∈ statement.children) (hclause : t.kind = .exportClause) :
    ∃ (before behind : Bytes) (names : List Bytes), u = before ++ (t.text f.text ++ behind) ∧
      t.exportedNames f.text = names.map some ∧
      NamedImport.ExportsNames exportClause .exportClause (t.text f.text) behind names := by
  obtain ⟨hfirm, names, hnames, hexports⟩ := clause_firm hstatement hkind ht hclause
  obtain ⟨before, behind, hu⟩ := exists_kept happlied hkeep hfirm hbut
  exact ⟨before, behind, names, hu, hnames, hexports behind⟩

end SourceFile

/-! ### The names that statements bind and list -/

namespace Syntax.Tree

mutual

/-- The names that a pattern binds. -/
def patternNames (source : Bytes) : Tree → List Bytes
  | .node k _ b e cs =>
    if k = .objectPattern ∨ k = .arrayPattern then partNames source k none cs
    else if k = .identifier ∨ k = .shorthandPattern then [source.slice b e]
    else []

/-- The names that the parts of a pattern bind, behind what is seen before them. -/
def partNames (source : Bytes) (k : Kind) (before : Option Sight) : List Tree → List Bytes
  | [] => []
  | t :: rest =>
    (if t.is .shorthandPattern || BindingForm.isDestructured k before then patternNames source t else []) ++
      partNames source k (if t.is .comment then before else some (t.sight source)) rest

end

/-- The names that a declaration binds: its own, with dots in it also the first part of that, those of variables, and
another name for a part of a module. -/
def boundNames (source : Bytes) (c : Tree) : List Bytes :=
  (c.child? .name).elim [] (fun m => m.text source :: m.children.head?.elim [] fun first => [first.text source]) ++
    ((c.children.filter (·.is .variableDeclarator)).flatMap (fun v => (v.child? .name).elim [] (patternNames source)) ++
      if c.is .importAlias then (c.childOfKind? .identifier).elim [] (fun m => [m.text source]) else [])

/-- The names that a declaration binds, with those of what it says to be defined elsewhere. -/
def namesDeclared (source : Bytes) (c : Tree) : List Bytes :=
  c.boundNames source ++ (SourceFile.declared c).boundNames source

/-- The name by which something that is imported is known. -/
def importedName : Binding → Bytes
  | .default n | .whole n => n
  | .named x => x.other.getD x.name

/-- The names that an import binds. -/
def importedNames (source : Bytes) (t : Tree) : List Bytes :=
  (t.importBindings source).reduceOption.map importedName ++ (t.childOfKind? .importRequireClause).elim [] fun c =>
    (c.childOfKind? .identifier).elim [] fun m => [m.text source]

/-- The names that a statement binds for its file, as an import or by the declaration that it is or exports. Variables
that are declared within other statements are not looked at. -/
def namesBound (source : Bytes) (t : Tree) : List Bytes :=
  if t.is .importStatement then t.importedNames source
  else if t.is .exportStatement then (t.child? .declaration).elim [] (namesDeclared source)
  else t.namesDeclared source

/-- The names of the declaration that a statement exports. -/
def namesExported (source : Bytes) (t : Tree) : List Bytes :=
  (SourceFile.exported? t).elim [] (namesDeclared source)

/-- The names that a statement exports without a declaration: those that a clause lists, or the name of a whole
module. -/
def namesListed (source : Bytes) (t : Tree) : List Bytes :=
  if t.is .exportStatement && !isDefaultExport t && (SourceFile.exported? t).isNone then
    (t.children.flatMap (·.exportedNames source)).reduceOption
  else []

/-! ### Names of what is written alike -/

variable {s s' : Bytes} {t t' : Tree} {ts ts' : List Tree}

theorem is_alike (h : t.alike s s' t' = true) (k : Kind) : t.is k = t'.is k := by
  simp [Tree.is, alike_kind h]

theorem AlikeIn.filter {p : Tree → Bool} (h : AlikeIn s s' ts ts')
    (hp : ∀ c c', c.alike s s' c' = true → p c = p c') : AlikeIn s s' (ts.filter p) (ts'.filter p) :=
  List.rel_filter (fun c c' hc => by simp [hp c c' hc.2]) h

theorem AlikeIn.map_eq {α : Type} {g g' : Tree → α} (h : AlikeIn s s' ts ts')
    (hg : ∀ c c', c.alike s s' c' = true → g c = g' c') : ts.map g = ts'.map g' := by
  induction h with
  | nil => rfl
  | cons hc _ ih => rw [List.map_cons, List.map_cons, hg _ _ hc.2, ih]

theorem AlikeIn.flatMap_eq {α : Type} {g g' : Tree → List α} (h : AlikeIn s s' ts ts')
    (hg : ∀ c c', c.alike s s' c' = true → g c = g' c') : ts.flatMap g = ts'.flatMap g' := by
  rw [List.flatMap_def, List.flatMap_def, h.map_eq hg]

theorem childOfKind?_alike (h : t.alike s s' t' = true) (k : Kind) :
    Option.Rel (fun c c' => c.alike s s' c' = true) (t.childOfKind? k) (t'.childOfKind? k) :=
  (alike_iff.mp h).2.2.find? fun _ _ _ hc => is_alike hc k

theorem elim_alike {α : Type} {o o' : Option Tree} {g g' : Tree → α} (z : α)
    (h : Option.Rel (fun c c' => c.alike s s' c' = true) o o')
    (hg : ∀ c c', c.alike s s' c' = true → g c = g' c') : o.elim z g = o'.elim z g' := by
  cases h with
  | none => rfl
  | some hc => exact hg _ _ hc

theorem sight_alike (h : t.alike s s' t' = true) : t.sight s = t'.sight s' := by
  unfold sight
  rw [alike_kind h, alike_text h]

mutual

theorem patternNames_alike : ∀ {t t' : Tree}, t.alike s s' t' = true → t.patternNames s = t'.patternNames s'
  | .node k _ b e cs, .node k' _ b' e' cs', h => by
    obtain ⟨hkind, htext, hchildren⟩ := alike_iff.mp h
    obtain rfl : k = k' := hkind
    have htext : s.slice b e = s'.slice b' e' := htext
    have hparts : partNames s k none cs = partNames s' k none cs' := partNames_alike (alikeIn_iff.mpr hchildren)
    unfold patternNames
    rw [htext, hparts]

theorem partNames_alike {k : Kind} : ∀ {before : Option Sight} {ts ts' : List Tree}, alikeIn s s' ts ts' = true →
    partNames s k before ts = partNames s' k before ts'
  | _, [], [], _ => rfl
  | before, t :: rest, t' :: rest', h => by
    simp only [alikeIn, Bool.and_eq_true] at h
    obtain ⟨⟨-, halike⟩, hrest⟩ := h
    unfold partNames
    rw [is_alike halike, is_alike halike, sight_alike halike, patternNames_alike halike, partNames_alike hrest]

end

theorem texts_alike {o o' : Option Tree} (h : Option.Rel (fun c c' => c.alike s s' c' = true) o o') :
    o.elim [] (fun c => [c.text s]) = o'.elim [] fun c => [c.text s'] :=
  elim_alike [] h fun _ _ hc => by rw [alike_text hc]

theorem boundNames_alike (h : t.alike s s' t' = true) : t.boundNames s = t'.boundNames s' := by
  have hchildren := (alike_iff.mp h).2.2
  unfold boundNames
  rw [is_alike h .importAlias, texts_alike (childOfKind?_alike h .identifier),
    (hchildren.filter fun _ _ hc => is_alike hc _).flatMap_eq fun _ _ hc =>
      elim_alike [] (alike_child? hc .name) fun _ _ => patternNames_alike]
  congr 1
  refine elim_alike [] (alike_child? h .name) fun m m' hm => ?_
  obtain ⟨-, htext, hparts⟩ := alike_iff.mp hm
  rw [htext]
  refine congrArg _ (texts_alike ?_)
  generalize m.children = cs, m'.children = cs' at hparts
  cases hparts with
  | nil => exact .none
  | cons hc => exact .some hc.2

/-- What is left of a node without its comments. -/
theorem parts_alike (h : t.alike s s' t' = true) :
    AlikeIn s s' (t.children.filter fun c => !c.is .comment) (t'.children.filter fun c => !c.is .comment) :=
  (alike_iff.mp h).2.2.filter fun _ _ hc => by rw [is_alike hc]

theorem wholeName?_alike (h : t.alike s s' t' = true) : t.wholeName? s = t'.wholeName? s' := by
  unfold wholeName?
  rw [← List.getLast?_map, ← List.getLast?_map, (parts_alike h).map_eq fun _ _ => alike_text]

theorem specified?_alike (h : t.alike s s' t' = true) : t.specified? s = t'.specified? s' := by
  have htype : t.typeWord? s = t'.typeWord? s' := by
    have hparts := parts_alike h
    unfold typeWord?
    generalize (t.children.filter fun c => !c.is .comment) = cs at hparts ⊢
    generalize (t'.children.filter fun c => !c.is .comment) = cs' at hparts ⊢
    cases hparts with
    | nil => rfl
    | cons hc => simp only [is_alike hc.2, alike_text hc.2]
  have hname := alike_child? h .name
  have halias := alike_child? h .alias
  unfold specified?
  rw [htype]
  generalize t.child? .name = n, t'.child? .name = n' at hname
  generalize t.child? .alias = a, t'.child? .alias = a' at halias
  cases hname with
  | none => rfl
  | some hn =>
    cases halias with
    | none => simp [alike_text hn]
    | some ha => simp [alike_text hn, alike_text ha]

theorem exportedNames_alike (h : t.alike s s' t' = true) : t.exportedNames s = t'.exportedNames s' := by
  unfold exportedNames
  rw [alike_kind h, wholeName?_alike h, ((alike_iff.mp h).2.2.filter fun _ _ hc => is_alike hc _).map_eq fun c c' hc =>
    congrArg (Option.map Specified.exported) (specified?_alike hc)]

theorem importBindings_alike (h : t.alike s s' t' = true) : t.importBindings s = t'.importBindings s' := by
  have hpart : ∀ c c' : Tree, c.alike s s' c' = true → c.partBindings s = c'.partBindings s' := fun c c' hc => by
    unfold partBindings
    rw [alike_kind hc, alike_text hc, wholeName?_alike hc,
      ((alike_iff.mp hc).2.2.filter fun _ _ hu => is_alike hu _).map_eq fun u u' hu =>
        congrArg (Option.map Binding.named) (specified?_alike hu)]
  have hclause := childOfKind?_alike h .importClause
  unfold importBindings bindings
  generalize t.childOfKind? .importClause = c, t'.childOfKind? .importClause = c' at hclause
  cases hclause with
  | none => rfl
  | some hc => exact (alike_iff.mp hc).2.2.flatMap_eq hpart

theorem namesDeclared_alike {f g : SourceFile} (h : t.alike f.text g.text t' = true) :
    t.namesDeclared f.text = t'.namesDeclared g.text := by
  unfold namesDeclared
  rw [boundNames_alike h, boundNames_alike (SourceFile.declared_alike h)]

theorem importedNames_alike (h : t.alike s s' t' = true) : t.importedNames s = t'.importedNames s' := by
  unfold importedNames
  rw [importBindings_alike h, elim_alike [] (childOfKind?_alike h _) fun _ _ hc => texts_alike (childOfKind?_alike hc _)]

/-- Statements that are written alike bind the same names. -/
theorem namesBound_alike {f g : SourceFile} (h : t.alike f.text g.text t' = true) :
    t.namesBound f.text = t'.namesBound g.text := by
  unfold namesBound
  rw [is_alike h, is_alike h, importedNames_alike h, namesDeclared_alike h,
    elim_alike [] (alike_child? h _) fun _ _ => namesDeclared_alike]

/-- Statements that are written alike export what is written alike. -/
theorem exported?_alike (h : t.alike s s' t' = true) :
    Option.Rel (fun c c' => c.alike s s' c' = true) (SourceFile.exported? t) (SourceFile.exported? t') := by
  unfold SourceFile.exported?
  rw [is_alike h, isDefaultExport_of_outline (outline_of_alike h)]
  split
  · exact alike_child? h .declaration
  · exact .none

theorem namesExported_alike {f g : SourceFile} (h : t.alike f.text g.text t' = true) :
    t.namesExported f.text = t'.namesExported g.text :=
  elim_alike [] (exported?_alike h) fun _ _ => namesDeclared_alike

theorem namesListed_alike (h : t.alike s s' t' = true) : t.namesListed s = t'.namesListed s' := by
  have hnone : (SourceFile.exported? t).isNone = (SourceFile.exported? t').isNone := by
    have hrel := exported?_alike h
    generalize SourceFile.exported? t = c, SourceFile.exported? t' = c' at hrel
    cases hrel <;> rfl
  unfold namesListed
  rw [hnone, is_alike h, isDefaultExport_of_outline (outline_of_alike h),
    (alike_iff.mp h).2.2.flatMap_eq fun _ _ => exportedNames_alike]

end Syntax.Tree

/-! ### Statements one by one -/

/-- Items that belong to others one by one pass a test as often as those do, if they pass it just when those pass
theirs. -/
theorem countP_of_forall₂ {α β : Type} {R : α → β → Prop} {l : List α} {r : List β} {q : α → Bool} {p : β → Bool}
    (h : List.Forall₂ R l r) (hpq : ∀ a ∈ l, ∀ b, R a b → p b = q a) : r.countP p = l.countP q := by
  induction h with
  | nil => rfl
  | @cons a b l r hab _ ih =>
    obtain ⟨ha, hl⟩ := List.forall_mem_cons.mp hpq
    rw [List.countP_cons, List.countP_cons, ha b hab, ih hl]

/-- Items that pass one of two tests, but never both, are counted by the one and the other. -/
theorem countP_add {α : Type} {l : List α} {p q r : α → Bool} (h : ∀ a ∈ l, r a = (p a || q a) ∧ (p a && q a) = false) :
    l.countP r = l.countP p + l.countP q := by
  induction l with
  | nil => rfl
  | cons a l ih =>
    obtain ⟨⟨hr, hno⟩, hl⟩ := List.forall_mem_cons.mp h
    rw [List.countP_cons, List.countP_cons, List.countP_cons, ih hl, hr]
    cases hp : p a <;> cases hq : q a <;> simp_all <;> omega

/-- Whether what has become of a statement is an export that was none before. -/
def Fate.isNew : Fate → Bool
  | .kept _ => false
  | .exported _ | .bound => true

namespace SourceFile

variable {f g : SourceFile} {d : DefaultExport} {name : String} {t t' c : Tree} {edits : List Edit} {x : Fate}
  {spoken : Bytes → Bytes} {names : Bytes → Tree → List Bytes}

/-- Whether a statement is a default export that is recognized. -/
def isRecognized (t : Tree) : Bool := isDefaultExport t && (DefaultExport.ofStatement? t).isSome

/-- The statements of the file `g` are those that the edits for the default export `d` of `f` describe, one by one. -/
def Rewritten (f g : SourceFile) (d : DefaultExport) (name : String) : Prop :=
  List.Forall₂ (fun x t' => Fate.met f g name x t' = true) (f.statements.filterMap (f.fate? d name)) g.statements

instance (f g : SourceFile) (d : DefaultExport) (name : String) : Decidable (f.Rewritten g d name) :=
  inferInstanceAs (Decidable (List.Forall₂ _ _ _))

/-- Whether a name is among those of a statement, as words are understood. -/
def has (f : SourceFile) (spoken : Bytes → Bytes) (name : String) (names : Bytes → Tree → List Bytes) (t : Tree) : Bool :=
  (names f.text t).any fun w => spoken w == spoken (Bytes.ofString name)

/-- How many statements of a file have a name among theirs. -/
def count (f : SourceFile) (spoken : Bytes → Bytes) (name : String) (names : Bytes → Tree → List Bytes) : Nat :=
  f.statements.countP (f.has spoken name names)

/-- What becomes of a statement: it stays, its declaration is exported, or a constant takes its place. -/
theorem fate?_eq_some (h : f.fate? d name t = some x) :
    x = .kept t ∧ isRecognized t = false ∨
      x = .exported t ∧ isRecognized t = false ∧ d.form = .identifier ∧ t.is .exportStatement = false ∧
        f.declares name t = .ok true ∨
      isRecognized t = true ∧ (d.form = .declaration ∧ x = .exported d.target.asDeclaration ∨ d.form = .expression ∧ x = .bound) := by
  unfold fate? at h
  split at h
  case isTrue hrecognized =>
    right
    right
    refine ⟨hrecognized, ?_⟩
    split at h
    · cases h
    case h_2 hform =>
      cases h
      exact .inl ⟨hform, rfl⟩
    case h_3 hform =>
      cases h
      exact .inr ⟨hform, rfl⟩
  case isFalse hother =>
    have hother : isRecognized t = false := by simpa [isRecognized] using hother
    split at h
    case isTrue hmoves =>
      cases h
      exact .inr (.inl ⟨rfl, hother, hmoves⟩)
    case isFalse =>
      cases h
      exact .inl ⟨rfl, hother⟩

/-! ### Exports that are new -/

theorem patternNames_identifier {source : Bytes} (h : t.is .identifier = true) :
    t.patternNames source = [t.text source] := by
  obtain ⟨k, r, b, e, cs⟩ := t
  obtain rfl : k = .identifier := of_decide_eq_true h
  rfl

/-- Declarations bind the names that are found in them. -/
theorem mem_boundNames {source : Bytes} (h : t ∈ nameNodes c) : t.text source ∈ c.boundNames source := by
  unfold nameNodes at h
  unfold boundNames
  split at h
  · obtain ⟨hmem, hidentifier⟩ := List.mem_filter.mp h
    obtain ⟨v, hv, hname⟩ := List.mem_filterMap.mp hmem
    refine List.mem_append_right _ (List.mem_append_left _ (List.mem_flatMap.mpr ⟨v, hv, ?_⟩))
    rw [hname, Option.elim_some, patternNames_identifier hidentifier]
    exact List.mem_singleton_self _
  · split at h
    · rw [Option.mem_toList.mp h]
      exact List.mem_append_left _ (List.mem_cons_self ..)
    · cases h

theorem mem_namesDeclared {ns : List String} (h : f.declaredNames (declared c) = .ok ns) (hname : name ∈ ns) :
    Bytes.ofString name ∈ c.namesDeclared f.text := by
  obtain ⟨n, hn, htext⟩ := Except.exists_of_mem_mapM h name hname
  rw [ofString_of_textOf htext]
  exact List.mem_append_right _ (mem_boundNames hn)

/-- What declares a name is or exports a declaration that binds it. -/
theorem exists_namesDeclared (h : f.declares name t = .ok true) :
    ∃ c, held? t = some c ∧ Bytes.ofString name ∈ c.namesDeclared f.text := by
  obtain ⟨c, ns, hc, hns, hname⟩ := exists_declared_of_declares h
  exact ⟨c, hc, mem_namesDeclared hns hname⟩

/-- A declaration that is exported by the edits binds the name of the default export. -/
theorem mem_of_exported (hedits : NamedExport.edits f d = .ok (name, edits))
    (hx : f.fate? d name t = some (.exported c)) : Bytes.ofString name ∈ c.namesDeclared f.text := by
  rcases fate?_eq_some hx with ⟨h, -⟩ | ⟨h, -, -, hother, hdeclares⟩ | ⟨-, ⟨hform, h⟩ | ⟨-, h⟩⟩
  · cases h
  · cases h
    obtain ⟨c, hc, hmem⟩ := exists_namesDeclared hdeclares
    rw [held?_of_other hother] at hc
    cases hc
    exact hmem
  · cases h
    unfold NamedExport.edits at hedits
    rw [hform] at hedits
    obtain ⟨m, hm, htext⟩ := NamedExport.exists_of_declarationEdits hedits
    refine List.mem_append_left _ (List.mem_append_left _ ?_)
    rw [asDeclaration_child?, hm, ofString_of_textOf htext]
    exact List.mem_cons_self ..
  · cases h

/-- A new export exports a declaration that binds the name of the default export. -/
theorem exists_of_isNew (hedits : NamedExport.edits f d = .ok (name, edits)) (hx : f.fate? d name t = some x)
    (hnew : x.isNew = true) (hmet : x.met f g name t' = true) :
    ∃ c', exported? t' = some c' ∧ Bytes.ofString name ∈ c'.namesDeclared g.text := by
  cases x with
  | kept => cases hnew
  | exported c =>
    obtain ⟨c', hc', halike⟩ := (Option.any_eq_true _ _).mp hmet
    exact ⟨c', hc', namesDeclared_alike halike ▸ mem_of_exported hedits hx⟩
  | bound =>
    obtain ⟨c', hc', hbound⟩ := (Option.any_eq_true _ _).mp hmet
    exact ⟨c', hc', mem_namesDeclared (declaredNames_of_bindsAlone hbound) (List.mem_singleton_self name)⟩

section

variable (h : exported? t = some c)

include h

theorem has_listed_of_exported : f.has spoken name namesListed t = false := by
  simp [has, namesListed, h]

theorem has_exported_of_exported (hc : Bytes.ofString name ∈ c.namesDeclared f.text) :
    f.has spoken name namesExported t = true := by
  refine List.any_eq_true.mpr ⟨_, ?_, beq_self_eq_true _⟩
  rw [namesExported, h]
  exact hc

theorem has_bound_of_exported (hc : Bytes.ofString name ∈ c.namesDeclared f.text) :
    f.has spoken name namesBound t = true := by
  obtain ⟨hexport, -, hchild⟩ := exported?_eq_some.mp h
  have himport : t.is .importStatement = false := by
    have hkind : t.kind = .exportStatement := of_decide_eq_true hexport
    simp [Tree.is, hkind]
  refine List.any_eq_true.mpr ⟨_, ?_, beq_self_eq_true _⟩
  rw [namesBound, himport, hexport, hchild]
  exact hc

end

variable (spoken names) in
/-- The statements that have a name after the edits are those that had it and stay, and the new exports if these have
it. -/
theorem Rewritten.count_eq {b : Bool} (h : f.Rewritten g d name)
    (hkept : ∀ t t', t.alike f.text g.text t' = true → names f.text t = names g.text t')
    (hnew : ∀ t x t', f.fate? d name t = some x → x.isNew = true → x.met f g name t' = true →
      g.has spoken name names t' = b) :
    g.count spoken name names = f.statements.countP fun t =>
      (f.fate? d name t).any fun x => if x.isNew then b else f.has spoken name names t := by
  have hpass : ∀ x ∈ f.statements.filterMap (f.fate? d name), ∀ t', x.met f g name t' = true →
      g.has spoken name names t' = match x with
        | .kept t => f.has spoken name names t
        | .exported _ | .bound => b := by
    intro x hx t' hmet
    obtain ⟨t, -, hfate⟩ := List.mem_filterMap.mp hx
    cases x with
    | kept u =>
      unfold has
      rw [← hkept u t' hmet]
    | exported c => exact hnew t _ t' hfate rfl hmet
    | bound => exact hnew t _ t' hfate rfl hmet
  unfold count
  rw [countP_of_forall₂ h hpass, List.countP_filterMap]
  refine List.countP_congr fun t ht => ?_
  cases hfate : f.fate? d name t with
  | none => rfl
  | some x =>
    rcases fate?_eq_some hfate with ⟨rfl, -⟩ | ⟨rfl, -⟩ | ⟨-, ⟨-, rfl⟩ | ⟨-, rfl⟩⟩ <;> rfl

/-- A statement stays, or is no export with a name of its own. -/
theorem fate?_cases (f : SourceFile) (d : DefaultExport) (name : String) (t : Tree) :
    f.fate? d name t = some (.kept t) ∨ (∀ x, f.fate? d name t = some x → x.isNew = true) ∧
      (t.is .exportStatement = false ∨ isDefaultExport t = true) := by
  have hrecognized : isRecognized t = true → isDefaultExport t = true := fun h => (Bool.and_eq_true_iff.mp h).1
  cases hfate : f.fate? d name t with
  | none =>
    refine .inr ⟨fun x hx => (by cases hx), .inr (hrecognized ?_)⟩
    by_contra hother
    simp only [fate?, show (isDefaultExport t && (DefaultExport.ofStatement? t).isSome) = false from
      Bool.eq_false_iff.mpr hother] at hfate
    split at hfate
    · contradiction
    · split at hfate <;> cases hfate
  | some x =>
    rcases fate?_eq_some hfate with ⟨rfl, -⟩ | ⟨rfl, -, -, hother, -⟩ | ⟨hmet, ⟨-, rfl⟩ | ⟨-, rfl⟩⟩
    · exact .inl rfl
    · exact .inr ⟨fun x hx => (by cases hx; rfl), .inl hother⟩
    · exact .inr ⟨fun x hx => (by cases hx; rfl), .inr (hrecognized hmet)⟩
    · exact .inr ⟨fun x hx => (by cases hx; rfl), .inr (hrecognized hmet)⟩

/-- What is no export with a name of its own exports nothing by name. -/
theorem has_nothing (h : t.is .exportStatement = false ∨ isDefaultExport t = true) :
    f.has spoken name namesListed t = false ∧ f.has spoken name namesExported t = false := by
  have hnone : exported? t = none := by
    unfold exported?
    rcases h with h | h <;> simp [h]
  constructor
  · rcases h with h | h <;> simp [has, namesListed, h]
  · simp [has, namesExported, hnone]

/-- The edits change nothing about how often the name is exported without a declaration. -/
theorem Rewritten.count_listed (h : f.Rewritten g d name) (hedits : NamedExport.edits f d = .ok (name, edits)) :
    g.count spoken name namesListed = f.count spoken name namesListed := by
  have hcount := h.count_eq spoken namesListed (b := false)
    (fun t t' => namesListed_alike) fun t x t' hx hnew hmet => by
      obtain ⟨c', hc', -⟩ := exists_of_isNew hedits hx hnew hmet
      exact has_listed_of_exported hc'
  rw [hcount]
  refine List.countP_congr fun t _ => ?_
  rcases f.fate?_cases d name t with hfate | ⟨hnew, hother⟩
  · rw [hfate]
    rfl
  · rw [(has_nothing hother).1]
    cases hfate : f.fate? d name t with
    | none => rfl
    | some x => simp

/-- Declarations of the name are exported as often as before, and once more for each new export. -/
theorem Rewritten.count_exported (h : f.Rewritten g d name) (hedits : NamedExport.edits f d = .ok (name, edits)) :
    g.count spoken name namesExported = f.count spoken name namesExported +
      f.statements.countP fun t => (f.fate? d name t).any Fate.isNew := by
  have hcount := h.count_eq spoken namesExported (b := true)
    (fun t t' => namesExported_alike) fun t x t' hx hnew hmet => by
      obtain ⟨c', hc', hmem⟩ := exists_of_isNew hedits hx hnew hmet
      exact has_exported_of_exported hc' hmem
  rw [hcount]
  refine countP_add fun t _ => ?_
  rcases f.fate?_cases d name t with hfate | ⟨hnew, hother⟩
  · rw [hfate]
    simp [Fate.isNew]
  · rw [(has_nothing hother).2]
    cases hfate : f.fate? d name t with
    | none => simp
    | some x => simp [hnew x hfate]

/-- One default export is found just if one is recognized. -/
theorem countP_isRecognized (hd : f.defaultExports.outcome = .ok [d]) : f.statements.countP isRecognized = 1 := by
  obtain ⟨hds, -⟩ := defaultExportsOf_eq_ok_iff.mp hd
  have hlength := congrArg List.length hds
  rw [List.length_filterMap_eq_countP, List.countP_filter] at hlength
  refine (List.countP_congr fun t _ => ?_).trans hlength.symm
  rw [isRecognized, Bool.and_comm]

/-- A constant binds the name once more than the other statements do. -/
theorem Rewritten.count_bound (h : f.Rewritten g d name) (hd : f.defaultExports.outcome = .ok [d])
    (hedits : NamedExport.edits f d = .ok (name, edits)) (hform : d.form = .expression) :
    g.count spoken name namesBound =
      (f.statements.countP fun t => !isRecognized t && f.has spoken name namesBound t) + 1 := by
  have hcount := h.count_eq spoken namesBound (b := true)
    (fun t t' => namesBound_alike) fun t x t' hx hnew hmet => by
      obtain ⟨c', hc', hmem⟩ := exists_of_isNew hedits hx hnew hmet
      exact has_bound_of_exported hc' hmem
  rw [hcount, ← countP_isRecognized hd]
  refine countP_add fun t _ => ?_
  unfold fate? isRecognized
  rw [hform]
  cases isDefaultExport t && (DefaultExport.ofStatement? t).isSome <;> simp [Fate.isNew]

end SourceFile

/-- How often the name of a default export is exported and bound. For every project and every file in it with one
default export, where the work on the file succeeds, it tells a name, and every export clause of another statement
stays in the text, where it is read again as one that exports the same names. If the new text has the statements that
the edits describe, then, however words are understood: as many statements as before list the name, in a clause or as
that of a whole module; those that export a declaration of it are those that did, and one more for each new export; and
where a value is exported, one statement more than before binds the name, whatever the others bind. So the name is
exported by its declarations alone just if no statement listed it, and it is bound once more just if it was bound. -/
theorem name_exported_and_bound (w w' : Workspace) (f : SourceFile) (d : DefaultExport) (r : Option String)
    (j j' : Journal) (hw : w.paths.Nodup) (hf : w.file? f.path = some f) (hd : f.defaultExports.outcome = .ok [d])
    (h : Workspace.nameDefaultExport f w j = (.ok r, w', j')) :
    ∃ name g, r = some name ∧ w'.file? f.path = some g ∧
      (∀ statement ∈ f.statements, statement.is .exportStatement = true → statement ≠ d.statement →
        ∀ t ∈ statement.children, t.kind = .exportClause → ∃ (before behind : Bytes) (names : List Bytes),
          g.text = before ++ (t.text f.text ++ behind) ∧ t.exportedNames f.text = names.map some ∧
          NamedImport.ExportsNames exportClause .exportClause (t.text f.text) behind names) ∧
      (f.Rewritten g d name → ∀ spoken : Bytes → Bytes,
        g.count spoken name namesListed = f.count spoken name namesListed ∧
        g.count spoken name namesExported = f.count spoken name namesExported +
          (f.statements.countP fun t => (f.fate? d name t).any Fate.isNew) ∧
        (d.form = .expression → g.count spoken name namesBound =
          (f.statements.countP fun t => !SourceFile.isRecognized t && f.has spoken name namesBound t) + 1)) := by
  obtain ⟨name, edits, g, hr, hedits, hg, happlied⟩ := Workspace.nameDefaultExport_text hw hf hd h
  have hstatement : d.statement ∈ f.tree.children := by
    obtain ⟨t, ht, -, hof⟩ := SourceFile.exists_statement_of_defaultExports hd
    obtain rfl := DefaultExport.ofStatement?_statement hof
    exact f.statements_sublist.mem ht
  refine ⟨name, g, hr, hg, fun statement hs hexport hne t ht hclause => ?_, fun hrewritten spoken =>
    ⟨hrewritten.count_listed hedits, hrewritten.count_exported hedits, hrewritten.count_bound hd hedits⟩⟩
  have hkept : ¬ NamedExport.Reworks f d name statement := by
    rintro (heq | ⟨hother, -⟩)
    · exact hne heq
    · rw [hexport] at hother
      cases hother
  obtain ⟨hmem, -, hcomment⟩ := SourceFile.mem_statements_iff.mp hs
  exact SourceFile.exists_clause_kept happlied (NamedExport.edits_keep hstatement hedits) hmem hcomment hkept ht hclause

/-- A module with a function that is declared twice, and listed under another name. -/
def overloadedModule : SourceFile :=
  ⟨samplePath "a.ts", .typescript, Bytes.ofString ("function twice(): void;\nfunction twice() \x7b\x7d\n" ++
    "export \x7b twice as again \x7d;\nexport default twice;\n"), false⟩

/-- A project with no other module. -/
def overloadedProject : Workspace := { sampleProject with files := [overloadedModule] }

/-- Both declarations are exported, the clause stays, and the name is exported by nothing else. -/
theorem overloadedModule_exports : ∃ d w' j' g, overloadedModule.defaultExports.outcome = .ok [d] ∧
    Workspace.nameDefaultExport overloadedModule overloadedProject [] = (.ok (some "twice"), w', j') ∧
    w'.file? overloadedModule.path = some g ∧ overloadedModule.Rewritten g d "twice" ∧
    g.count id "twice" namesListed = 0 ∧ g.count id "twice" namesExported = 2 := by
  have hbefore : overloadedModule.count id "twice" namesListed = 0 ∧
      overloadedModule.count id "twice" namesExported = 0 := by decide +kernel
  obtain ⟨d, hd⟩ := SourceFile.exists_defaultExport (f := overloadedModule) (by decide +kernel)
  obtain ⟨w', j', g, hrun, hg, hparse⟩ := Workspace.exists_named (w := overloadedProject) (f := overloadedModule)
    "twice" (p := fun g => overloadedModule.defaultExports.outcome.toOption.all fun ds => ds.all fun d =>
      decide (overloadedModule.Rewritten g d "twice") && overloadedModule.statements.countP (fun t =>
        (overloadedModule.fate? d "twice" t).any Fate.isNew) == 2) (by decide +kernel) (by decide +kernel)
  rw [hd] at hparse
  simp only [Except.toOption, Option.all_some, List.all_cons, List.all_nil, Bool.and_true, Bool.and_eq_true,
    decide_eq_true_eq, beq_iff_eq] at hparse
  obtain ⟨hrewritten, hnew⟩ := hparse
  obtain ⟨name, g', hr, hg', -, hcounts⟩ := name_exported_and_bound overloadedProject w' overloadedModule d
    (some "twice") [] j' (by decide) (by decide) hd hrun
  cases hr
  cases hg.symm.trans hg'
  obtain ⟨hlisted, hexported, -⟩ := hcounts hrewritten id
  rw [hbefore.1] at hlisted
  rw [hbefore.2, hnew] at hexported
  exact ⟨d, w', j', g, hd, hrun, hg, hrewritten, hlisted, hexported⟩

/-- A module that lists a name and exports it by default. -/
def listingModule : SourceFile :=
  ⟨samplePath "a.ts", .typescript,
    Bytes.ofString "const a = 1;\nexport \x7b a \x7d;\nexport default a;\n", false⟩

/-- A module that binds the name of its file, and exports a value by default. -/
def bindingModule : SourceFile :=
  ⟨samplePath "a.ts", .typescript, Bytes.ofString "const a = 1;\nexport default () => a;\n", false⟩

/-- A name that is bound once and exported once, by a clause, is exported by its declaration too. And a value is bound
to a name that is bound once. -/
theorem name_exported_and_bound_twice :
    (listingModule.count id "a" namesBound = 1 ∧ listingModule.count id "a" namesExported = 0 ∧
      listingModule.count id "a" namesListed = 1 ∧ ∃ w' j' g, Workspace.nameDefaultExport listingModule
        { sampleProject with files := [listingModule] } [] = (.ok (some "a"), w', j') ∧
        w'.file? listingModule.path = some g ∧
        g.count id "a" namesExported = 1 ∧ g.count id "a" namesListed = 1) ∧
    bindingModule.count id "a" namesBound = 1 ∧ ∃ w' j' g, Workspace.nameDefaultExport bindingModule
      { sampleProject with files := [bindingModule] } [] = (.ok (some "a"), w', j') ∧
      w'.file? bindingModule.path = some g ∧ g.count id "a" namesBound = 2 := by
  have hlisting : listingModule.count id "a" namesBound = 1 ∧ listingModule.count id "a" namesExported = 0 ∧
      listingModule.count id "a" namesListed = 1 := by decide +kernel
  have hbinding : bindingModule.count id "a" namesBound = 1 := by decide +kernel
  obtain ⟨w₁, j₁, g₁, hrun₁, hg₁, hcounts₁⟩ := Workspace.exists_named (f := listingModule) "a"
    (w := { sampleProject with files := [listingModule] })
    (p := fun g => g.count id "a" namesExported = 1 ∧ g.count id "a" namesListed = 1)
    (by decide +kernel) (by decide +kernel)
  obtain ⟨w₂, j₂, g₂, hrun₂, hg₂, hcounts₂⟩ := Workspace.exists_named (f := bindingModule) "a"
    (w := { sampleProject with files := [bindingModule] })
    (p := fun g => g.count id "a" namesBound = 2) (by decide +kernel) (by decide +kernel)
  obtain ⟨hexported, hlisted⟩ := of_decide_eq_true hcounts₁
  exact ⟨⟨hlisting.1, hlisting.2.1, hlisting.2.2, w₁, j₁, g₁, hrun₁, hg₁, hexported, hlisted⟩,
    hbinding, w₂, j₂, g₂, hrun₂, hg₂, of_decide_eq_true hcounts₂⟩

end Codemod
