import Codemod.Proofs.ImportRepair

/-!
# The statements of a file with a named export

The edits for a default export say what becomes of each statement: it stays, it goes, its declaration is
exported, or a constant is exported in its place. Whether the text that the edits make is parsed with these
statements is a matter of the grammar, and a hypothesis here. From it follows what the library finds in the
new text: no default export, and an export of the name.

Statements are compared as they are written: node by node, without the places where the nodes stand.

Main statements:

* `SourceFile.declaredNames_congr` says that what a declaration declares depends on how it is written;
* `SourceFile.defaultExportsOf_eq_ok_iff` says which default exports are found among statements;
* `SourceFile.Described.defaultExports` says that no default export is left in a described file, and
  `SourceFile.Described.exportsName` that it exports the name.
-/

namespace Codemod

open Syntax Syntax.Tree

namespace Syntax.Tree

/-! ### Nodes that are written alike -/

mutual

/-- Whether two nodes of two sources are written alike: they are of one kind and have the same text, and
so have the nodes below them, each in the same role. -/
def alike (s s' : Bytes) : Tree → Tree → Bool
  | .node k _ b e cs, .node k' _ b' e' cs' =>
    k = k' && s.slice b e = s'.slice b' e' && alikeIn s s' cs cs'

/-- Whether the nodes of two lists are written alike and have the same roles. -/
def alikeIn (s s' : Bytes) : List Tree → List Tree → Bool
  | [], [] => true
  | t :: rest, t' :: rest' => t.role = t'.role && alike s s' t t' && alikeIn s s' rest rest'
  | [], _ :: _ => false
  | _ :: _, [] => false

end

/-- One by one, the nodes of two lists are written alike and have the same roles. -/
abbrev AlikeIn (s s' : Bytes) : List Tree → List Tree → Prop :=
  List.Forall₂ fun c c' => c.role = c'.role ∧ c.alike s s' c' = true

variable {s s' : Bytes} {t t' : Tree}

theorem alikeIn_iff {ts ts' : List Tree} : alikeIn s s' ts ts' = true ↔ AlikeIn s s' ts ts' := by
  induction ts generalizing ts' with
  | nil => cases ts' <;> simp [alikeIn]
  | cons c rest ih => cases ts' <;> simp [alikeIn, ih]

theorem alike_iff : t.alike s s' t' = true ↔
    t.kind = t'.kind ∧ t.text s = t'.text s' ∧ AlikeIn s s' t.children t'.children := by
  cases t
  cases t'
  simp [alike, alikeIn_iff, kind, text, start, stop, children, and_assoc]

theorem alike_kind (h : t.alike s s' t' = true) : t.kind = t'.kind := (alike_iff.mp h).1

theorem alike_text (h : t.alike s s' t' = true) : t.text s = t'.text s' := (alike_iff.mp h).2.1

/-- In lists of nodes that are written alike the first ones that pass a test are alike. -/
theorem AlikeIn.find? {p : Tree → Bool} {ts ts' : List Tree} (h : AlikeIn s s' ts ts')
    (hp : ∀ c c', c.role = c'.role → c.alike s s' c' = true → p c = p c') :
    Option.Rel (fun c c' => c.alike s s' c' = true) (ts.find? p) (ts'.find? p) := by
  -- Two nodes that stand at one place pass the test both or not at all.
  induction h with
  | nil => exact .none
  | @cons c c' _ _ hc _ ih =>
    obtain ⟨hrole, halike⟩ := hc
    have hsame := hp c c' hrole halike
    cases htest : p c with
    | true =>
      rw [List.find?_cons_of_pos htest, List.find?_cons_of_pos (hsame ▸ htest)]
      exact .some halike
    | false =>
      rw [List.find?_cons_of_neg (by simp [htest]), List.find?_cons_of_neg (by simp [← hsame, htest])]
      exact ih

theorem alike_child? (h : t.alike s s' t' = true) (r : Role) :
    Option.Rel (fun c c' => c.alike s s' c' = true) (t.child? r) (t'.child? r) :=
  AlikeIn.find? (alike_iff.mp h).2.2 fun c c' hrole _ => by rw [hrole]

theorem exists_child?_of_alike (h : t.alike s s' t' = true) {r : Role} {c : Tree}
    (hc : t.child? r = some c) : ∃ c', t'.child? r = some c' ∧ c.alike s s' c' = true := by
  have hrel := alike_child? h r
  rw [hc] at hrel
  generalize t'.child? r = x at hrel
  cases hrel with
  | some halike => exact ⟨_, rfl, halike⟩

/-! ### Values that are exported as declarations -/

/-- A class or a function that is parsed as a value, as the declaration that is written like it. Any other node stays
what it is. -/
def asDeclaration : Tree → Tree
  | .node .classExpression r b e cs => .node .classDeclaration r b e cs
  | .node .functionExpression r b e cs => .node .functionDeclaration r b e cs
  | .node .generatorExpression r b e cs => .node .generatorDeclaration r b e cs
  | t => t

theorem asDeclaration_child? (t : Tree) (r : Role) : t.asDeclaration.child? r = t.child? r := by
  unfold asDeclaration
  split <;> rfl

/-! ### The outline of a statement -/

/-- The outline of a node: what it is, and of each part what it is, in which role, and whether it bears a
name. -/
def outline (t : Tree) : Kind × List (Kind × Option Role × Bool) :=
  (t.kind, t.children.map fun c => (c.kind, c.role, (c.child? .name).isSome))

/-- Nodes that are written alike have one outline. -/
theorem outline_of_alike (h : t.alike s s' t' = true) : t.outline = t'.outline := by
  obtain ⟨hkind, -, hchildren⟩ := alike_iff.mp h
  unfold outline
  rw [hkind]
  refine congrArg (Prod.mk _) ?_
  generalize t.children = cs, t'.children = cs' at hchildren
  induction hchildren with
  | nil => rfl
  | @cons c c' _ _ hc _ ih =>
    obtain ⟨hrole, halike⟩ := hc
    have hname : (c.child? .name).isSome = (c'.child? .name).isSome := by
      have hrel := alike_child? halike .name
      generalize c.child? .name = m, c'.child? .name = m' at hrel
      cases hrel <;> rfl
    rw [List.map_cons, List.map_cons, ih, alike_kind halike, hrole, hname]

end Syntax.Tree

/-! ### Default exports by outline -/

section

variable {t t' : Tree}

/-- A default export is recognized when it exports a declaration with a name or a value. -/
theorem DefaultExport.isSome_ofStatement? (t : Tree) : (DefaultExport.ofStatement? t).isSome =
    ((t.child? .declaration).any (fun d => (d.child? .name).isSome) || (t.child? .value).isSome) := by
  unfold DefaultExport.ofStatement?
  cases t.child? .declaration with
  | none => simp
  | some d =>
    cases hname : (d.child? .name).isSome with
    | true => simp [Option.filter, hname]
    | false => simp [Option.filter, hname]

/-- Whether a statement is a default export shows in its outline. -/
theorem isDefaultExport_of_outline (h : t.outline = t'.outline) :
    isDefaultExport t = isDefaultExport t' := by
  have hparts : ∀ u : Tree, isDefaultExport u =
      (decide (u.outline.1 = .exportStatement) && u.outline.2.any fun c => c.1 = .defaultWord) := by
    intro u
    unfold isDefaultExport outline
    rw [List.any_map]
    rfl
  rw [hparts t, hparts t', h]

/-- Whether a default export is recognized shows in its outline. -/
theorem DefaultExport.isSome_ofStatement?_of_outline (h : t.outline = t'.outline) :
    (DefaultExport.ofStatement? t).isSome = (DefaultExport.ofStatement? t').isSome := by
  have hparts : ∀ (u : Tree) (r : Role), (u.child? r).map (fun c =>
      (c.kind, c.role, (c.child? .name).isSome)) = u.outline.2.find? fun c => c.2.1 = some r := by
    intro u r
    unfold outline
    rw [List.find?_map]
    rfl
  have hnamed : ∀ u : Tree, (u.child? .declaration).any (fun d => (d.child? .name).isSome) =
      (u.outline.2.find? fun c => c.2.1 = some Role.declaration).any fun c => c.2.2 := by
    intro u
    rw [← hparts, Option.any_map]
  have hvalue : ∀ u : Tree, (u.child? .value).isSome =
      (u.outline.2.find? fun c => c.2.1 = some Role.value).isSome := by
    intro u
    rw [← hparts, Option.isSome_map]
  rw [isSome_ofStatement?, isSome_ofStatement?, hnamed t, hnamed t', hvalue t, hvalue t', h]

end

namespace SourceFile

variable {f g : SourceFile} {t t' : Tree} {name : String}

/-! ### Declarations by how they are written -/

/-- What a declaration declares: of what is defined elsewhere, the declaration in it. -/
def declared (d : Tree) : Tree :=
  if d.is .ambientDeclaration then d.named.head?.getD d else d

/-- The declaration that a statement exports under its own name. -/
def exported? (t : Tree) : Option Tree :=
  if t.is .exportStatement && !isDefaultExport t then t.child? .declaration else none

/-- The declaration that a statement is or exports. -/
def held? (t : Tree) : Option Tree :=
  if t.is .exportStatement then exported? t else some t

theorem held?_of_export (h : t.is .exportStatement = true) : held? t = exported? t := by
  unfold held?
  rw [if_pos h]

theorem held?_of_other (h : t.is .exportStatement = false) : held? t = some t := by
  unfold held?
  rw [h]
  rfl

theorem declaration?_eq (t : Tree) : declaration? t = (held? t).map declared := by
  -- Whatever the statement holds, what is defined elsewhere is opened in the same way.
  have hinner : ∀ o : Option Tree, (o >>= fun d =>
      if d.is .ambientDeclaration then some (d.named.head?.getD d) else some d) = o.map declared := by
    intro o
    cases o with
    | none => rfl
    | some d =>
      show (if _ then _ else _) = some (if _ then _ else _)
      split <;> rfl
  unfold declaration? held? exported?
  cases t.is .exportStatement with
  | false => exact hinner (some t)
  | true =>
    cases isDefaultExport t with
    | true => exact hinner none
    | false => exact hinner (t.child? .declaration)

/-- Declarations that are written alike declare what is written alike. -/
theorem declared_alike (h : t.alike f.text g.text t' = true) :
    (declared t).alike f.text g.text (declared t') = true := by
  unfold declared
  rw [show t'.is .ambientDeclaration = t.is .ambientDeclaration by simp [Tree.is, alike_kind h]]
  split
  · have hnamed : AlikeIn f.text g.text t.named t'.named :=
      List.rel_filter (fun c c' hc => by simp only [alike_kind hc.2]) (alike_iff.mp h).2.2
    generalize t.named = cs, t'.named = cs' at hnamed
    cases hnamed with
    | nil => exact h
    | cons hc => exact hc.2
  · exact h

/-- The names in declarations that are written alike are written alike. -/
theorem nameNodes_alike (h : t.alike f.text g.text t' = true) :
    List.Forall₂ (fun m m' => m.alike f.text g.text m' = true) (nameNodes t) (nameNodes t') := by
  have hkind : ∀ k, t'.is k = t.is k := fun k => by simp [Tree.is, alike_kind h]
  unfold nameNodes
  rw [hkind, hkind, alike_kind h]
  split
  · have hbound : AlikeIn f.text g.text (t.children.filter (·.is .variableDeclarator))
        (t'.children.filter (·.is .variableDeclarator)) :=
      List.rel_filter (fun c c' hc => by simp [Tree.is, alike_kind hc.2]) (alike_iff.mp h).2.2
    exact List.rel_filter (fun m m' hm => by simp [Tree.is, alike_kind hm])
      (List.rel_filterMap (fun c c' hc => alike_child? hc.2 .name) hbound)
  · split
    · have hname := alike_child? h .name
      generalize t.child? .name = m, t'.child? .name = m' at hname
      cases hname with
      | none => exact .nil
      | some hm => exact .cons hm .nil
    · exact .nil

theorem declaredNames_congr (h : t.alike f.text g.text t' = true) :
    f.declaredNames t = g.declaredNames t' := by
  have hnames := nameNodes_alike h
  unfold declaredNames
  generalize nameNodes t = ms, nameNodes t' = ms' at hnames
  induction hnames with
  | nil => rfl
  | cons hm _ ih => rw [List.mapM_cons, List.mapM_cons, textOf_congr (alike_text hm), ih]

theorem declares_eq_of_held? {c : Tree} (hc : held? t = some c) :
    f.declares name t = (·.contains name) <$> f.declaredNames (declared c) := by
  unfold declares
  rw [declaration?_eq, hc]
  rfl

/-- What declares a name is or exports a declaration. -/
theorem exists_held_of_declares (h : f.declares name t = .ok true) : ∃ c, held? t = some c := by
  cases hc : held? t with
  | some c => exact ⟨c, rfl⟩
  | none =>
    unfold declares at h
    rw [declaration?_eq, hc] at h
    cases h

theorem exported?_eq_some {c : Tree} : exported? t = some c ↔
    t.is .exportStatement = true ∧ isDefaultExport t = false ∧ t.child? .declaration = some c := by
  unfold exported?
  cases t.is .exportStatement <;> cases isDefaultExport t <;> simp

/-- A statement that exports a declaration holds it. -/
theorem held?_of_exported? {c : Tree} (h : exported? t = some c) : held? t = some c := by
  rw [held?_of_export (exported?_eq_some.mp h).1, h]

/-- A statement that holds a declaration is no default export. -/
theorem not_default_of_held? {c : Tree} (h : held? t = some c) : isDefaultExport t = false := by
  cases hexport : t.is .exportStatement with
  | false => simp [isDefaultExport, hexport]
  | true =>
    rw [held?_of_export hexport] at h
    exact (exported?_eq_some.mp h).2.1

/-! ### The default exports that are found -/

theorem defaultExportsOf_cons_of_some {rest : List Tree} {d : DefaultExport}
    (hd : DefaultExport.ofStatement? t = some d) : (f.defaultExportsOf (t :: rest)).outcome =
      (f.defaultExportsOf rest).outcome.map (d :: ·) := by
  rw [defaultExportsOf, hd]
  exact Journaled.outcome_map _ (d :: ·)

theorem defaultExportsOf_cons_of_none {rest : List Tree} (hd : DefaultExport.ofStatement? t = none) :
    (f.defaultExportsOf (t :: rest)).outcome =
      f.textOf t >>= fun _ => (f.defaultExportsOf rest).outcome := by
  rw [defaultExportsOf, hd]
  cases f.textOf t with
  | error e => rfl
  | ok text => exact (f.defaultExportsOf_steady rest).fst _

/-- The default exports among statements are those that are recognized; of the others the text is read. -/
theorem defaultExportsOf_eq_ok_iff {ts : List Tree} {ds : List DefaultExport} :
    (f.defaultExportsOf ts).outcome = .ok ds ↔ ds = ts.filterMap DefaultExport.ofStatement? ∧
      ∀ t ∈ ts, DefaultExport.ofStatement? t = none → ∃ text, f.textOf t = .ok text := by
  induction ts generalizing ds with
  | nil =>
    constructor
    · intro h
      cases h
      simp
    · rintro ⟨rfl, -⟩
      rfl
  | cons t rest ih =>
    rw [List.forall_mem_cons]
    cases hd : DefaultExport.ofStatement? t with
    | some d =>
      rw [List.filterMap_cons_some hd, defaultExportsOf_cons_of_some hd]
      constructor
      · intro h
        cases hrest : (f.defaultExportsOf rest).outcome with
        | error e =>
          rw [hrest] at h
          cases h
        | ok more =>
          rw [hrest] at h
          cases h
          obtain ⟨rfl, hread⟩ := ih.mp hrest
          exact ⟨rfl, fun hnone => (by cases hnone), hread⟩
      · rintro ⟨rfl, -, hread⟩
        rw [ih.mpr ⟨rfl, hread⟩]
        rfl
    | none =>
      rw [List.filterMap_cons_none hd, defaultExportsOf_cons_of_none hd]
      constructor
      · intro h
        obtain ⟨text, htext, hrest⟩ := Except.bind_eq_ok h
        obtain ⟨hds, hread⟩ := ih.mp hrest
        exact ⟨hds, fun _ => ⟨text, htext⟩, hread⟩
      · rintro ⟨hds, hread, hmore⟩
        obtain ⟨text, htext⟩ := hread rfl
        rw [htext]
        exact ih.mpr ⟨hds, hmore⟩

/-- Whether no default export of the file is recognized. -/
def Defaultless (f : SourceFile) : Prop :=
  ∀ t ∈ f.statements, isDefaultExport t = true → (DefaultExport.ofStatement? t).isSome = false

/-- A file in which no default export is found has none that is recognized. -/
theorem defaultless_of_defaultExports (h : f.defaultExports.outcome = .ok []) : f.Defaultless := by
  obtain ⟨hnone, -⟩ := defaultExportsOf_eq_ok_iff.mp h
  intro t ht hdefault
  have hmem : t ∈ f.statements.filter isDefaultExport := List.mem_filter.mpr ⟨ht, hdefault⟩
  rw [List.filterMap_eq_nil_iff.mp hnone.symm t hmem]
  rfl

end SourceFile

/-! ### What becomes of the statements -/

namespace NamedExport

variable {f : SourceFile} {d : DefaultExport} {name : String} {es : List Edit}

/-- A name is exported only if a statement declares it. -/
theorem exists_of_identifierEdits (h : identifierEdits f d = .ok (name, es)) :
    ∃ t ∈ f.statements, f.declares name t = .ok true := by
  obtain ⟨own, -, h⟩ := Except.bind_eq_ok h
  obtain ⟨definitions, hdefinitions, h⟩ := Except.bind_eq_ok h
  cases definitions with
  | nil => cases h
  | cons t more =>
    obtain ⟨exported, -, h⟩ := Except.bind_eq_ok h
    cases h
    have ht : t ∈ t :: more := List.mem_cons_self ..
    exact ⟨t, SourceFile.findDeclarations_subset hdefinitions t ht,
      SourceFile.selectM_sound hdefinitions t ht⟩

/-- A declaration is exported under the name that it bears. -/
theorem exists_of_declarationEdits (h : declarationEdits f d = .ok (name, es)) :
    ∃ m, d.target.child? .name = some m ∧ f.textOf m = .ok name := by
  unfold declarationEdits at h
  split at h
  case h_1 => cases h
  case h_2 m hm =>
    obtain ⟨own, hown, h⟩ := Except.bind_eq_ok h
    cases h
    exact ⟨m, hm, hown⟩

end NamedExport

/-- What the edits for a default export make of a statement that they do not remove. -/
inductive Fate where
  /-- The statement stays. -/
  | kept (t : Tree)
  /-- A declaration is exported. -/
  | exported (declaration : Tree)
  /-- A constant with the new name is exported. -/
  | bound

namespace SourceFile

/-- What becomes of a statement when the default export `d` of its file is exported as `name`. -/
def fate? (f : SourceFile) (d : DefaultExport) (name : String) (t : Tree) : Option Fate :=
  if isDefaultExport t && (DefaultExport.ofStatement? t).isSome then
    match d.form with
    | .identifier => none
    | .declaration => some (.exported d.target.asDeclaration)
    | .expression => some .bound
  else if d.form = .identifier ∧ t.is .exportStatement = false ∧ f.declares name t = .ok true then
    some (.exported t)
  else some (.kept t)

/-- Whether a declaration binds one constant with a name and nothing else. -/
def bindsAlone (f : SourceFile) (name : String) (c : Tree) : Bool :=
  c.is .lexicalDeclaration && match c.children.filter (·.is .variableDeclarator) with
    | [v] => (v.child? .name).any fun m => m.is .identifier && m.text f.text = Bytes.ofString name
    | _ => false

end SourceFile

/-- Whether a statement of the file `g` is what has become of one of the file `f`. -/
def Fate.met (f g : SourceFile) (name : String) : Fate → Tree → Bool
  | .kept t, t' => t.alike f.text g.text t'
  | .exported c, t' => (SourceFile.exported? t').any fun c' => c.alike f.text g.text c'
  | .bound, t' => (SourceFile.exported? t').any fun c' => g.bindsAlone name c'

namespace SourceFile

/-- The statements of the file `g` are those that the edits for the default export `d` of `f` describe. -/
structure Described (f g : SourceFile) (d : DefaultExport) (name : String) : Prop where
  /-- Every statement is what has become of one. -/
  sound : ∀ t' ∈ g.statements, ∃ t ∈ f.statements, ∃ x ∈ f.fate? d name t, x.met f g name t' = true
  /-- Whatever has become of one is a statement. -/
  complete : ∀ t ∈ f.statements, ∀ x ∈ f.fate? d name t, ∃ t' ∈ g.statements, x.met f g name t' = true

instance (f g : SourceFile) (d : DefaultExport) (name : String) : Decidable (f.Described g d name) :=
  decidable_of_iff
    ((∀ t' ∈ g.statements, ∃ t ∈ f.statements, ∃ x ∈ f.fate? d name t, x.met f g name t' = true) ∧
      ∀ t ∈ f.statements, ∀ x ∈ f.fate? d name t, ∃ t' ∈ g.statements, x.met f g name t' = true)
    ⟨fun h => ⟨h.1, h.2⟩, fun h => ⟨h.sound, h.complete⟩⟩

/-- Whether a statement exports a declaration of a name. A namespace is exported by its name although it is
not among the declarations that are looked for. -/
def ExportsName (f : SourceFile) (name : String) (t : Tree) : Prop :=
  ∃ c, exported? t = some c ∧
    (f.declares name t = .ok true ∨ ∃ m, c.child? .name = some m ∧ f.textOf m = .ok name)

variable {f g : SourceFile} {d : DefaultExport} {name : String} {t t' c : Tree} {edits : List Edit}

/-- What has become of a default export that is left is a default export only if it has stayed. -/
theorem kept_of_default {x : Fate} (hx : f.fate? d name t = some x) (hmet : x.met f g name t' = true)
    (hdefault : isDefaultExport t' = true) :
    x = .kept t ∧ (isDefaultExport t && (DefaultExport.ofStatement? t).isSome) = false := by
  have hexported : ∀ p : Tree → Bool, (exported? t').any p = false := by
    intro p
    unfold exported?
    rw [hdefault]
    simp
  cases x with
  | exported c => exact absurd hmet (by simp [Fate.met, hexported])
  | bound => exact absurd hmet (by simp [Fate.met, hexported])
  | kept u =>
    unfold fate? at hx
    split at hx
    · split at hx <;> cases hx
    case isFalse hother =>
      split at hx
      · cases hx
      · cases hx
        exact ⟨rfl, by simpa using hother⟩

/-- A described file has no default export. -/
theorem Described.defaultExports (h : f.Described g d name) (hd : f.defaultExports.outcome = .ok [d]) :
    g.defaultExports.outcome = .ok [] := by
  obtain ⟨-, hread⟩ := defaultExportsOf_eq_ok_iff.mp hd
  have hleft : ∀ t' ∈ g.statements.filter isDefaultExport,
      DefaultExport.ofStatement? t' = none ∧ ∃ text, g.textOf t' = .ok text := by
    intro t' ht'
    obtain ⟨hmem', hdefault'⟩ := List.mem_filter.mp ht'
    obtain ⟨t, ht, x, hx, hmet⟩ := h.sound t' hmem'
    obtain ⟨rfl, hother⟩ := kept_of_default hx hmet hdefault'
    -- The statement has stayed, and was passed over before for the same reason.
    have houtline := outline_of_alike hmet
    have hdefault : isDefaultExport t = true := (isDefaultExport_of_outline houtline).trans hdefault'
    have hnone : DefaultExport.ofStatement? t = none := by simpa [hdefault] using hother
    have hnone' : DefaultExport.ofStatement? t' = none := by
      have hsame := DefaultExport.isSome_ofStatement?_of_outline houtline
      rw [hnone] at hsame
      simpa using hsame.symm
    obtain ⟨text, htext⟩ := hread t (List.mem_filter.mpr ⟨ht, hdefault⟩) hnone
    exact ⟨hnone', text, (textOf_congr (alike_text hmet)).symm.trans htext⟩
  refine defaultExportsOf_eq_ok_iff.mpr ⟨?_, fun t' ht' _ => (hleft t' ht').2⟩
  exact (List.filterMap_eq_nil_iff.mpr fun t' ht' => (hleft t' ht').1).symm

/-- A single constant with a name is declared by its name. -/
theorem declaredNames_of_bindsAlone (h : f.bindsAlone name c = true) :
    f.declaredNames (declared c) = .ok [name] := by
  obtain ⟨hkind, hbound⟩ := Bool.and_eq_true_iff.mp h
  have hlexical : c.kind = .lexicalDeclaration := of_decide_eq_true hkind
  have hself : declared c = c := by simp [declared, Tree.is, hlexical]
  split at hbound
  case h_2 => cases hbound
  case h_1 v hv =>
    obtain ⟨m, hm, hname⟩ := (Option.any_eq_true _ _).mp hbound
    obtain ⟨hidentifier, htext⟩ := Bool.and_eq_true_iff.mp hname
    have hnodes : nameNodes c = [m] := by
      unfold nameNodes
      rw [hkind, Bool.true_or, if_pos rfl, hv]
      simp [hm, hidentifier]
    rw [hself]
    unfold declaredNames
    rw [hnodes, List.mapM_cons, textOf_eq_ok (of_decide_eq_true htext)]
    rfl

/-- The default export that is found is a statement of the file. -/
theorem exists_statement_of_defaultExports (hd : f.defaultExports.outcome = .ok [d]) :
    ∃ t ∈ f.statements, isDefaultExport t = true ∧ DefaultExport.ofStatement? t = some d := by
  obtain ⟨hds, -⟩ := defaultExportsOf_eq_ok_iff.mp hd
  obtain ⟨t, ht, hsome⟩ := List.mem_filterMap.mp (hds ▸ List.mem_singleton_self d)
  obtain ⟨hmem, hdefault⟩ := List.mem_filter.mp ht
  exact ⟨t, hmem, hdefault, hsome⟩

/-- What becomes of the statement that is the default export itself. -/
theorem fate?_of_default (hdefault : isDefaultExport t = true)
    (hsome : DefaultExport.ofStatement? t = some d) : f.fate? d name t = match d.form with
      | .identifier => none
      | .declaration => some (.exported d.target.asDeclaration)
      | .expression => some .bound := by
  unfold fate?
  rw [hdefault, hsome]
  rfl

/-- What declares the name of a default export is exported in the described file. -/
theorem Described.exportsName_of_declares (h : f.Described g d name) (hform : d.form = .identifier)
    (ht : t ∈ f.statements) (hdeclares : f.declares name t = .ok true) :
    ∃ t' ∈ g.statements, g.ExportsName name t' := by
  obtain ⟨c, hc⟩ := exists_held_of_declares hdeclares
  have hother := not_default_of_held? hc
  -- It is enough to find a statement that exports what is written like the declaration.
  have hfound : ∀ t' ∈ g.statements, ∀ c', exported? t' = some c' → c.alike f.text g.text c' = true →
      ∃ t' ∈ g.statements, g.ExportsName name t' := by
    intro t' ht' c' hc' halike
    refine ⟨t', ht', c', hc', .inl ?_⟩
    rw [declares_eq_of_held? (held?_of_exported? hc'), ← declaredNames_congr (declared_alike halike),
      ← declares_eq_of_held? hc, hdeclares]
  cases hexport : t.is .exportStatement with
  | false =>
    -- The declaration is exported by the edits.
    have hx : f.fate? d name t = some (.exported t) := by
      simp [fate?, hother, hform, hexport, hdeclares]
    obtain ⟨t', ht', hmet⟩ := h.complete t ht _ hx
    obtain ⟨c', hc', halike⟩ := (Option.any_eq_true _ _).mp hmet
    rw [held?_of_other hexport] at hc
    cases hc
    exact hfound t' ht' c' hc' halike
  | true =>
    -- The declaration was exported before, and its statement stays.
    have hx : f.fate? d name t = some (.kept t) := by simp [fate?, hother, hexport]
    obtain ⟨t', ht', hmet⟩ := h.complete t ht _ hx
    have halike : t.alike f.text g.text t' = true := hmet
    rw [held?_of_export hexport] at hc
    obtain ⟨-, -, hchild⟩ := exported?_eq_some.mp hc
    obtain ⟨c', hchild', hsame⟩ := exists_child?_of_alike halike hchild
    have hexport' : t'.is .exportStatement = true := by
      rw [← hexport]
      simp [Tree.is, alike_kind halike]
    have hother' := (isDefaultExport_of_outline (outline_of_alike halike)).symm.trans hother
    exact hfound t' ht' c' (exported?_eq_some.mpr ⟨hexport', hother', hchild'⟩) hsame

/-- A described file exports a declaration of the name that the default export got. -/
theorem Described.exportsName (h : f.Described g d name) (hd : f.defaultExports.outcome = .ok [d])
    (hedits : NamedExport.edits f d = .ok (name, edits)) : ∃ t' ∈ g.statements, g.ExportsName name t' := by
  obtain ⟨t, ht, hdefault, hsome⟩ := exists_statement_of_defaultExports hd
  have hx : f.fate? d name t = _ := fate?_of_default hdefault hsome
  unfold NamedExport.edits at hedits
  generalize hform : d.form = form at hedits hx
  cases form with
  | identifier =>
    obtain ⟨u, hu, hdeclares⟩ := NamedExport.exists_of_identifierEdits hedits
    exact h.exportsName_of_declares hform hu hdeclares
  | declaration =>
    obtain ⟨m, hm, htext⟩ := NamedExport.exists_of_declarationEdits hedits
    obtain ⟨t', ht', hmet⟩ := h.complete t ht _ hx
    obtain ⟨c', hc', halike⟩ := (Option.any_eq_true _ _).mp hmet
    obtain ⟨m', hm', hname⟩ := exists_child?_of_alike halike ((asDeclaration_child? _ _).trans hm)
    exact ⟨t', ht', c', hc', .inr ⟨m', hm', (textOf_congr (alike_text hname)).symm.trans htext⟩⟩
  | expression =>
    obtain ⟨t', ht', hmet⟩ := h.complete t ht _ hx
    obtain ⟨c', hc', hbound⟩ := (Option.any_eq_true _ _).mp hmet
    refine ⟨t', ht', c', hc', .inl ?_⟩
    rw [declares_eq_of_held? (held?_of_exported? hc'), declaredNames_of_bindsAlone hbound]
    show Except.ok ([name].contains name) = _
    simp

end SourceFile
end Codemod
