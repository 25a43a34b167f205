import Codemod.Proofs.MemberNames

/-!
# Local bindings and their uses

When the mentions of a name are replaced, scopes are not looked at: what binds the same name within the file is
renamed with its uses. So a use keeps its binding where the binding is renamed too, unless a nearer one bears the new
name already. Every form of binding is renamed but one: a part of a value that is taken out under its own name
(`\x7b old \x7d`) goes on binding that name.

Which bindings are in sight of a use is not looked at here either. What is said holds of every row of bindings, the
nearest first.

Main statements:

* `Syntax.kind_of_binding` says which nodes bind names;
* `bindings_follow_their_uses` says which bindings are renamed, and when a use that is renamed keeps its binding.
-/

namespace Codemod

open Syntax Syntax.Tree Pattern Grammar

namespace Syntax

/-! ### Where names are bound -/

/-- How a name is bound. -/
inductive BindingForm where
  /-- A declaration has it as its name. -/
  | declared
  /-- It is what a function or a type takes. -/
  | parameter
  /-- A failure is given it. -/
  | caught
  /-- A repetition gives it to the parts of a value. -/
  | looped
  /-- A part of a value is given it. -/
  | destructured
  /-- A part of a value is taken out under its own name. -/
  | shorthand
  deriving DecidableEq, Repr

namespace BindingForm

/-- Nodes that have a name of their own behind a word. -/
def declaring : List Kind :=
  [.functionDeclaration, .generatorDeclaration, .functionSignature, .functionExpression, .generatorExpression,
    .classDeclaration, .abstractClassDeclaration, .classExpression, .enumDeclaration, .interfaceDeclaration,
    .typeAliasDeclaration, .moduleDeclaration, .internalModule, .importAlias]

/-- The words before the names of what is declared, and the mark of a generator. -/
def introducing : List String :=
  ["function", "*", "class", "enum", "interface", "type", "module", "namespace", "import"]

/-- Whether a name is that of a declaration. A variable begins with its name. -/
def isDeclared (holder : Kind) (before : Option Sight) : Bool :=
  holder = .variableDeclarator && before.isNone ||
    declaring.contains holder && before.any (isSignOf introducing)

/-- Whether a name is a parameter: one of a list of parameters that is no type and no value, one of types that is not
built on, or the only one before an arrow. -/
def isParameter (holder : Kind) (before behind : Option Sight) : Bool :=
  holder = .parameters && !before.any (isSignOf [":", "=", ".", "?."]) ||
    holder = .typeParameters && !before.any (isSignOf ["extends", "=", ".", "?."]) ||
    holder = .expression && before.all (isSignOf ["async"]) && behind.any (isSignOf ["=>"])

/-- Whether a name is given to a part of a value. -/
def isDestructured (holder : Kind) (before : Option Sight) : Bool :=
  holder = .arrayPattern && before.any (isSignOf ["[", ",", "..."]) ||
    holder = .objectPattern && before.any (isSignOf [":", "..."])

/-- Whether a name is that of a part of a value and given to it. -/
def isShorthand (holder : Kind) (before behind : Option Sight) : Bool :=
  holder = .objectPattern && before.any (isSignOf ["\x7b", ","]) && !behind.any (isSignOf [":"])

/-- How a name is bound, by the node that holds it and what is seen beside it. -/
def of? (holder : Kind) (before behind : Option Sight) : Option BindingForm :=
  if isDeclared holder before then some declared
  else if isParameter holder before behind then some parameter
  else if holder = .tryStatement && before.any (isSignOf ["("]) then some caught
  else if holder = .forInStatement && before.any (isSignOf ["var", "let", "const"]) then some looped
  else if isDestructured holder before then some destructured
  else if isShorthand holder before behind then some shorthand
  else none

theorem isShorthand_of_of? {holder : Kind} {before behind : Option Sight}
    (h : of? holder before behind = some shorthand) : isShorthand holder before behind = true := by
  unfold of? at h
  repeat' split at h
  all_goals first | assumption | cases h

/-- What is exported under which name binds nothing. -/
theorem of?_exportSpecifier (before behind : Option Sight) : of? .exportSpecifier before behind = none := by
  simp [of?, isDeclared, isParameter, isDestructured, isShorthand, declaring]

end BindingForm

/-- The kinds of nodes that are words with a meaning: names, and words that stand for a value. -/
def Kind.ofWords : List Kind :=
  [.identifier, .typeIdentifier, .shorthandProperty, .shorthandPattern, .propertyName, .label, .constant]

namespace Ward

/-- Whether a name is one of a kind that only some nodes hold. -/
def isPeculiar (c : Sight) : Bool :=
  [.propertyName, .label, .shorthandProperty, .shorthandPattern].contains c.kind

/-- Outside of nodes whose members have keys, and of statements with labels, such names stand behind dots. -/
def peculiar : Ward where
  holds k := !(Belonging.keyed ++ Belonging.labelling ++ [Kind.markup]).contains k
  name := isPeculiar
  first := false
  opens := isSignOf [".", "?."]
  mark? := none

/-- In the pattern of an object such names begin what is said of a part. -/
def parts : Ward where
  holds := (· = .objectPattern)
  name := isPeculiar
  first := false
  opens := isSignOf ["\x7b", ",", ".", "?."]
  mark? := none

/-- Properties that are written by their values' names stand in objects. -/
def properties : Ward where
  holds := (· ≠ .object)
  name c := c.kind = .shorthandProperty
  first := false
  opens _ := false
  mark? := none

/-- No rule reads a single name of such a kind. -/
def knownPeculiar (_ : Rule) (q : Phase) : Option (List Phase) :=
  if q = .shut then some [.shut] else if q = .opened then some [.opened, .shut] else none

/-- Rows can end with a comma. -/
def knownParts (r : Rule) (q : Phase) : Option (List Phase) :=
  if q = .shut && !(r = .sequence || r = .declarators) then some [.shut]
  else if q = .opened || q = .shut then some [.opened, .shut] else none

theorem peculiar_watches : (peculiar.watch knownPeculiar).WatchesSources :=
  Watch.watchesSources_of_isRight (by decide +kernel)

theorem parts_watches : (parts.watch knownParts).WatchesSources :=
  Watch.watchesSources_of_isRight (by decide +kernel)

theorem properties_watches : (properties.watch knownPeculiar).WatchesSources :=
  Watch.watchesSources_of_isRight (by decide +kernel)

end Ward

namespace BindingForm

variable {holder : Kind} {before behind : Option Sight} {b : BindingForm}

/-- A name that is bound and no shorthand stands behind no dot, in a node without keys, or behind a colon or dots in
the pattern of an object. -/
theorem of?_cases (hb : of? holder before behind = some b) (hshorthand : b ≠ .shorthand) :
    Ward.peculiar.holds holder = true ∧ before.any (isSignOf [".", "?."]) = false ∨
      holder = .objectPattern ∧ before.any (isSignOf [":", "..."]) = true := by
  have hdeclaring : ∀ k ∈ declaring, Ward.peculiar.holds k = true := by decide
  unfold of? at hb
  split at hb
  · rename_i h
    simp only [isDeclared, Bool.or_eq_true, Bool.and_eq_true, decide_eq_true_eq, Option.isNone_iff_eq_none,
      List.contains_iff_mem] at h
    rcases h with ⟨rfl, rfl⟩ | ⟨hholder, hbefore⟩
    · exact .inl ⟨rfl, rfl⟩
    · exact .inl ⟨hdeclaring _ hholder, any_isSignOf_of_disjoint hbefore (by decide)⟩
  split at hb
  · rename_i h
    simp only [isParameter, Bool.or_eq_true, Bool.and_eq_true, decide_eq_true_eq, Bool.not_eq_true'] at h
    rcases h with (⟨rfl, hbefore⟩ | ⟨rfl, hbefore⟩) | ⟨⟨rfl, hbefore⟩, -⟩
    · exact .inl ⟨rfl, any_isSignOf_of_subset hbefore (by simp)⟩
    · exact .inl ⟨rfl, any_isSignOf_of_subset hbefore (by simp)⟩
    · cases before with
      | none => exact .inl ⟨rfl, rfl⟩
      | some c => exact .inl ⟨rfl, any_isSignOf_of_disjoint (l := ["async"]) hbefore (by decide)⟩
  split at hb
  · rename_i h
    simp only [Bool.and_eq_true, decide_eq_true_eq] at h
    obtain ⟨rfl, hbefore⟩ := h
    exact .inl ⟨rfl, any_isSignOf_of_disjoint hbefore (by decide)⟩
  split at hb
  · rename_i h
    simp only [Bool.and_eq_true, decide_eq_true_eq] at h
    obtain ⟨rfl, hbefore⟩ := h
    exact .inl ⟨rfl, any_isSignOf_of_disjoint hbefore (by decide)⟩
  split at hb
  · rename_i h
    simp only [isDestructured, Bool.or_eq_true, Bool.and_eq_true, decide_eq_true_eq] at h
    rcases h with ⟨rfl, hbefore⟩ | ⟨rfl, hbefore⟩
    · exact .inl ⟨rfl, any_isSignOf_of_disjoint hbefore (by decide)⟩
    · exact .inr ⟨rfl, hbefore⟩
  split at hb
  · cases hb
    exact absurd rfl hshorthand
  · cases hb

end BindingForm

section

variable {f : SourceFile} {t holder : Tree} {rest : List Tree} {b : BindingForm}
  (ho : (t, holder :: rest) ∈ f.tree.occurrences []) (hpos : t.start < t.stop)

include ho hpos

/-- A word in the place of a binding that is no shorthand can be a mention, or stands for a value. -/
theorem kind_of_binding (hword : t.kind ∈ Kind.ofWords) (hshorthand : b ≠ .shorthand)
    (hb : BindingForm.of? holder.kind (seenBefore f.text holder t) (seenBehind f.text holder t) = some b) :
    t.kind = .identifier ∨ t.kind = .typeIdentifier ∨ t.kind = .constant := by
  have hkind : t.kind ≠ .comment ∧ t.kind ≠ .symbol :=
    ⟨fun h => absurd (h ▸ hword) (by decide), fun h => absurd (h ▸ hword) (by decide)⟩
  have hplain : Ward.isPeculiar (t.sight f.text) = false := by
    refine Bool.eq_false_iff.mpr fun hpeculiar => ?_
    rcases BindingForm.of?_cases hb hshorthand with ⟨hholder, hdot⟩ | ⟨hholder, hbefore⟩
    · have hlets := Ward.any_of_lets rfl (SourceFile.lets Ward.peculiar_watches rfl ho hpos hholder hkind hpeculiar)
      exact Bool.noConfusion (hdot.symm.trans hlets)
    · have hlets := Ward.any_of_lets rfl
        (SourceFile.lets Ward.parts_watches rfl ho hpos (decide_eq_true hholder) hkind hpeculiar)
      exact Bool.noConfusion ((any_isSignOf_of_disjoint hbefore (by decide)).symm.trans hlets)
  simp only [Ward.isPeculiar, sight] at hplain
  generalize t.kind = k at hword hplain
  revert hword hplain
  cases k <;> decide

/-- The name of a part that is taken out under its own name is no mention. -/
theorem kind_of_shorthand
    (hb : BindingForm.isShorthand holder.kind (seenBefore f.text holder t) (seenBehind f.text holder t) = true) :
    t.kind ∉ Kind.ofNames := by
  simp only [BindingForm.isShorthand, Bool.and_eq_true, decide_eq_true_eq, Bool.not_eq_true'] at hb
  obtain ⟨⟨hholder, hbefore⟩, -⟩ := hb
  intro hname
  have hproperty : t.kind ≠ .shorthandProperty := fun hkind => by
    have hlets := SourceFile.lets Ward.properties_watches rfl ho hpos (by rw [hholder]; rfl)
      (by rw [hkind]; decide) (decide_eq_true hkind)
    cases hseen : seenBefore f.text holder t <;> rw [hseen] at hlets <;> cases hlets
  have hkind : t.kind = .identifier ∨ t.kind = .typeIdentifier := by
    rcases mem_ofNames.mp hname with hkind | hkind | hkind
    · exact .inl hkind
    · exact .inr hkind
    · exact absurd hkind hproperty
  have hkey := behind_key ho hpos (by rw [hholder]; rfl) hkind
  exact Bool.noConfusion ((any_isSignOf_of_disjoint hbefore (by decide)).symm.trans hkey)

end

end Syntax

namespace SourceFile

/-- How a word of a file binds a name, if it does. -/
def binding? (f : SourceFile) (o : Tree × List Tree) : Option BindingForm :=
  match o.2 with
  | [] => none
  | holder :: _ => BindingForm.of? holder.kind (seenBefore f.text holder o.1) (seenBehind f.text holder o.1)

/-- A word of a file that binds a name. -/
structure Binds (f : SourceFile) (o : Tree × List Tree) (b : BindingForm) : Prop where
  occurs : o ∈ f.tree.occurrences []
  leaf : o.1.children = []
  covers : o.1.start < o.1.stop
  word : o.1.kind ∈ Kind.ofWords
  bound : f.binding? o = some b

/-- Whether what binds a name is renamed with it: it is no part of a value that is taken out under its own name, no word
that stands for a value, and stands outside of the imports. -/
def IsRenamed (f : SourceFile) (o : Tree × List Tree) (b : BindingForm) : Prop :=
  b ≠ .shorthand ∧ o.1.kind ≠ .constant ∧ (f.imports.map (·.statement)).any (·.encloses o.1) = false

/-- What is written in the place of a node after some edits. -/
def writtenAfter (f : SourceFile) (edits : List Edit) (t : Tree) : Bytes :=
  match edits.find? fun e => e.start = t.start && e.stop = t.stop with
  | some e => Bytes.ofString e.text
  | none => t.text f.text

end SourceFile

namespace NamedImport

variable {f : SourceFile} {old new : String} {o : Tree × List Tree} {p : Patch} {b : BindingForm}

/-- What binds the name that is replaced is a mention just if it is renamed, and then it binds the new name. -/
theorem mention?_of_binds (new : String) (h : f.Binds o b) (htext : o.1.text f.text = Bytes.ofString old) :
    (f.IsRenamed o b → mention? f old new o = some ⟨o.1.start, o.1.stop, Bytes.ofString new⟩) ∧
      (¬ f.IsRenamed o b → mention? f old new o = none) := by
  obtain ⟨t, above⟩ := o
  obtain ⟨ho, hleaf, hpos, hword, hbound⟩ := h
  match above, ho, hbound with
  | holder :: rest, ho, hbound =>
    have hholder : holder.is .exportSpecifier = false := by
      refine decide_eq_false fun hholder => ?_
      have hnone := BindingForm.of?_exportSpecifier (seenBefore f.text holder t) (seenBehind f.text holder t)
      rw [← hholder] at hnone
      cases hnone.symm.trans hbound
    have hsome := mention?_isSome_iff new rest (fun _ => hholder) htext
    refine ⟨fun ⟨hshorthand, hconstant, hout⟩ => ?_, fun hnot => ?_⟩
    · have hkind : t.kind = .identifier ∨ t.kind = .typeIdentifier := by
        rcases kind_of_binding ho hpos hword hshorthand hbound with hkind | hkind | hkind
        · exact .inl hkind
        · exact .inr hkind
        · exact absurd hkind hconstant
      obtain ⟨p, hp⟩ := Option.isSome_iff_exists.mp
        (hsome.mpr ⟨mem_ofNames.mpr (hkind.imp_right .inl), hout⟩)
      obtain ⟨-, -, hstart, hstop, hbytes⟩ := mention?_eq_some hp
      have hstanding : Standing.ofName t (holder :: rest) = .plain := by
        have hproperty : t.is .shorthandProperty = false := by rcases hkind with h | h <;> simp [Tree.is, h]
        simp [Standing.ofName, hproperty, hholder]
      rw [hstanding] at hbytes
      rw [hp, ← hstart, ← hstop, Option.some.inj hbytes]
    · refine Option.not_isSome_iff_eq_none.mp fun h => ?_
      obtain ⟨hname, hout⟩ := hsome.mp h
      refine hnot ⟨?_, fun hconstant => ?_, hout⟩
      · rintro rfl
        exact kind_of_shorthand ho hpos (BindingForm.isShorthand_of_of? hbound) hname
      · have hconstant : t.kind = .constant := hconstant
        rw [hconstant] at hname
        exact absurd hname (by decide)

/-- What is written in the place of a leaf when the mentions of a name are replaced. -/
theorem writtenAfter_eq (ho : o ∈ f.tree.occurrences []) (hleaf : o.1.children = []) (hpos : o.1.start < o.1.stop) :
    f.writtenAfter (referenceEdits f old new) o.1 =
      ((mention? f old new o).map (·.bytes)).getD (o.1.text f.text) := by
  unfold SourceFile.writtenAfter
  split
  · rename_i e he
    have hmem := List.mem_of_find?_eq_some he
    have hspan : e.start = o.1.start ∧ e.stop = o.1.stop := by simpa using List.find?_some he
    obtain ⟨o', ho', hp⟩ := (exists_edit_iff f old new e.patch).mp ⟨e, hmem, rfl⟩
    obtain ⟨hname, -, hstart, hstop, -⟩ := mention?_eq_some hp
    have hstart : e.start = o'.1.start := hstart
    have hstop : e.stop = o'.1.stop := hstop
    rcases leaves_apart ho ho' hleaf ((parse_namesBare f.dialect f.text).leaf ho' hname) with rfl | hapart
    · rw [hp]
      rfl
    · omega
  · rename_i hnone
    cases hp : mention? f old new o with
    | none => rfl
    | some p =>
      obtain ⟨e, he, rfl⟩ := (exists_edit_iff f old new p).mpr ⟨o, ho, hp⟩
      obtain ⟨-, -, hstart, hstop, -⟩ := mention?_eq_some hp
      have hstart : e.start = o.1.start := hstart
      have hstop : e.stop = o.1.stop := hstop
      exact absurd (List.find?_eq_none.mp hnone e he) (by simp [hstart, hstop])

/-- A leaf with another text keeps it. -/
theorem writtenAfter_of_ne (h : f.Binds o b) (htext : o.1.text f.text ≠ Bytes.ofString old) :
    f.writtenAfter (referenceEdits f old new) o.1 = o.1.text f.text := by
  rw [writtenAfter_eq h.occurs h.leaf h.covers]
  cases hp : mention? f old new o with
  | none => rfl
  | some p => exact absurd (mention?_eq_some hp).2.1 htext

/-- What binds the name that is replaced binds the new name just if it is renamed. -/
theorem writtenAfter_eq_new_iff (h : f.Binds o b) (htext : o.1.text f.text = Bytes.ofString old) :
    f.writtenAfter (referenceEdits f old new) o.1 = Bytes.ofString new ↔ old = new ∨ f.IsRenamed o b := by
  obtain ⟨hrenamed, hkept⟩ := mention?_of_binds new h htext
  rw [writtenAfter_eq h.occurs h.leaf h.covers]
  by_cases hself : f.IsRenamed o b
  · simp [hrenamed hself, hself]
  · simp only [hkept hself, hself, Option.map_none, Option.getD_none, htext, or_false]
    exact ⟨fun heq => Bytes.ofString_injective heq, fun heq => congrArg Bytes.ofString heq⟩

end NamedImport

open NamedImport

/-- Whether a name refers to something that bears it, past nearer things that do not. -/
def RefersTo {α : Type} (bears : α → Bytes) (name : Bytes) (nearer : List α) (o : α) : Prop :=
  bears o = name ∧ ∀ o' ∈ nearer, bears o' ≠ name

instance {α : Type} (bears : α → Bytes) (name : Bytes) (nearer : List α) (o : α) :
    Decidable (RefersTo bears name nearer o) :=
  inferInstanceAs (Decidable (_ ∧ _))

/-- When the mentions of a name are replaced, the binding that a use of the name refers to is made to bind the new name
just if it is no part of a value that is taken out under its own name; that one is not touched. So the use, being
renamed, refers to the same binding as before if and only if the binding is renamed and no nearer one bears the new
name. -/
theorem bindings_follow_their_uses (f : SourceFile) (old new : String) (o : Tree × List Tree) (b : BindingForm)
    (nearer : List (Tree × List Tree)) (ho : f.Binds o b) (hnearer : ∀ o' ∈ nearer, ∃ b', f.Binds o' b')
    (hrefers : RefersTo (fun o => o.1.text f.text) (Bytes.ofString old) nearer o) :
    ((∃ e ∈ referenceEdits f old new, e.start = o.1.start ∧ e.stop = o.1.stop ∧ e.text = new) ↔ f.IsRenamed o b) ∧
      ((∃ e ∈ referenceEdits f old new, e.start < o.1.stop ∧ o.1.start < e.stop) ↔ f.IsRenamed o b) ∧
      (RefersTo (fun o => f.writtenAfter (referenceEdits f old new) o.1) (Bytes.ofString new) nearer o ↔
        old = new ∨ f.IsRenamed o b ∧ ∀ o' ∈ nearer, o'.1.text f.text ≠ Bytes.ofString new) := by
  obtain ⟨htext, hfarther⟩ := hrefers
  obtain ⟨hrenamed, hkept⟩ := mention?_of_binds new ho htext
  have hsome : (mention? f old new o).isSome = true ↔ f.IsRenamed o b := by
    by_cases h : f.IsRenamed o b
    · simp [hrenamed h, h]
    · simp [hkept h, h]
  have htouched := (touched_iff new ho.occurs ho.leaf ho.covers).trans hsome
  refine ⟨⟨?_, fun h => ?_⟩, htouched, ?_⟩
  · rintro ⟨e, he, hstart, hstop, -⟩
    have := ho.covers
    exact htouched.mp ⟨e, he, by omega, by omega⟩
  · obtain ⟨e, he, hpatch⟩ := (exists_edit_iff f old new _).mpr ⟨o, ho.occurs, hrenamed h⟩
    obtain ⟨hstart, hstop, hbytes⟩ := Patch.mk.inj hpatch
    exact ⟨e, he, hstart, hstop, Bytes.ofString_injective hbytes⟩
  · have hnear : (∀ o' ∈ nearer, f.writtenAfter (referenceEdits f old new) o'.1 ≠ Bytes.ofString new) ↔
        ∀ o' ∈ nearer, o'.1.text f.text ≠ Bytes.ofString new := by
      refine forall₂_congr fun o' ho' => ?_
      obtain ⟨b', hb'⟩ := hnearer o' ho'
      rw [writtenAfter_of_ne hb' (hfarther o' ho')]
    unfold RefersTo
    rw [writtenAfter_eq_new_iff ho htext, hnear]
    constructor
    · rintro ⟨hsame | hself, hothers⟩
      · exact .inl hsame
      · exact .inr ⟨hself, hothers⟩
    · rintro (rfl | ⟨hself, hothers⟩)
      · exact ⟨.inl rfl, hfarther⟩
      · exact ⟨.inr hself, hothers⟩

/-- A module whose function takes something under the name of an import. -/
def shadowingModule : SourceFile :=
  ⟨samplePath "m.ts", .typescript, Bytes.ofString ("import a from \"./a\";\nfunction f(a) \x7b\n  let c = 1;\n" ++
    "  return a + c;\n\x7d\n"), false⟩

/-- The parameter is renamed with its uses, past a nearer binding of another name. -/
theorem shadowingModule_binding_follows : ∃ a c, shadowingModule.Binds a .parameter ∧ shadowingModule.Binds c .declared ∧
    RefersTo (fun o => o.1.text shadowingModule.text) (Bytes.ofString "a") [c] a ∧
    RefersTo (fun o => shadowingModule.writtenAfter (referenceEdits shadowingModule "a" "b") o.1)
      (Bytes.ofString "b") [c] a := by
  obtain ⟨a, ha, hleaf, hcovers, hword, hbound, htext, hout⟩ : ∃ o ∈ shadowingModule.tree.occurrences [],
      o.1.children = [] ∧ o.1.start < o.1.stop ∧ o.1.kind ∈ Kind.ofWords ∧
      shadowingModule.binding? o = some .parameter ∧ o.1.text shadowingModule.text = Bytes.ofString "a" ∧
      o.1.kind ≠ .constant ∧ (shadowingModule.imports.map (·.statement)).any (·.encloses o.1) = false := by
    decide +kernel
  obtain ⟨c, hc, hleaf', hcovers', hword', hbound', htext'⟩ : ∃ o ∈ shadowingModule.tree.occurrences [],
      o.1.children = [] ∧ o.1.start < o.1.stop ∧ o.1.kind ∈ Kind.ofWords ∧
      shadowingModule.binding? o = some .declared ∧ o.1.text shadowingModule.text = Bytes.ofString "c" := by
    decide +kernel
  have hbinds : shadowingModule.Binds a .parameter := ⟨ha, hleaf, hcovers, hword, hbound⟩
  have hbinds' : shadowingModule.Binds c .declared := ⟨hc, hleaf', hcovers', hword', hbound'⟩
  have hrefers : RefersTo (fun o => o.1.text shadowingModule.text) (Bytes.ofString "a") [c] a :=
    ⟨htext, List.forall_mem_singleton.mpr fun h => absurd (htext'.symm.trans h) (by decide +kernel)⟩
  refine ⟨a, c, hbinds, hbinds', hrefers, ?_⟩
  exact (bindings_follow_their_uses shadowingModule "a" "b" a .parameter [c] hbinds
    (List.forall_mem_singleton.mpr ⟨_, hbinds'⟩) hrefers).2.2.mpr
      (.inr ⟨⟨by decide, hout⟩, List.forall_mem_singleton.mpr (htext' ▸ by decide +kernel)⟩)

/-- A module whose function takes a part of a value out under the name of an import. -/
def takingModule : SourceFile :=
  ⟨samplePath "m.ts", .typescript,
    Bytes.ofString "import Bar from \"./foo\";\nfunction f(\x7b Bar \x7d) \x7b return Bar; \x7d\n", false⟩

/-- The use of what is taken out is renamed, and what binds it is not touched: the use refers to it no more. -/
theorem shorthand_binding_left_behind : ∃ o ∈ takingModule.tree.occurrences [],
    takingModule.binding? o = some .shorthand ∧
    (∃ u ∈ takingModule.tree.occurrences [], u.1.text takingModule.text = Bytes.ofString "Bar" ∧
      takingModule.writtenAfter (referenceEdits takingModule "Bar" "Foo") u.1 = Bytes.ofString "Foo") ∧
    (∀ e ∈ referenceEdits takingModule "Bar" "Foo", ¬ (e.start < o.1.stop ∧ o.1.start < e.stop)) ∧
    RefersTo (fun o => o.1.text takingModule.text) (Bytes.ofString "Bar") [] o ∧
    ¬ RefersTo (fun o => takingModule.writtenAfter (referenceEdits takingModule "Bar" "Foo") o.1)
      (Bytes.ofString "Foo") [] o := by
  decide +kernel

end Codemod
