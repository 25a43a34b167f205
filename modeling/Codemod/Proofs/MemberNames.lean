import Codemod.Proofs.Mentions
import Codemod.Proofs.Wards

/-!
# Names of members

A name can be written where it names a part of something else: the member behind a dot, the key of a property, the
attribute of an element, a label. Nothing that is bound in the file is meant there. Where such names stand shows in what
stands beside them, and mostly their nodes are of kinds that mentions never are. Three forms are an exception: the
last part of the name of a type, a name in a space of names in markup, and the name of a member of a tuple.

Main statements:

* `Syntax.Belonging.isMistaken_iff` says which of the names of members are nodes that mentions can be;
* `NamedImport.touched_iff` says that an edit touches a leaf just if the leaf is a mention;
* `members_mentioned_iff` says which names of members are replaced when the mentions of a name are.
-/

namespace Codemod

open Syntax Syntax.Tree Pattern Grammar

namespace Syntax

/-! ### Where members are named -/

/-- What a name belongs to that means nothing bound in the file. -/
inductive Belonging where
  /-- It is a part of a qualified name, and not the first one. -/
  | part
  /-- It is the key of a property that is written out. -/
  | key
  /-- It is an attribute of an element, or a part of one. -/
  | trait
  /-- It labels a statement or a member of a tuple. -/
  | label
  deriving DecidableEq, Repr

namespace Belonging

/-- Nodes whose members have keys. -/
def keyed : List Kind := [.object, .objectPattern, .classBody, .enumBody, .objectType]

/-- Statements that hold labels. -/
def labelling : List Kind := [.labeledStatement, .breakStatement, .continueStatement]

/-- Whether what stands behind something is a part of a qualified name, by a dot or, in markup, by a colon. -/
def isPart (holder : Kind) (before : Option Sight) : Bool :=
  before.any (isSignOf [".", "?."]) || holder = .qualifiedName && before.any (isSignOf [":"])

/-- Whether a name of a kind is a key that is written out: it stands behind no mark or word that a value, a type or
a variable stands behind. -/
def isKey (holder own : Kind) (before : Option Sight) : Bool :=
  keyed.contains holder && own != .shorthandProperty && own != .shorthandPattern &&
    !before.any (isSignOf [":", "=", "[", "...", "in", "as"])

/-- Whether a name in markup is an attribute, which a tag and an expression are not. -/
def isTrait (holder : Kind) (before : Option Sight) : Bool :=
  holder = .markup && !before.any (isSignOf ["<", "/", "\x7b", "..."])

/-- Whether a name of a kind is a label: of a statement, or of a member of a tuple type, before its type. -/
def isLabel (holder own : Kind) (behind : Option Sight) : Bool :=
  labelling.contains holder || holder = .type && own = .identifier && behind.any (isSignOf [":", "?"])

/-- What a name of a kind belongs to, by the node that holds it and what is seen beside it. -/
def of? (holder own : Kind) (before behind : Option Sight) : Option Belonging :=
  if isPart holder before then some part
  else if isKey holder own before then some key
  else if isTrait holder before then some trait
  else if isLabel holder own behind then some label
  else none

/-- Whether the name of a member is taken for a mention. -/
def isMistaken (holder own : Kind) (before behind : Option Sight) : Belonging → Bool
  | part => own = .typeIdentifier || own = .identifier && before.any (isSignOf [":"])
  | key => false
  | trait => own = .identifier && (before.any (isSignOf [":"]) || behind.any (isSignOf [":"]))
  | label => holder = .type

end Belonging

namespace Ward

/-- Behind a dot stands no name of a value. -/
def dots : Ward where
  holds _ := true
  name c := c.kind = .identifier || c.kind = .shorthandProperty
  first := true
  opens c := !isSignOf [".", "?."] c
  mark? := none

/-- Names that are no keys stand behind certain marks and words. -/
def keys : Ward where
  holds := Belonging.keyed.contains
  name c := c.kind = .identifier || c.kind = .typeIdentifier
  first := false
  opens := isSignOf [":", "=", "[", "...", "in", "as"]
  mark? := none

/-- The names of values in markup are tags, expressions, and the names in spaces of names. -/
def attributes : Ward where
  holds := (· = .markup)
  name c := c.kind = .identifier
  first := false
  opens := isSignOf ["<", "/", "\x7b", "...", ":"]
  mark? := some (Bytes.ofString ":")

/-- Other names in markup stand in tags and expressions. -/
def embedded : Ward where
  holds := (· = .markup)
  name c := c.kind = .typeIdentifier || c.kind = .shorthandProperty
  first := false
  opens := isSignOf ["<", "/", "\x7b", "..."]
  mark? := none

/-- Labels are no names of values or types. -/
def labels : Ward where
  holds := Belonging.labelling.contains
  name c := Kind.ofNames.contains c.kind
  first := false
  opens _ := false
  mark? := none

/-- In qualified names and in specifiers all names are names of values. -/
def values : Ward where
  holds k := k = .qualifiedName || k = .exportSpecifier
  name c := c.kind = .typeIdentifier || c.kind = .shorthandProperty
  first := false
  opens _ := false
  mark? := none

/-- Nothing that a rule reads ends with a dot. -/
def knownDots (_ : Rule) (q : Phase) : Option (List Phase) :=
  if q = .opened then some [.opened] else none

/-- What a signature ends with may be a colon and a type. -/
def knownKeys (r : Rule) (q : Phase) : Option (List Phase) :=
  if r = .signature && (q = .opened || q = .shut) then some [.opened, .shut] else none

/-- No rule is a name that stands behind a label. -/
def knownLabels (r : Rule) (q : Phase) : Option (List Phase) :=
  if (r = .statement || r = .declaration) && q = .shut then some [.shut] else none

/-- Nothing more is known of the rules. -/
def knownNothing (_ : Rule) (_ : Phase) : Option (List Phase) := none

/-- The wards, each with what is known of the rules. -/
def known : List (Ward × (Rule → Phase → Option (List Phase))) :=
  [(dots, knownDots), (keys, knownKeys), (attributes, knownNothing), (embedded, knownNothing), (labels, knownLabels),
    (values, knownNothing)]

/-- The grammar keeps to them all. -/
theorem known_watches : ∀ p ∈ known, (p.1.watch p.2).WatchesSources := by
  have hright : ∀ p ∈ known, (p.1.watch p.2).isRight = true := by
    -- Each ward is checked on its own, as a check of the whole grammar takes long.
    simp only [known, List.forall_mem_cons]
    exact ⟨by decide +kernel, by decide +kernel, by decide +kernel, by decide +kernel, by decide +kernel,
      by decide +kernel, by simp⟩
  exact fun p hp => Watch.watchesSources_of_isRight (hright p hp)

theorem dots_watches : (dots.watch knownDots).WatchesSources :=
  known_watches (dots, knownDots) (by simp [known])

theorem keys_watches : (keys.watch knownKeys).WatchesSources :=
  known_watches (keys, knownKeys) (by simp [known])

theorem attributes_watches : (attributes.watch knownNothing).WatchesSources :=
  known_watches (attributes, knownNothing) (by simp [known])

theorem embedded_watches : (embedded.watch knownNothing).WatchesSources :=
  known_watches (embedded, knownNothing) (by simp [known])

theorem labels_watches : (labels.watch knownLabels).WatchesSources :=
  known_watches (labels, knownLabels) (by simp [known])

theorem values_watches : (values.watch knownNothing).WatchesSources :=
  known_watches (values, knownNothing) (by simp [known])

end Ward

variable {f : SourceFile} {t holder : Tree} {rest : List Tree} {m : Belonging}

theorem mem_ofNames {k : Kind} : k ∈ Kind.ofNames ↔ k = .identifier ∨ k = .typeIdentifier ∨ k = .shorthandProperty := by
  simp [Kind.ofNames]

section

variable (ho : (t, holder :: rest) ∈ f.tree.occurrences []) (hpos : t.start < t.stop)

include ho hpos

theorem not_behind_dot (hkind : t.kind = .identifier ∨ t.kind = .shorthandProperty) :
    (seenBefore f.text holder t).any (isSignOf [".", "?."]) = false := by
  have hlets := SourceFile.lets Ward.dots_watches rfl ho hpos rfl (by rcases hkind with h | h <;> rw [h] <;> decide)
    (by rcases hkind with h | h <;> simp [Ward.dots, sight, h])
  cases hbefore : seenBefore f.text holder t with
  | none => rfl
  | some c =>
    rw [hbefore] at hlets
    simpa [Ward.dots, Ward.lets] using hlets

theorem behind_key (hholder : Belonging.keyed.contains holder.kind = true)
    (hkind : t.kind = .identifier ∨ t.kind = .typeIdentifier) :
    (seenBefore f.text holder t).any (isSignOf [":", "=", "[", "...", "in", "as"]) = true :=
  Ward.any_of_lets rfl (SourceFile.lets Ward.keys_watches rfl ho hpos hholder
    (by rcases hkind with h | h <;> rw [h] <;> decide) (by rcases hkind with h | h <;> simp [Ward.keys, sight, h]))

theorem in_markup (hholder : holder.kind = .markup) (hkind : t.kind = .identifier) :
    (seenBefore f.text holder t).any (isSignOf (["<", "/", "\x7b", "..."] ++ [":"])) = true ∨
      (seenBehind f.text holder t).any (isSignOf [":"]) = true := by
  rcases SourceFile.stands Ward.attributes_watches ho hpos (decide_eq_true hholder) (by rw [hkind]; decide)
    (decide_eq_true hkind) with hlets | ⟨m, hm, hbehind⟩
  · exact .inl (Ward.any_of_lets rfl hlets)
  · cases hm
    rw [hbehind]
    exact .inr (by decide +kernel)

theorem in_markup_other (hholder : holder.kind = .markup)
    (hkind : t.kind = .typeIdentifier ∨ t.kind = .shorthandProperty) :
    (seenBefore f.text holder t).any (isSignOf ["<", "/", "\x7b", "..."]) = true :=
  Ward.any_of_lets rfl (SourceFile.lets Ward.embedded_watches rfl ho hpos (decide_eq_true hholder)
    (by rcases hkind with h | h <;> rw [h] <;> decide)
    (by rcases hkind with h | h <;> simp [Ward.embedded, sight, h]))

theorem not_label (hholder : Belonging.labelling.contains holder.kind = true) : t.kind ∉ Kind.ofNames := by
  intro hmem
  have hlets := SourceFile.lets Ward.labels_watches rfl ho hpos hholder
    ⟨fun h => absurd (h ▸ hmem) (by decide), fun h => absurd (h ▸ hmem) (by decide)⟩ (List.contains_iff_mem.mpr hmem)
  cases hbefore : seenBefore f.text holder t <;> rw [hbefore] at hlets <;> cases hlets

theorem name_of_value (hholder : holder.kind = .qualifiedName ∨ holder.kind = .exportSpecifier) :
    t.kind ≠ .typeIdentifier ∧ t.kind ≠ .shorthandProperty := by
  have hno : ¬ (t.kind = .typeIdentifier ∨ t.kind = .shorthandProperty) := fun hkind => by
    have hlets := SourceFile.lets Ward.values_watches rfl ho hpos
      (by rcases hholder with h | h <;> simp [Ward.values, h])
      (by rcases hkind with h | h <;> rw [h] <;> decide)
      (by rcases hkind with h | h <;> simp [Ward.values, sight, h])
    cases hbefore : seenBefore f.text holder t <;> rw [hbefore] at hlets <;> cases hlets
  exact not_or.mp hno

/-- A part of a qualified name that can be a mention ends the name of a type, or stands in a space of names. -/
theorem kind_of_part (hpart : Belonging.isPart holder.kind (seenBefore f.text holder t) = true)
    (hname : t.kind ∈ Kind.ofNames) : t.kind = .typeIdentifier ∨
      t.kind = .identifier ∧ (seenBefore f.text holder t).any (isSignOf [":"]) = true := by
  simp only [Belonging.isPart, Bool.or_eq_true, Bool.and_eq_true, decide_eq_true_eq] at hpart
  have hdot : (t.kind = .identifier ∨ t.kind = .shorthandProperty) →
      holder.kind = .qualifiedName ∧ (seenBefore f.text holder t).any (isSignOf [":"]) = true := fun hkind => by
    rw [not_behind_dot ho hpos hkind] at hpart
    exact hpart.resolve_left Bool.false_ne_true
  rcases mem_ofNames.mp hname with hkind | hkind | hkind
  · exact .inr ⟨hkind, (hdot (.inl hkind)).2⟩
  · exact .inl hkind
  · exact absurd hkind (name_of_value ho hpos (.inl (hdot (.inr hkind)).1)).2

/-- A key that is written out is no mention. -/
theorem kind_of_key (hkey : Belonging.isKey holder.kind t.kind (seenBefore f.text holder t) = true) :
    t.kind ∉ Kind.ofNames := by
  simp only [Belonging.isKey, Bool.and_eq_true, bne_iff_ne, ne_eq, Bool.not_eq_true'] at hkey
  obtain ⟨⟨⟨hholder, hshorthand⟩, -⟩, hbefore⟩ := hkey
  intro hname
  have hkind : t.kind = .identifier ∨ t.kind = .typeIdentifier := by
    rcases mem_ofNames.mp hname with hkind | hkind | hkind
    · exact .inl hkind
    · exact .inr hkind
    · exact absurd hkind hshorthand
  rw [behind_key ho hpos hholder hkind] at hbefore
  cases hbefore

/-- An attribute that can be a mention stands in a space of names, or is one. -/
theorem kind_of_trait (htrait : Belonging.isTrait holder.kind (seenBefore f.text holder t) = true)
    (hname : t.kind ∈ Kind.ofNames) : t.kind = .identifier ∧
      ((seenBefore f.text holder t).any (isSignOf [":"]) = true ∨
        (seenBehind f.text holder t).any (isSignOf [":"]) = true) := by
  simp only [Belonging.isTrait, Bool.and_eq_true, decide_eq_true_eq, Bool.not_eq_true'] at htrait
  obtain ⟨hholder, hbefore⟩ := htrait
  have hother : ¬ (t.kind = .typeIdentifier ∨ t.kind = .shorthandProperty) := fun hkind => by
    rw [in_markup_other ho hpos hholder hkind] at hbefore
    cases hbefore
  have hkind : t.kind = .identifier := (mem_ofNames.mp hname).resolve_right hother
  refine ⟨hkind, (in_markup ho hpos hholder hkind).imp_left fun hany => ?_⟩
  cases hseen : seenBefore f.text holder t with
  | none =>
    rw [hseen] at hany
    cases hany
  | some c =>
    rw [hseen, Option.any_some] at hany hbefore
    rwa [isSignOf_append, hbefore, Bool.false_or] at hany

/-- A label that can be a mention is one of a member of a tuple. -/
theorem kind_of_label (hlabel : Belonging.isLabel holder.kind t.kind (seenBehind f.text holder t) = true) :
    t.kind ∈ Kind.ofNames ↔ holder.kind = .type := by
  simp only [Belonging.isLabel, Bool.or_eq_true, Bool.and_eq_true, decide_eq_true_eq] at hlabel
  rcases hlabel with hholder | ⟨⟨hholder, hkind⟩, -⟩
  · refine ⟨fun hname => absurd hname (not_label ho hpos hholder), fun h => ?_⟩
    rw [h] at hholder
    cases hholder
  · exact ⟨fun _ => hholder, fun _ => mem_ofNames.mpr (.inl hkind)⟩

/-- A name of a member that can be a mention stands in no specifier. -/
theorem not_in_specifier
    (hm : Belonging.of? holder.kind t.kind (seenBefore f.text holder t) (seenBehind f.text holder t) = some m)
    (hname : t.kind ∈ Kind.ofNames) : holder.is .exportSpecifier = false := by
  refine decide_eq_false fun hholder => ?_
  have hvalue := name_of_value ho hpos (.inr hholder)
  have hdot := not_behind_dot ho hpos (by
    rcases mem_ofNames.mp hname with hkind | hkind | hkind
    · exact .inl hkind
    · exact absurd hkind hvalue.1
    · exact .inr hkind)
  rw [hholder] at hm
  simp [Belonging.of?, Belonging.isPart, Belonging.isKey, Belonging.isTrait, Belonging.isLabel, Belonging.keyed,
    Belonging.labelling, hdot] at hm

/-- Of the names of members, those that can be mentions are the ones that are mistaken. -/
theorem Belonging.isMistaken_iff
    (hm : Belonging.of? holder.kind t.kind (seenBefore f.text holder t) (seenBehind f.text holder t) = some m) :
    t.kind ∈ Kind.ofNames ↔ m.isMistaken holder.kind t.kind (seenBefore f.text holder t)
      (seenBehind f.text holder t) = true := by
  unfold Belonging.of? at hm
  split at hm
  case isTrue hpart =>
    cases hm
    simp only [isMistaken, Bool.or_eq_true, Bool.and_eq_true, decide_eq_true_eq]
    refine ⟨kind_of_part ho hpos hpart, fun h => mem_ofNames.mpr ?_⟩
    exact h.elim (fun hkind => .inr (.inl hkind)) fun hkind => .inl hkind.1
  split at hm
  case isTrue hkey =>
    cases hm
    simp [isMistaken, kind_of_key ho hpos hkey]
  split at hm
  case isTrue htrait =>
    cases hm
    simp only [isMistaken, Bool.and_eq_true, Bool.or_eq_true, decide_eq_true_eq]
    exact ⟨kind_of_trait ho hpos htrait, fun h => mem_ofNames.mpr (.inl h.1)⟩
  split at hm
  case isTrue hlabel =>
    cases hm
    simp only [isMistaken, decide_eq_true_eq]
    exact kind_of_label ho hpos hlabel
  case isFalse => cases hm

end

end Syntax

namespace NamedImport

variable {f : SourceFile} {old new : String} {o : Tree × List Tree} {p : Patch}

/-- The edits touch a leaf just if it is a mention. -/
theorem touched_iff (new : String) (ho : o ∈ f.tree.occurrences []) (hleaf : o.1.children = [])
    (hpos : o.1.start < o.1.stop) :
    (∃ e ∈ referenceEdits f old new, e.start < o.1.stop ∧ o.1.start < e.stop) ↔
      (mention? f old new o).isSome = true := by
  have hbare := parse_namesBare f.dialect f.text
  constructor
  · rintro ⟨e, he, hstart, hstop⟩
    obtain ⟨o', ho', hp⟩ := (exists_edit_iff f old new e.patch).mp ⟨e, he, rfl⟩
    obtain ⟨hname, -, hstart', hstop', -⟩ := mention?_eq_some hp
    -- Another leaf lies apart, so that it is this one which the edit replaces.
    rcases leaves_apart ho ho' hleaf (hbare.leaf ho' hname) with rfl | hapart | hapart
    · exact Option.isSome_iff_exists.mpr ⟨_, hp⟩
    · exact absurd (hstart'.symm ▸ hstart) (Nat.not_lt.mpr hapart)
    · exact absurd (hstop'.symm ▸ hstop) (Nat.not_lt.mpr hapart)
  · intro h
    obtain ⟨p, hp⟩ := Option.isSome_iff_exists.mp h
    obtain ⟨-, -, hstart, hstop, -⟩ := mention?_eq_some hp
    obtain ⟨e, he, rfl⟩ := (exists_edit_iff f old new p).mpr ⟨o, ho, hp⟩
    exact ⟨e, he, hstart.trans_lt hpos, hpos.trans_eq hstop.symm⟩

variable (new) in
/-- What has the text of a name is a mention just if it is a name outside of the imports, in no specifier. -/
theorem mention?_isSome_iff {t holder : Tree} (rest : List Tree)
    (hholder : t.kind ∈ Kind.ofNames → holder.is .exportSpecifier = false)
    (htext : t.text f.text = Bytes.ofString old) : (mention? f old new (t, holder :: rest)).isSome = true ↔
      t.kind ∈ Kind.ofNames ∧ (f.imports.map (·.statement)).any (·.encloses t) = false := by
  rw [← isName_iff] at hholder ⊢
  unfold mention?
  dsimp only
  cases hname : isName t with
  | false => simp
  | true =>
    have hreplacement : (replacement? old new t (holder :: rest)).isSome = true := by
      unfold replacement?
      split
      · rfl
      · simp [hholder hname]
    cases (f.imports.map (·.statement)).any (·.encloses t) <;> simp [htext, hreplacement]

end NamedImport

namespace SourceFile

/-- What a name of a file belongs to that means nothing bound in the file. -/
def belonging? (f : SourceFile) (o : Tree × List Tree) : Option Belonging :=
  match o.2 with
  | [] => none
  | holder :: _ => Belonging.of? holder.kind o.1.kind (seenBefore f.text holder o.1) (seenBehind f.text holder o.1)

/-- Whether the name of a member of something is taken for a mention. -/
def isMistaken (f : SourceFile) (o : Tree × List Tree) (m : Belonging) : Bool :=
  match o.2 with
  | [] => false
  | holder :: _ => m.isMistaken holder.kind o.1.kind (seenBefore f.text holder o.1) (seenBehind f.text holder o.1)

end SourceFile

open NamedImport

/-- When the mentions of a name are replaced, the name of a member of something else is touched just if it stands
outside of the imports and is mistaken: if it ends the qualified name of a type, stands beside the colon of a name in
a space of names in markup, or labels a member of a tuple. No other part of a qualified name, no key that is written
out, and no other attribute or label is. -/
theorem members_mentioned_iff (f : SourceFile) (old new : String) (hold : old ≠ "") (o : Tree × List Tree)
    (ho : o ∈ f.tree.occurrences []) (hleaf : o.1.children = []) (htext : o.1.text f.text = Bytes.ofString old)
    (m : Belonging) (hm : f.belonging? o = some m) :
    (∃ e ∈ referenceEdits f old new, e.start < o.1.stop ∧ o.1.start < e.stop) ↔
      f.isMistaken o m = true ∧ (f.imports.map (·.statement)).any (·.encloses o.1) = false := by
  obtain ⟨t, above⟩ := o
  match above, ho, hm with
  | holder :: rest, ho, hm =>
    have hpos : t.start < t.stop := start_lt_stop hold htext
    rw [touched_iff new ho hleaf hpos, mention?_isSome_iff new rest (not_in_specifier ho hpos hm) htext,
      Belonging.isMistaken_iff ho hpos hm]
    rfl

/-- A module with a name that is imported and that members bear too. -/
def memberModule : SourceFile :=
  ⟨samplePath "m.ts", .typescript, Bytes.ofString ("import a from \"./a\";\na.a(\x7b a: x?.a \x7d);\n" ++
    "let y: N.a;\n"), false⟩

/-- Of the members of values none is touched, and the member of a type is. -/
theorem memberModule_members : "a" ≠ "" ∧
    (∃ o ∈ memberModule.tree.occurrences [], o.1.children = [] ∧ o.1.text memberModule.text = Bytes.ofString "a" ∧
      memberModule.belonging? o = some .part ∧
      ¬ ∃ e ∈ referenceEdits memberModule "a" "b", e.start < o.1.stop ∧ o.1.start < e.stop) ∧
    ∃ o ∈ memberModule.tree.occurrences [], o.1.children = [] ∧ o.1.text memberModule.text = Bytes.ofString "a" ∧
      memberModule.belonging? o = some .part ∧
      ∃ e ∈ referenceEdits memberModule "a" "b", e.start < o.1.stop ∧ o.1.start < e.stop := by
  obtain ⟨o, ho, hleaf, htext, hm, hkept⟩ : ∃ o ∈ memberModule.tree.occurrences [], o.1.children = [] ∧
      o.1.text memberModule.text = Bytes.ofString "a" ∧ memberModule.belonging? o = some .part ∧
      memberModule.isMistaken o .part = false := by decide +kernel
  obtain ⟨o', ho', hleaf', htext', hm', htaken, hout⟩ : ∃ o ∈ memberModule.tree.occurrences [], o.1.children = [] ∧
      o.1.text memberModule.text = Bytes.ofString "a" ∧ memberModule.belonging? o = some .part ∧
      memberModule.isMistaken o .part = true ∧
      (memberModule.imports.map (·.statement)).any (·.encloses o.1) = false := by decide +kernel
  refine ⟨by decide, ⟨o, ho, hleaf, htext, hm, fun h => ?_⟩, o', ho', hleaf', htext', hm', ?_⟩
  · have hmistaken := ((members_mentioned_iff memberModule "a" "b" (by decide) o ho hleaf htext .part hm).mp h).1
    rw [hkept] at hmistaken
    cases hmistaken
  · exact (members_mentioned_iff memberModule "a" "b" (by decide) o' ho' hleaf' htext' .part hm').mpr ⟨htaken, hout⟩

/-- The last part of the name of a type is renamed with what is imported under the same name. -/
theorem type_member_renamed :
    (∃ o ∈ memberModule.tree.occurrences [], o.1.text memberModule.text = Bytes.ofString "a" ∧
      memberModule.belonging? o = some .part ∧ ∃ e ∈ referenceEdits memberModule "a" "b",
        e.start = o.1.start ∧ e.stop = o.1.stop ∧ e.text = "b") := by
  decide +kernel

end Codemod
