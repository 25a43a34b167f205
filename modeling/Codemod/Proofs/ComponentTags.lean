import Codemod.Proofs.Mentions
import Codemod.Proofs.Wards

/-!
# Tags of components

The tag of an element refers to something bound in the file, unless it begins with a small letter: then it is the name
of an element that is built in. When the imports of a file are repaired, a tag that refers to a default import is
replaced by the name that the default export got, whatever that begins with. So a component stays one just if that name
does not begin with a small letter.

Main statements:

* `NamedImport.Repairs.exists_name` says what a repair puts in the place of a tag;
* `component_tags_after_repair` says so of the text that the second pass leaves, and when the tag is still one of a
  component.
-/

namespace Codemod

open Syntax Syntax.Tree

/-! ### Pieces of a patched text -/

/-- Patches that do not lie across a range fall into those before it, within it and behind it. -/
theorem Patch.InOrder.exists_pieces {l : List Patch} {lo c d hi : Nat} (h : InOrder lo hi l) (hlo : lo ≤ c)
    (hcd : c ≤ d) (hhi : d ≤ hi) (hall : ∀ p ∈ l, p.stop ≤ c ∨ c ≤ p.start ∧ p.stop ≤ d ∨ d ≤ p.start) :
    ∃ a m b, l = a ++ (m ++ b) ∧ InOrder lo c a ∧ InOrder c d m ∧ InOrder d hi b := by
  obtain ⟨a, rest, rfl, ha, hrest⟩ := h.exists_split hlo (hcd.trans hhi) fun p hp => by
    rcases hall p hp with hp | hp | hp
    · exact .inl hp
    · exact .inr hp.1
    · exact .inr (hcd.trans hp)
  obtain ⟨m, b, rfl, hm, hb⟩ := hrest.exists_split hcd hhi fun p hp => by
    rcases hall p (List.mem_append_right _ hp) with hp | hp | hp
    · exact .inl (hp.trans hcd)
    · exact .inl hp.2
    · exact .inr hp
  exact ⟨a, m, b, rfl, ha, hm, hb⟩

/-! ### Tags -/

/-- Whether a name begins with a small letter. -/
def Bytes.beginsSmall (t : Bytes) : Bool :=
  t.head?.any fun b => 0x61 ≤ b && b ≤ 0x7a

/-- What is written begins with a small letter just if the text does. -/
theorem Bytes.beginsSmall_ofString (s : String) :
    (Bytes.ofString s).beginsSmall = false ↔ ∀ c ∈ s.toList.head?, ¬ ('a' ≤ c ∧ c ≤ 'z') := by
  rw [Bytes.ofString_eq_flatMap]
  cases s.toList with
  | nil => simp [Bytes.beginsSmall]
  | cons c rest =>
    obtain ⟨b, more, hbytes, hb⟩ := Utf8.exists_first_byte c
    have hle : (0x61 ≤ b ∧ b ≤ 0x7a) ↔ ('a' ≤ c ∧ c ≤ 'z') := by
      rw [UInt8.le_iff_toNat_le, UInt8.le_iff_toNat_le, Char.le_def, Char.le_def, UInt32.le_iff_toNat_le,
        UInt32.le_iff_toNat_le]
      have hc : c.toNat = c.val.toNat := rfl
      rw [hc] at hb
      show (0x61 ≤ b.toNat ∧ b.toNat ≤ 0x7a) ↔ (0x61 ≤ c.val.toNat ∧ c.val.toNat ≤ 0x7a)
      omega
    have hsmall : Bytes.beginsSmall ((c :: rest).flatMap String.utf8EncodeChar) = decide (0x61 ≤ b ∧ b ≤ 0x7a) := by
      simp [Bytes.beginsSmall, hbytes]
    rw [hsmall, decide_eq_false_iff_not, hle, List.head?_cons]
    simp only [Option.mem_some_iff, forall_eq']

namespace SourceFile

/-- Whether a leaf of a file is the tag of an element, opening or closing. -/
def isTag (f : SourceFile) (o : Tree × List Tree) : Bool :=
  match o.2 with
  | [] => false
  | holder :: _ => o.1.is .identifier && holder.is .markup && (seenBefore f.text holder o.1).any (isSignOf ["<", "/"])

/-- Whether a leaf of a file is a tag that refers to a component: it does not begin with a small letter. -/
def isComponentTag (f : SourceFile) (o : Tree × List Tree) : Bool :=
  f.isTag o && !(o.1.text f.text).beginsSmall

/-- What the tags of a file say, each with whether it refers to a component. -/
def tags (f : SourceFile) : List (Bytes × Bool) :=
  ((f.tree.occurrences []).filter f.isTag).map fun o => (o.1.text f.text, f.isComponentTag o)

end SourceFile

namespace NamedImport

variable {f : SourceFile} {old new name : String} {o : Tree × List Tree} {d : ModuleReference}
  {given : ModuleReference → Option String} {patches : List Patch} {q : Patch}

/-- A tag outside of the imports is replaced by the new name alone. -/
theorem mention?_of_tag (new : String) (htag : f.isTag o = true) (htext : o.1.text f.text = Bytes.ofString old)
    (hout : (f.imports.map (·.statement)).any (·.encloses o.1) = false) :
    mention? f old new o = some ⟨o.1.start, o.1.stop, Bytes.ofString new⟩ := by
  obtain ⟨t, above⟩ := o
  cases above with
  | nil => cases htag
  | cons holder rest =>
    simp only [SourceFile.isTag, Bool.and_eq_true, Tree.is, decide_eq_true_eq] at htag
    obtain ⟨⟨hkind, hholder⟩, -⟩ := htag
    unfold mention?
    rw [hout]
    simp [isName, replacement?, Tree.is, hkind, hholder, htext]

theorem kind_of_tag (htag : f.isTag o = true) : o.1.kind = .identifier := by
  obtain ⟨t, above⟩ := o
  cases above with
  | nil => cases htag
  | cons holder rest =>
    simp only [SourceFile.isTag, Bool.and_eq_true, Tree.is, decide_eq_true_eq] at htag
    exact htag.1.1

/-- What is put in the place of the imports and of the mentions of their local names, in order. -/
structure Repairs (f : SourceFile) (given : ModuleReference → Option String) (patches : List Patch) : Prop where
  order : Patch.InOrder 0 f.text.length patches
  mem_iff : ∀ q, q ∈ patches ↔ (∃ d ∈ f.imports, q = importPatch f given d) ∨ ∃ e, EditsMention f given e ∧ q = e.patch
  /-- The local names of the imports that are given names can be read. -/
  readable : ∀ d ∈ f.imports, ∀ name, given d = some name →
    ∃ bound old, d.defaultName? = some bound ∧ f.textOf bound = .ok old

namespace Repairs

theorem covers (h : Repairs f given patches) (hq : q ∈ patches) : q.start < q.stop := by
  rcases (h.mem_iff q).mp hq with ⟨d, hd, rfl⟩ | ⟨e, hmention, rfl⟩
  · exact SourceFile.import_start_lt hd
  · exact (editsMention_apart hmention).1

variable (h : Repairs f given patches) (ho : o ∈ f.tree.occurrences []) (htag : f.isTag o = true)
  (hout : (f.imports.map (·.statement)).any (·.encloses o.1) = false)

include h ho htag hout

/-- The tag is replaced by the names that imports which bind it are given. -/
theorem mem_of_given (hd : d ∈ f.imports) (hlocal : localName? f d = some (o.1.text f.text))
    (hgiven : given d = some name) (hne : o.1.text f.text ≠ Bytes.ofString name) :
    ⟨o.1.start, o.1.stop, Bytes.ofString name⟩ ∈ patches := by
  obtain ⟨bound, old, hbound, hold⟩ := h.readable d hd name hgiven
  have htext : o.1.text f.text = Bytes.ofString old := by
    unfold localName? at hlocal
    rw [hbound] at hlocal
    rw [SourceFile.ofString_of_textOf hold]
    exact (Option.some.inj hlocal).symm
  obtain ⟨e, he, hpatch⟩ := (exists_edit_iff f old name _).mpr ⟨o, ho, mention?_of_tag name htag htext hout⟩
  refine (h.mem_iff _).mpr (.inr ⟨e, ⟨d, hd, name, bound, old, hgiven, hbound, hold, ?_, he⟩, hpatch.symm⟩)
  rintro rfl
  exact hne htext

/-- Patches that touch the tag put such a name in its place. -/
theorem given_of_mem (hq : q ∈ patches) (hstart : q.start < o.1.stop) (hstop : o.1.start < q.stop) :
    ∃ d ∈ f.imports, ∃ name, localName? f d = some (o.1.text f.text) ∧ given d = some name ∧
      q = ⟨o.1.start, o.1.stop, Bytes.ofString name⟩ := by
  have hbare := parse_namesBare f.dialect f.text
  have hkind := kind_of_tag htag
  have hname : isName o.1 = true := by simp [isName, Tree.is, hkind]
  rcases (h.mem_iff q).mp hq with ⟨d, hd, rfl⟩ | ⟨e, ⟨d, hd, name, bound, old, hgiven, hbound, hold, -, he⟩, rfl⟩
  · have hroot : o.1 ≠ f.tree := fun heq => by
      rw [heq] at hkind
      cases (parse_kind f.dialect f.text).symm.trans hkind
    have hapart := outside_apart ho hroot hout hd
    simp only [importPatch] at hstart hstop
    omega
  · obtain ⟨o', ho', hmention⟩ := (exists_edit_iff f old name e.patch).mp ⟨e, he, rfl⟩
    obtain ⟨hname', htext, hstart', hstop', -⟩ := mention?_eq_some hmention
    rw [hstart'] at hstart
    rw [hstop'] at hstop
    rcases leaves_apart ho ho' (hbare.leaf ho hname) (hbare.leaf ho' hname') with rfl | hapart
    · refine ⟨d, hd, name, ?_, hgiven, ?_⟩
      · rw [htext, SourceFile.ofString_of_textOf hold]
        exact congrArg (Option.map _) hbound
      · exact Option.some.inj (hmention.symm.trans (mention?_of_tag name htag htext hout))
    · omega

/-- A repair puts a name in the place of a tag that an import binds which is given one: a name that an import is given
which binds the tag. -/
theorem exists_name (hpos : o.1.start < o.1.stop) (hd : d ∈ f.imports)
    (hlocal : localName? f d = some (o.1.text f.text)) (hgiven : given d = some name) :
    ∃ d' ∈ f.imports, ∃ name', localName? f d' = some (o.1.text f.text) ∧ given d' = some name' ∧
      Patch.patched f.text 0 f.text.length patches = Patch.textBetween f.text patches 0 o.1.start ++
        (Patch.textBetween f.text patches o.1.start o.1.stop ++
          Patch.textBetween f.text patches o.1.stop f.text.length) ∧
      Patch.textBetween f.text patches o.1.start o.1.stop = Bytes.ofString name' := by
  have hbounds : o.1.stop ≤ f.text.length := (f.tree_placed.bounds_of_occurrence ho).2.2
  have hwithin : ∀ q ∈ patches, q.stop ≤ o.1.start ∨ o.1.start ≤ q.start ∧ q.stop ≤ o.1.stop ∨ o.1.stop ≤ q.start := by
    intro q hq
    by_cases hstart : q.start < o.1.stop
    · by_cases hstop : o.1.start < q.stop
      · obtain ⟨-, -, -, -, -, rfl⟩ := h.given_of_mem ho htag hout hq hstart hstop
        exact .inr (.inl ⟨Nat.le_refl _, Nat.le_refl _⟩)
      · exact .inl (Nat.not_lt.mp hstop)
    · exact .inr (.inr (Nat.not_lt.mp hstart))
  obtain ⟨a, m, b, rfl, ha, hm, hb⟩ := h.order.exists_pieces (Nat.zero_le _) hpos.le hbounds hwithin
  have hcovers : ∀ q ∈ a ++ (m ++ b), q.start < q.stop := fun q => h.covers
  have hmem := h.mem_of_given ho htag hout hd hlocal hgiven
  obtain ⟨hpieces, hmiddle, -⟩ := Patch.patched_pieces (t := f.text) ha hm hb hcovers
  have hall : ∀ q ∈ m, ∃ d ∈ f.imports, ∃ name, localName? f d = some (o.1.text f.text) ∧ given d = some name ∧
      q = ⟨o.1.start, o.1.stop, Bytes.ofString name⟩ := fun q hq => by
    have hq' : q ∈ a ++ (m ++ b) := List.mem_append_right _ (List.mem_append_left _ hq)
    obtain ⟨hlo, -, hhi⟩ := hm.bounds hq
    have := hcovers q hq'
    exact h.given_of_mem ho htag hout hq' (by omega) (by omega)
  cases m with
  | nil =>
    -- Nothing is put in the place of the tag, since it bears the name already.
    refine ⟨d, hd, name, hlocal, hgiven, hpieces, hmiddle.trans ?_⟩
    by_contra hne
    rcases List.mem_append.mp (hmem hne) with hq | hq
    · have := (ha.bounds hq).2.2
      exact absurd hpos (Nat.not_lt.mpr this)
    · have := (hb.bounds hq).1
      exact absurd hpos (Nat.not_lt.mpr this)
  | cons q rest =>
    obtain ⟨d', hd', name', hlocal', hgiven', rfl⟩ := hall q (List.mem_cons_self ..)
    have hrest : rest = [] := by
      refine List.eq_nil_iff_forall_not_mem.mpr fun r hr => ?_
      obtain ⟨_, _, _, _, _, heq⟩ := hall r (List.mem_cons_of_mem _ hr)
      have hbehind : o.1.stop ≤ r.start := (hm.2.2.bounds hr).1
      rw [heq] at hbehind
      exact absurd hpos (Nat.not_lt.mpr hbehind)
    subst hrest
    refine ⟨d', hd', name', hlocal', hgiven', hpieces, hmiddle.trans ?_⟩
    simp [Patch.patched, Bytes.slice]

end Repairs

/-- The edits that are planned for a file repair it. -/
theorem exists_repairs {resolve : Resolver} {names : Keyed Path String} {plans : List (List Edit)} {text : Bytes}
    (hplan : (plan f resolve names).outcome = .ok plans) (happlied : Edit.applyAll plans.flatten f.text = .ok text) :
    ∃ patches, Repairs f (newName? f resolve names) patches ∧
      text = Patch.patched f.text 0 f.text.length patches := by
  obtain ⟨patches, horder, htext, hmem⟩ := plan_repairs hplan happlied
  refine ⟨patches, ⟨horder, hmem, fun d hd name hgiven => ?_⟩, htext⟩
  obtain ⟨bound, old, -, hbound, hold, -, -⟩ := planned_of_newName? hplan hd hgiven
  exact ⟨bound, old, hbound, hold⟩

end NamedImport

open NamedImport

/-- How a repaired text has a name in the place of a tag. -/
structure TagBecomes (f g : SourceFile) (patches : List Patch) (t : Tree) (name : String) : Prop where
  /-- The text is what the patches make of what stood before the tag, of the tag, and of what stood behind it. -/
  text_eq : g.text = Patch.textBetween f.text patches 0 t.start ++
    (Patch.textBetween f.text patches t.start t.stop ++ Patch.textBetween f.text patches t.stop f.text.length)
  name_eq : Patch.textBetween f.text patches t.start t.stop = Bytes.ofString name
  /-- It is the tag of a component just if the name does not begin with a small letter. -/
  component_iff : (Patch.textBetween f.text patches t.start t.stop).beginsSmall = false ↔
    ∀ c ∈ name.toList.head?, ¬ ('a' ≤ c ∧ c ≤ 'z')

/-- When the second pass has repaired a file, every tag of a component that a repaired import binds has become a name
that such an import was given: for every project, every file and all records, the name is written in the place of the
tag, and the import that was given it binds what the tag said; where the imports that are given names bind different
local names, it is the only one. So the tag is still one of a component just if the name does not begin with a small
letter. -/
theorem component_tags_after_repair (names : Keyed Path String) (w w' : Workspace) (f : SourceFile) (n : Nat)
    (j j' : Journal) (hw : w.paths.Nodup) (hf : w.file? f.path = some f)
    (h : Workspace.nameDefaultImports names f w j = (.ok n, w', j')) :
    ∃ g patches, w'.file? f.path = some g ∧ Repairs f (newName? f (w.resolve f.path) names) patches ∧
      ∀ o ∈ f.tree.occurrences [], f.isComponentTag o = true →
        (f.imports.map (·.statement)).any (·.encloses o.1) = false →
        ∀ d ∈ f.imports, localName? f d = some (o.1.text f.text) →
          (newName? f (w.resolve f.path) names d).isSome = true →
          ∃ d' ∈ f.imports, ∃ name, localName? f d' = some (o.1.text f.text) ∧
            newName? f (w.resolve f.path) names d' = some name ∧
            (DistinctNames f (newName? f (w.resolve f.path) names) → d' = d) ∧ TagBecomes f g patches o.1 name := by
  obtain ⟨j₁, hrun⟩ := importJob_ends names w f j hw hf
  rw [h] at hrun
  obtain ⟨hresult, hrest⟩ := Prod.mk.inj hrun
  obtain ⟨rfl, -⟩ := Prod.mk.inj hrest
  obtain ⟨plans, hplan, happlied, -⟩ := importJob_eq_ok hresult.symm
  obtain ⟨patches, hrepairs, htext⟩ := exists_repairs hplan happlied
  refine ⟨((importJob names).ending w f).file, patches, ?_, hrepairs, ?_⟩
  · rw [← Job.ending_path (importJob names) w f] at hf ⊢
    exact Workspace.file?_settle ⟨_, hf⟩
  · intro o ho hcomponent hout d hd hlocal hsome
    obtain ⟨name, hgiven⟩ := Option.isSome_iff_exists.mp hsome
    have htag : f.isTag o = true := (Bool.and_eq_true_iff.mp hcomponent).1
    have hpos : o.1.start < o.1.stop :=
      (f.tree_placed.bounds_of_occurrence ho).2.1.start_lt (.inl (decide_eq_true (kind_of_tag htag)))
    obtain ⟨d', hd', name', hlocal', hgiven', hpieces, hname⟩ :=
      hrepairs.exists_name ho htag hout hpos hd hlocal hgiven
    refine ⟨d', hd', name', hlocal', hgiven', fun hdistinct => ?_, htext.trans hpieces, hname, ?_⟩
    · exact List.inj_on_of_nodup_map hdistinct (List.mem_filter.mpr ⟨hd', by rw [hgiven']; rfl⟩)
        (List.mem_filter.mpr ⟨hd, by rw [hgiven]; rfl⟩) (hlocal'.trans hlocal.symm)
    · rw [hname, Bytes.beginsSmall_ofString]

/-- A module with an element of a component that it imports. -/
def tagModule : SourceFile :=
  ⟨samplePath "m.tsx", .tsx, Bytes.ofString "import Logger from \"./logger\";\nconst x = <Logger />;\n", false⟩

/-- A project with that module and the one that the component comes from. -/
def tagProject : Workspace :=
  { sampleProject with
    files := [tagModule, ⟨samplePath "logger.tsx", .tsx, Bytes.ofString "export default () => 1;\n", false⟩] }

/-- The tag becomes the name that the default export got. -/
theorem tagModule_tag_becomes : tagProject.paths.Nodup ∧ tagProject.file? tagModule.path = some tagModule ∧
    ∃ n w' j' g patches, Workspace.nameDefaultImports [(samplePath "logger.tsx", "Panel")] tagModule tagProject [] =
        (.ok n, w', j') ∧ w'.file? tagModule.path = some g ∧
      ∃ o ∈ tagModule.tree.occurrences [], tagModule.isComponentTag o = true ∧
        o.1.text tagModule.text = Bytes.ofString "Logger" ∧
        TagBecomes tagModule g patches o.1 "Panel" := by
  have hok : (Workspace.nameDefaultImports [(samplePath "logger.tsx", "Panel")] tagModule tagProject []).1.toOption =
      some 1 := by decide +kernel
  obtain ⟨o, ho, htag, htext, hout⟩ : ∃ o ∈ tagModule.tree.occurrences [], tagModule.isComponentTag o = true ∧
      o.1.text tagModule.text = Bytes.ofString "Logger" ∧
      (tagModule.imports.map (·.statement)).any (·.encloses o.1) = false := by decide +kernel
  obtain ⟨d, hd, hlocal⟩ : ∃ d ∈ tagModule.imports, localName? tagModule d = some (Bytes.ofString "Logger") := by
    decide +kernel
  have hgiven : ∀ d ∈ tagModule.imports, newName? tagModule (tagProject.resolve tagModule.path)
      [(samplePath "logger.tsx", "Panel")] d = some "Panel" := by decide +kernel
  refine ⟨by decide, by decide, ?_⟩
  cases hrun : Workspace.nameDefaultImports [(samplePath "logger.tsx", "Panel")] tagModule tagProject [] with
  | mk result rest =>
    rw [hrun] at hok
    cases result with
    | error e => cases hok
    | ok n =>
      obtain ⟨g, patches, hg, -, htags⟩ := component_tags_after_repair [(samplePath "logger.tsx", "Panel")] tagProject
        rest.1 tagModule n [] rest.2 (by decide) (by decide) hrun
      obtain ⟨d', hd', name, -, hname, -, hbecomes⟩ := htags o ho htag hout d hd (htext ▸ hlocal)
        (Option.isSome_iff_exists.mpr ⟨_, hgiven d hd⟩)
      obtain rfl := Option.some.inj (hname.symm.trans (hgiven d' hd'))
      exact ⟨n, rest.1, rest.2, g, patches, rfl, hg, o, ho, htag, htext, hbecomes⟩

/-- A default export without a name is named for its file, and so the tag of the component becomes that of an element
which is built in. -/
theorem component_tag_becomes_builtin :
    tagModule.tags = [(Bytes.ofString "Logger", true)] ∧
    (nameDefaults 64 tagProject []).1.toOption.map (·.ok) = some true ∧
    ((nameDefaults 64 tagProject []).2.1.file? tagModule.path).map (fun g => (g.text, g.tags)) =
      some (Bytes.ofString "import \x7b logger \x7d from \"./logger\";\nconst x = <logger />;\n",
        [(Bytes.ofString "logger", false)]) := by
  decide +kernel

end Codemod
