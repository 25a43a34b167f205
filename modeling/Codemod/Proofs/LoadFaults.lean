import Codemod.Proofs.Inheritance

/-!
# The faults of loading a configuration

Some faults of a configuration are foreseen and reported: a file that is missing, cannot be read or is no
object, and a chain that closes on itself. A value under one of the keys that has not the shape its key needs
is a fault too, but no foreseen one. Where all files of a chain are there and none extends itself, no reported
fault is left, so that any such value is met by a fault that is not reported.

Main statements:

* `readChain_error` says what the reading of a chain can fail with;
* `accepted_iff_readable` says which values can be read;
* `load_faults` says which faults a load has beside the reported ones, and that it has them for every value
  that cannot be read;
* `number_for_patterns_unreported` gives a configuration of one file with such a fault.
-/

namespace Codemod.Config

open Relation

/-! ### Faults that are not foreseen -/

/-- A reading that fails, if at all, with a fault that is not reported. -/
def Unforeseen {α : Type} (x : Except Fault α) : Prop :=
  ∀ f, x = .error f → f.isReported = false

namespace Unforeseen

variable {α β : Type}

theorem ok (a : α) : Unforeseen (.ok a) := by
  intro f h
  cases h

theorem error {f : Fault} (h : f.isReported = false) : Unforeseen (.error f : Except Fault α) := by
  rintro g ⟨⟩
  exact h

theorem bind {x : Except Fault α} {k : α → Except Fault β} (hx : Unforeseen x)
    (hk : ∀ a, Unforeseen (k a)) : Unforeseen (x >>= k) := by
  intro f h
  rcases Except.bind_eq_error h with h | ⟨a, -, h⟩
  · exact hx f h
  · exact hk a f h

theorem map {x : Except Fault α} (hx : Unforeseen x) (g : α → β) : Unforeseen (g <$> x) := by
  cases x with
  | ok a => exact ok _
  | error f => exact error (hx f rfl)

end Unforeseen

theorem optionPair_unforeseen (v : Json.Value) : Unforeseen (optionPair v) := by
  unfold optionPair
  dsimp only
  split
  · exact .error rfl
  · split
    · exact .ok _
    · exact .error rfl
    · exact .error rfl
    · exact .ok _
  · exact .error rfl

theorem optionsOfPairs_unforeseen (seen : Json.Members) (vs : List Json.Value) :
    Unforeseen (optionsOfPairs seen vs) := by
  induction vs generalizing seen with
  | nil => exact .ok _
  | cons v vs ih =>
    refine (optionPair_unforeseen v).bind fun m => ?_
    cases m with
    | none => exact ih seen
    | some m => exact ih _

theorem options_unforeseen (v : Option Json.Value) : Unforeseen (options v) := by
  unfold options
  split
  · exact .ok _
  · exact .ok _
  · split
    · exact optionsOfPairs_unforeseen _ _
    · exact .error rfl

theorem locate_unforeseen (dir : Path) (s : String) : Unforeseen (locate dir s) := by
  unfold locate
  dsimp only
  split
  · exact .error rfl
  · exact .ok _

theorem locateOption_unforeseen (dir : Path) (ms : Json.Members) (key : String) :
    Unforeseen (locateOption dir ms key) := by
  unfold locateOption
  split
  · exact .ok _
  · exact (locate_unforeseen dir _).map _
  · exact .error rfl

theorem patternTexts_unforeseen (dir : Path) (vs : List Json.Value) : Unforeseen (patternTexts dir vs) := by
  induction vs with
  | nil => exact .ok _
  | cons v vs ih =>
    cases v with
    | text s => exact ih.map _
    | null | bool | int | real | list | object => exact .error rfl

theorem patterns_unforeseen (dir : Path) (ms : Json.Members) (key : String) :
    Unforeseen (Config.patterns dir ms key) := by
  unfold Config.patterns
  split
  · exact .ok _
  · split
    · exact (patternTexts_unforeseen dir _).map _
    · exact .error rfl

theorem ofMembers_unforeseen (dir : Path) (ms : Json.Members) : Unforeseen (Layer.ofMembers dir ms) := by
  unfold Layer.ofMembers
  refine (options_unforeseen _).bind fun opts => ?_
  refine (locateOption_unforeseen _ _ _).bind fun baseUrl => ?_
  refine (locateOption_unforeseen _ _ _).bind fun outDir => ?_
  refine (patterns_unforeseen _ _ _).bind fun included => ?_
  refine (patterns_unforeseen _ _ _).bind fun excluded => ?_
  exact (patterns_unforeseen _ _ _).bind fun files => .ok _

theorem references_unforeseen (ms : Json.Members) : Unforeseen (references ms) := by
  unfold references
  split
  · exact .ok _
  · exact .ok _
  · exact .ok _
  · split
    · exact .ok _
    · exact .error rfl

theorem referenced_unforeseen (dir : Path) (s : String) : Unforeseen (referenced dir s) := by
  unfold referenced
  split
  · refine (locate_unforeseen dir s).bind fun p => ?_
    split
    · exact .ok _
    · split
      · exact .error rfl
      · exact .ok _
  · exact .ok _

theorem aliasTargets_unforeseen (ms : List (String × Json.Value)) : Unforeseen (aliasTargets ms) := by
  induction ms with
  | nil => exact .ok _
  | cons m ms ih =>
    unfold aliasTargets
    split
    · exact ih.bind fun _ => .ok _
    · exact .error rfl

theorem ofLayer_unforeseen (p : Path) (l : Layer) : Unforeseen (ofLayer p l) := by
  have haliases : Unforeseen (aliasesOf l.aliases) := by
    unfold aliasesOf
    split
    · exact .ok _
    · exact aliasTargets_unforeseen _
    · exact .error rfl
  have hbase : Unforeseen (aliasBaseOf l.aliasBase) := by
    unfold aliasBaseOf
    split
    · exact .ok _
    · split
      · split
        · exact .ok _
        · exact .error rfl
      · exact .ok _
  unfold ofLayer
  exact haliases.bind fun as => hbase.bind fun base => .ok _

/-- A file that cannot be read as an object is reported, but for a number with too many digits. -/
theorem readMembers_error {fs : FileSystem} {p : Path} {f : Fault} (h : readMembers fs p = .error f)
    (hf : f.isReported = false) : f = .tooManyDigits := by
  unfold readMembers at h
  split at h
  · cases h
    cases hf
  · split at h
    · cases h
      cases hf
    · split at h
      · cases h
        cases hf
      · cases h
        rfl
      · cases h
      · cases h
        cases hf

/-! ### What a chain can fail with -/

/-- References that are read in vain: one of them can mean no file, or a file that it means cannot be read. -/
theorem readReferences_error {read : Path → Journaled Fault Layer} {p : Path} {refs : List Json.Value}
    {base : Layer} {j j' : Journal} {f : Fault} (h : readReferences read p base refs j = (.error f, j')) :
    (f.isReported = false ∧ ∃ v ∈ refs, ∀ s t, v = .text s → referenced p.parent s ≠ .ok t) ∨
      ∃ q ∈ targets p.parent refs, ∃ i i', read q i = (.error f, i') := by
  induction refs generalizing base j with
  | nil => cases h
  | cons v rest ih =>
    have hmore : ∀ {base' i}, readReferences read p base' rest i = (.error f, j') →
        (f.isReported = false ∧ ∃ v' ∈ v :: rest, ∀ s t, v' = .text s → referenced p.parent s ≠ .ok t) ∨
          ∃ q ∈ targets p.parent (v :: rest), ∃ i i', read q i = (.error f, i') := by
      intro base' i hrest
      rcases ih hrest with ⟨hf, v', hv', hbad⟩ | ⟨q, hq, hread⟩
      · exact .inl ⟨hf, v', List.mem_cons_of_mem _ hv', hbad⟩
      · exact .inr ⟨q, mem_targets_tail hq v, hread⟩
    cases v with
    | text s =>
      unfold readReferences at h
      rcases Journaled.bind_eq_error h with h | ⟨t, j₁, ht, h⟩
      · have href := Journaled.ofExcept_eq_error h
        refine .inl ⟨referenced_unforeseen _ _ f href, _, List.mem_cons_self .., ?_⟩
        rintro s' t ⟨⟩ hok
        rw [href] at hok
        cases hok
      · cases t with
        | none =>
          rcases Journaled.bind_eq_error h with h | ⟨-, j₂, -, h⟩
          · cases h
          · exact hmore h
        | some q =>
          rcases Journaled.bind_eq_error h with h | ⟨layer, j₂, -, h⟩
          · exact .inr ⟨q, mem_targets_head (Journaled.ofExcept_eq_ok ht).1 rest, _, _, h⟩
          · exact hmore h
    | null | bool | int | real | list | object =>
      cases h
      refine .inl ⟨rfl, _, List.mem_cons_self .., ?_⟩
      rintro s t ⟨⟩

/-- The reading of a chain fails because the file was met before, because it cannot be read, because of a
value in it, or because the chain of a file that it extends cannot be read. -/
theorem readChain_error {fs : FileSystem} {fuel : Nat} {seen : List Path} {p : Path} {j j' : Journal}
    {f : Fault} (h : readChain fs (fuel + 1) seen p j = (.error f, j')) :
    (p ∈ seen ∧ f = .circular p) ∨ readMembers fs p = .error f ∨
      ∃ ms, readMembers fs p = .ok ms ∧
        ((f.isReported = false ∧ ¬ (Declaration.mk p ms).Accepted) ∨
          ∃ q ∈ (Declaration.mk p ms).parents, ∃ i i', readChain fs fuel (p :: seen) q i = (.error f, i')) := by
  unfold readChain at h
  split at h
  case isTrue hseen =>
    cases h
    exact .inl ⟨by simpa using hseen, rfl⟩
  case isFalse =>
    rcases Journaled.bind_eq_error h with h | ⟨ms, j₁, hms, h⟩
    · exact .inr (.inl (Journaled.ofExcept_eq_error h))
    refine .inr (.inr ⟨ms, (Journaled.ofExcept_eq_ok hms).1, ?_⟩)
    rcases Journaled.bind_eq_error h with h | ⟨layer, j₂, -, h⟩
    · have hlayer := Journaled.ofExcept_eq_error h
      refine .inl ⟨ofMembers_unforeseen _ _ f hlayer, fun haccepted => ?_⟩
      cases hlayer.symm.trans haccepted.ofMembers_eq
    rcases Journaled.bind_eq_error h with h | ⟨refs, j₃, hrefs, h⟩
    · have hrefs := Journaled.ofExcept_eq_error h
      refine .inl ⟨references_unforeseen _ f hrefs, fun haccepted => ?_⟩
      obtain ⟨refs, hok, -⟩ := haccepted.references
      cases hrefs.symm.trans hok
    have hrefs := (Journaled.ofExcept_eq_ok hrefs).1
    rcases Journaled.bind_eq_error h with h | ⟨base, j₄, -, h⟩
    · rcases readReferences_error h with ⟨hf, v, hv, hbad⟩ | ⟨q, hq, hread⟩
      · refine .inl ⟨hf, fun haccepted => ?_⟩
        obtain ⟨refs', hok, htexts⟩ := haccepted.references
        cases hrefs.symm.trans hok
        obtain ⟨s, t, hs, ht⟩ := htexts v hv
        exact hbad s t hs ht
      · exact .inr ⟨q, Declaration.parents_eq (d := ⟨p, ms⟩) hrefs ▸ hq, hread⟩
    · cases h

/-- What a chain fails with, beside what is reported, comes from one of its files: a number in it has too many
digits, or a value in it cannot be read. -/
theorem origin_of_fault {fs : FileSystem} {fuel : Nat} {seen : List Path} {p : Path} {j j' : Journal}
    {f : Fault} (h : readChain fs fuel seen p j = (.error f, j')) (hf : f.isReported = false) :
    ∃ q, Reaches fs p q ∧ (readMembers fs q = .error .tooManyDigits ∨
      ∃ ms, readMembers fs q = .ok ms ∧ ¬ (Declaration.mk q ms).Accepted) := by
  induction fuel generalizing seen p j j' with
  | zero => cases h; cases hf
  | succ n ih =>
    rcases readChain_error h with ⟨-, rfl⟩ | hread | ⟨ms, hms, ⟨-, hbad⟩ | ⟨q, hq, i, i', hchain⟩⟩
    · cases hf
    · exact ⟨p, .refl, .inl (readMembers_error hread hf ▸ hread)⟩
    · exact ⟨p, .refl, .inr ⟨ms, hms, hbad⟩⟩
    · obtain ⟨r, hr, hcause⟩ := ih hchain
      exact ⟨r, .head ⟨ms, hms, hq⟩ hr, hcause⟩

/-- A chain whose files can all be read, and in which no file extends itself, fails with nothing that is
reported. -/
theorem readChain_unreported {fs : FileSystem} {p : Path} {depth : Nat} {seen : List Path} {q : Path}
    (hread : ∀ q, Reaches fs p q → ∃ ms, readMembers fs q = .ok ms) (h : OnTheWay fs p depth seen q)
    {j j' : Journal} {f : Fault} (hrun : readChain fs depth seen q j = (.error f, j')) :
    f.isReported = false := by
  induction depth generalizing seen q j j' with
  | zero => exact absurd rfl h.depth_ne_zero
  | succ n ih =>
    obtain ⟨ms₀, hms₀⟩ := hread q h.reaches
    rcases readChain_error hrun with ⟨hseen, -⟩ | hfault | ⟨ms, hms, ⟨hf, -⟩ | ⟨r, hr, i, i', hchain⟩⟩
    · exact absurd hseen h.fresh
    · cases hms₀.symm.trans hfault
    · exact hf
    · exact ih (h.step hms hr) hchain

/-! ### What a chain needs to be read -/

theorem readReferences_ok {read : Path → Journaled Fault Layer} {p : Path} {refs : List Json.Value}
    {base l : Layer} {j j' : Journal} (h : readReferences read p base refs j = (.ok l, j')) :
    (∀ v ∈ refs, ∃ s t, v = .text s ∧ referenced p.parent s = .ok t) ∧
      ∀ q ∈ targets p.parent refs, ∃ l' i i', read q i = (.ok l', i') := by
  induction refs generalizing base j with
  | nil => exact ⟨fun v hv => absurd hv List.not_mem_nil, fun q hq => absurd hq List.not_mem_nil⟩
  | cons v rest ih =>
    cases v with
    | text s =>
      unfold readReferences at h
      obtain ⟨t, j₁, ht, h⟩ := Journaled.bind_eq_ok h
      have href := (Journaled.ofExcept_eq_ok ht).1
      have hboth : (∀ v ∈ rest, ∃ s t, v = .text s ∧ referenced p.parent s = .ok t) ∧
          (∀ q ∈ targets p.parent rest, ∃ l' i i', read q i = (.ok l', i')) ∧
          ∀ q, t = some q → ∃ l' i i', read q i = (.ok l', i') := by
        cases t with
        | none =>
          obtain ⟨-, j₂, -, h⟩ := Journaled.bind_eq_ok h
          refine ⟨(ih h).1, (ih h).2, ?_⟩
          rintro q ⟨⟩
        | some q =>
          obtain ⟨layer, j₂, hread, h⟩ := Journaled.bind_eq_ok h
          exact ⟨(ih h).1, (ih h).2, fun r hr => Option.some.inj hr ▸ ⟨layer, _, _, hread⟩⟩
      obtain ⟨htexts, hrest, hfirst⟩ := hboth
      refine ⟨List.forall_mem_cons.mpr ⟨⟨s, t, rfl, href⟩, htexts⟩, fun q hq => ?_⟩
      obtain ⟨s', hs', href'⟩ := mem_targets.mp hq
      rcases List.mem_cons.mp hs' with heq | hs'
      · cases heq
        exact hfirst q (Except.ok.inj (href.symm.trans href'))
      · exact hrest q (mem_targets.mpr ⟨s', hs', href'⟩)
    | null | bool | int | real | list | object => cases h

/-- A chain is read only if the file itself and the chains of all that it extends are. -/
theorem readChain_ok {fs : FileSystem} {fuel : Nat} {seen : List Path} {p : Path} {j j' : Journal}
    {l : Layer} (h : readChain fs fuel seen p j = (.ok l, j')) :
    ∃ n ms, fuel = n + 1 ∧ readMembers fs p = .ok ms ∧ (Declaration.mk p ms).Accepted ∧
      ∀ q ∈ (Declaration.mk p ms).parents, ∃ l' i i', readChain fs n (p :: seen) q i = (.ok l', i') := by
  cases fuel with
  | zero => cases h
  | succ n =>
    unfold readChain at h
    split at h
    case isTrue => cases h
    case isFalse =>
      obtain ⟨ms, j₁, hms, h⟩ := Journaled.bind_eq_ok h
      obtain ⟨layer, j₂, hlayer, h⟩ := Journaled.bind_eq_ok h
      obtain ⟨refs, j₃, hrefs, h⟩ := Journaled.bind_eq_ok h
      obtain ⟨base, j₄, hbase, -⟩ := Journaled.bind_eq_ok h
      have hrefs := (Journaled.ofExcept_eq_ok hrefs).1
      obtain ⟨htexts, hread⟩ := readReferences_ok hbase
      refine ⟨n, ms, rfl, (Journaled.ofExcept_eq_ok hms).1,
        ⟨⟨layer, (Journaled.ofExcept_eq_ok hlayer).1⟩, refs, hrefs, htexts⟩, fun q hq => ?_⟩
      rw [Declaration.parents_eq (d := ⟨p, ms⟩) hrefs] at hq
      exact hread q hq

/-- All files of a chain that is read are accepted. -/
theorem accepted_of_readChain {fs : FileSystem} {fuel : Nat} {seen : List Path} {p : Path}
    {j j' : Journal} {l : Layer} (h : readChain fs fuel seen p j = (.ok l, j')) {q : Path}
    (hq : Reaches fs p q) : ∃ ms, readMembers fs q = .ok ms ∧ (Declaration.mk q ms).Accepted := by
  have hrun : ∃ n seen' l' i i', readChain fs n seen' q i = (.ok l', i') := by
    induction hq with
    | refl => exact ⟨fuel, seen, l, j, j', h⟩
    | tail _ hstep ih =>
      -- The chain of each file that is extended has been read on its own.
      obtain ⟨n, seen', l', i, i', hrun⟩ := ih
      obtain ⟨m, ms, -, hms, -, hparents⟩ := readChain_ok hrun
      obtain ⟨ms', hms', hr⟩ := hstep
      cases hms.symm.trans hms'
      exact ⟨m, _, hparents _ hr⟩
  obtain ⟨n, seen', l', i, i', hrun⟩ := hrun
  obtain ⟨-, ms, -, hms, haccepted, -⟩ := readChain_ok hrun
  exact ⟨ms, hms, haccepted⟩

/-! ### Values that can be read -/

/-- What stands under the keys of a file can be read: the options are members or pairs, their places texts
that name one, the patterns sequences of texts, and the references texts that mean a file or nothing. -/
structure Declaration.Readable (d : Declaration) : Prop where
  options : ∃ opts, Config.options (Keyed.get? d.members "compilerOptions") = .ok opts ∧
    ∀ key ∈ ["baseUrl", "outDir"], ∀ v, Keyed.get? opts key = some v →
      ∃ s p, v = .text s ∧ locate d.directory s = .ok p
  patterns : ∀ key ∈ ["include", "exclude", "files"], ∀ v, Keyed.get? d.members key = some v →
    ∃ vs, v.items? = some vs ∧ ∀ w ∈ vs, ∃ s, w = .text s
  references : ∃ refs, Config.references d.members = .ok refs ∧
    ∀ v ∈ refs, ∃ s t, v = .text s ∧ referenced d.directory s = .ok t

theorem exists_locateOption_iff {dir : Path} {ms : Json.Members} {key : String} :
    (∃ p, locateOption dir ms key = .ok p) ↔
      ∀ v, Keyed.get? ms key = some v → ∃ s p, v = .text s ∧ locate dir s = .ok p := by
  unfold locateOption
  cases Keyed.get? ms key with
  | none =>
    refine ⟨fun _ => ?_, fun _ => ⟨none, rfl⟩⟩
    rintro v ⟨⟩
  | some v =>
    constructor
    · rintro ⟨p, hp⟩ w ⟨⟩
      cases v with
      | text s =>
        obtain ⟨q, hq, -⟩ := Except.map_eq_ok hp
        exact ⟨s, q, rfl, hq⟩
      | null | bool | int | real | list | object => cases hp
    · intro h
      obtain ⟨s, p, rfl, hp⟩ := h v rfl
      refine ⟨some p, ?_⟩
      show some <$> locate dir s = _
      rw [hp]
      rfl

theorem exists_patternTexts_iff {dir : Path} {vs : List Json.Value} :
    (∃ ss, patternTexts dir vs = .ok ss) ↔ ∀ w ∈ vs, ∃ s, w = .text s := by
  induction vs with
  | nil => exact ⟨fun _ w hw => absurd hw List.not_mem_nil, fun _ => ⟨[], rfl⟩⟩
  | cons v rest ih =>
    rw [List.forall_mem_cons, ← ih]
    constructor
    · rintro ⟨ss, hss⟩
      cases v with
      | text s =>
        obtain ⟨more, hmore, -⟩ := Except.map_eq_ok hss
        exact ⟨⟨s, rfl⟩, more, hmore⟩
      | null | bool | int | real | list | object => cases hss
    · rintro ⟨⟨s, rfl⟩, more, hmore⟩
      exact ⟨anchorPattern dir s :: more, by rw [patternTexts, hmore]; rfl⟩

theorem exists_patterns_iff {dir : Path} {ms : Json.Members} {key : String} :
    (∃ ss, Config.patterns dir ms key = .ok ss) ↔ ∀ v, Keyed.get? ms key = some v →
      ∃ vs, v.items? = some vs ∧ ∀ w ∈ vs, ∃ s, w = .text s := by
  unfold Config.patterns
  cases Keyed.get? ms key with
  | none =>
    refine ⟨fun _ => ?_, fun _ => ⟨none, rfl⟩⟩
    rintro v ⟨⟩
  | some v =>
    constructor
    · rintro ⟨ss, hss⟩ w ⟨⟩
      dsimp only at hss
      split at hss
      case h_1 vs hvs =>
        obtain ⟨texts, htexts, -⟩ := Except.map_eq_ok hss
        exact ⟨vs, hvs, exists_patternTexts_iff.mp ⟨texts, htexts⟩⟩
      case h_2 => cases hss
    · intro h
      obtain ⟨vs, hvs, htexts⟩ := h v rfl
      obtain ⟨texts, hread⟩ : ∃ ss, patternTexts dir vs = .ok ss := exists_patternTexts_iff.mpr htexts
      refine ⟨some texts, ?_⟩
      dsimp only
      rw [hvs]
      show some <$> patternTexts dir vs = _
      rw [hread]
      rfl

/-- A declaration is accepted exactly when its values can be read. -/
theorem accepted_iff_readable {d : Declaration} : d.Accepted ↔ d.Readable := by
  constructor
  · rintro ⟨⟨l, hl⟩, hreferences⟩
    obtain ⟨opts, hopts, hbaseUrl, houtDir, hincluded, hexcluded, hfiles⟩ := Layer.ofMembers_eq_ok hl
    refine ⟨⟨opts, hopts, ?_⟩, ?_, hreferences⟩
    · intro key hkey
      simp only [List.mem_cons, List.not_mem_nil, or_false] at hkey
      rcases hkey with rfl | rfl
      · exact exists_locateOption_iff.mp ⟨_, hbaseUrl⟩
      · exact exists_locateOption_iff.mp ⟨_, houtDir⟩
    · intro key hkey
      simp only [List.mem_cons, List.not_mem_nil, or_false] at hkey
      rcases hkey with rfl | rfl | rfl
      · exact exists_patterns_iff.mp ⟨_, hincluded⟩
      · exact exists_patterns_iff.mp ⟨_, hexcluded⟩
      · exact exists_patterns_iff.mp ⟨_, hfiles⟩
  · rintro ⟨⟨opts, hopts, hplaces⟩, hpatterns, hreferences⟩
    have hplace := fun key hkey => exists_locateOption_iff.mpr (hplaces key hkey)
    have hpattern : ∀ key ∈ ["include", "exclude", "files"],
        ∃ ss, Config.patterns d.directory d.members key = .ok ss :=
      fun key hkey => exists_patterns_iff.mpr (hpatterns key hkey)
    obtain ⟨baseUrl, hbaseUrl⟩ := hplace "baseUrl" (by simp)
    obtain ⟨outDir, houtDir⟩ := hplace "outDir" (by simp)
    obtain ⟨included, hincluded⟩ := hpattern "include" (by simp)
    obtain ⟨excluded, hexcluded⟩ := hpattern "exclude" (by simp)
    obtain ⟨files, hfiles⟩ := hpattern "files" (by simp)
    refine ⟨?_, hreferences⟩
    unfold Layer.ofMembers
    rw [hopts, Except.ok_bind, hbaseUrl, Except.ok_bind, houtDir, Except.ok_bind]
    dsimp only
    rw [hincluded, Except.ok_bind, hexcluded, Except.ok_bind, hfiles, Except.ok_bind]
    exact ⟨_, rfl⟩

/-! ### The faults of a load -/

/-- A value that the aliases of a configuration cannot be read from stands in a declaration that is not
well-shaped. -/
theorem origin_of_ofLayer_error {fs : FileSystem} {fuel : Nat} {seen : List Path} {p : Path}
    {j j' : Journal} {l : Layer} {f : Fault} (hchain : readChain fs fuel seen p j = (.ok l, j'))
    (h : ofLayer p l = .error f) :
    ∃ d : Declaration, Reaches fs p d.path ∧ readMembers fs d.path = .ok d.members ∧ ¬ d.WellShaped := by
  unfold ofLayer at h
  rcases Except.bind_eq_error h with haliases | ⟨as, -, h⟩
  · -- The aliases are those of one file, and could be read if it were well-shaped.
    cases hv : l.aliases with
    | none => rw [hv] at haliases; cases haliases
    | some v =>
      obtain ⟨d, hreach, hread, layer, hlayer, hsaid⟩ :=
        origin_of_readChain (π := Layer.aliases) ⟨rfl, fun _ _ => rfl⟩ hchain hv
      refine ⟨d, hreach, hread, fun hwell => ?_⟩
      cases hlayer.symm.trans hwell.ofMembers_eq
      rw [hv, ← hsaid, show aliasesOf (d.option "paths") = _ from hwell.aliasesOf_eq] at haliases
      cases haliases
  rcases Except.bind_eq_error h with hbase | ⟨base, -, h⟩
  · cases hv : l.aliasBase with
    | none => rw [hv] at hbase; cases hbase
    | some v =>
      obtain ⟨d, hreach, hread, layer, hlayer, hsaid⟩ :=
        origin_of_readChain (π := Layer.aliasBase) ⟨rfl, fun _ _ => rfl⟩ hchain hv
      refine ⟨d, hreach, hread, fun hwell => ?_⟩
      cases hlayer.symm.trans hwell.ofMembers_eq
      obtain ⟨_, -, htext⟩ := Option.map_eq_some_iff.mp hsaid
      rw [hv, ← htext] at hbase
      unfold aliasBaseOf at hbase
      dsimp only at hbase
      split at hbase <;> cases hbase
  · cases h

/-- A configuration whose chain can be read file by file and does not close on itself is loaded, or fails with
what is not reported. -/
theorem load_unreported {fs : FileSystem} {cwd p : Path} {name : String} (hp : locate cwd name = .ok p)
    (hread : ∀ q, Reaches fs p q → ∃ ms, readMembers fs q = .ok ms)
    (hacyclic : ∀ q, Reaches fs p q → ¬ TransGen (Extends fs) q q) {j j' : Journal} {f : Fault}
    (h : load fs cwd name j = (.error f, j')) : f.isReported = false := by
  unfold load at h
  rw [hp, Journaled.ofExcept_ok_bind] at h
  rcases Journaled.bind_eq_error h with h | ⟨l, j₁, -, h⟩
  · exact readChain_unreported hread (.start hacyclic) h
  · exact ofLayer_unforeseen p l f (Journaled.ofExcept_eq_error h)

/-- All files of the chain of a loaded configuration are accepted. -/
theorem accepted_of_load {fs : FileSystem} {cwd p : Path} {name : String} (hp : locate cwd name = .ok p)
    {j j' : Journal} {c : Config} (h : load fs cwd name j = (.ok c, j')) {q : Path} (hq : Reaches fs p q) :
    ∃ ms, readMembers fs q = .ok ms ∧ (Declaration.mk q ms).Accepted := by
  unfold load at h
  rw [hp, Journaled.ofExcept_ok_bind] at h
  obtain ⟨l, j₁, hchain, -⟩ := Journaled.bind_eq_ok h
  exact accepted_of_readChain hchain hq

/-- A load fails with what is reported, unless the name holds the null character, a number in a file of the
chain has too many digits, or a file of the chain is not well-shaped. Where all files of a chain are there and
none extends itself, it fails with what is not reported for every file with a value that cannot be read. -/
theorem load_faults (fs : FileSystem) (cwd : Path) (name : String) :
    (∀ j f j', load fs cwd name j = (.error f, j') → f.isReported = false →
      locate cwd name = .error f ∨ ∃ p q, locate cwd name = .ok p ∧ Reaches fs p q ∧
        (readMembers fs q = .error .tooManyDigits ∨
          ∃ ms, readMembers fs q = .ok ms ∧ ¬ (Declaration.mk q ms).WellShaped)) ∧
    ∀ p, locate cwd name = .ok p → (∀ q, Reaches fs p q → ∃ ms, readMembers fs q = .ok ms) →
      (∀ q, Reaches fs p q → ¬ TransGen (Extends fs) q q) →
      ∀ q ms, Reaches fs p q → readMembers fs q = .ok ms → ¬ (Declaration.mk q ms).Readable →
        ∀ j, ∃ f j', load fs cwd name j = (.error f, j') ∧ f.isReported = false := by
  constructor
  · intro j f j' h hf
    unfold load at h
    rcases Journaled.bind_eq_error h with h | ⟨p, j₁, hp, h⟩
    · exact .inl (Journaled.ofExcept_eq_error h)
    have hp := (Journaled.ofExcept_eq_ok hp).1
    rcases Journaled.bind_eq_error h with h | ⟨l, j₂, hchain, h⟩
    · obtain ⟨q, hq, hcause⟩ := origin_of_fault h hf
      refine .inr ⟨p, q, hp, hq, hcause.imp id ?_⟩
      exact fun ⟨ms, hms, hbad⟩ => ⟨ms, hms, fun hwell => hbad hwell.accepted⟩
    · obtain ⟨d, hreach, hread, hbad⟩ := origin_of_ofLayer_error hchain (Journaled.ofExcept_eq_error h)
      exact .inr ⟨p, d.path, hp, hreach, .inr ⟨d.members, hread, hbad⟩⟩
  · intro p hp hread hacyclic q ms hq hms hbad j
    cases hrun : load fs cwd name j with
    | mk r j' =>
      cases r with
      | error f => exact ⟨f, j', rfl, load_unreported hp hread hacyclic hrun⟩
      | ok c =>
        -- A load that succeeds has read the value.
        obtain ⟨ms', hms', haccepted⟩ := accepted_of_load hp hrun hq
        cases hms.symm.trans hms'
        exact absurd (accepted_iff_readable.mp haccepted) hbad

/-- A configuration with a number where a list of patterns should be. -/
def numberDisk : FileSystem :=
  FileSystem.empty.place (.ofString "/p/tsconfig.json")
    (.file (Bytes.ofString "\x7b\"include\": 5\x7d"))

theorem numberDisk_fails : ∃ f j',
    load numberDisk (.ofString "/p") "tsconfig.json" [] = (.error f, j') ∧ f.isReported = false ∧
      (locate (.ofString "/p") "tsconfig.json" = .error f ∨
        ∃ p q, locate (.ofString "/p") "tsconfig.json" = .ok p ∧ Reaches numberDisk p q ∧
          (readMembers numberDisk q = .error .tooManyDigits ∨
            ∃ ms, readMembers numberDisk q = .ok ms ∧ ¬ (Declaration.mk q ms).WellShaped)) := by
  have hread : ((readMembers numberDisk (.ofString "/p/tsconfig.json")).toOption.any fun ms =>
      (Declaration.mk (.ofString "/p/tsconfig.json") ms).parents.isEmpty &&
        (Keyed.get? ms "include").any fun v => v.items?.isNone) = true := by
    decide +kernel
  obtain ⟨ms, hms, hwell⟩ := (Option.any_eq_true _ _).mp hread
  obtain ⟨hparents, hinclude⟩ := (Bool.and_eq_true _ _).mp hwell
  obtain ⟨v, hv, hnone⟩ := (Option.any_eq_true _ _).mp hinclude
  have hms : readMembers numberDisk (.ofString "/p/tsconfig.json") = .ok ms := by
    cases hr : readMembers numberDisk (.ofString "/p/tsconfig.json") with
    | error f => rw [hr] at hms; cases hms
    | ok ms' => rw [hr] at hms; exact congrArg Except.ok (Option.some.inj hms)
  have hlast : ∀ r, ¬ Extends numberDisk (.ofString "/p/tsconfig.json") r := by
    rintro r ⟨ms', hms', hr⟩
    cases hms.symm.trans hms'
    rw [List.isEmpty_iff.mp hparents] at hr
    cases hr
  have halone : ∀ q, Reaches numberDisk (.ofString "/p/tsconfig.json") q →
      q = .ofString "/p/tsconfig.json" := by
    intro q hq
    rcases ReflTransGen.cases_head hq with heq | ⟨r, hr, -⟩
    · exact heq.symm
    · exact absurd hr (hlast r)
  obtain ⟨hcause, hfails⟩ := load_faults numberDisk (.ofString "/p") "tsconfig.json"
  obtain ⟨f, j', hrun, hf⟩ := hfails (.ofString "/p/tsconfig.json") (by decide +kernel)
    (fun q hq => ⟨ms, halone q hq ▸ hms⟩)
    (fun q hq hcycle => by
      obtain ⟨r, hr, -⟩ := TransGen.head'_iff.mp hcycle
      exact hlast r (halone q hq ▸ hr))
    _ ms .refl hms
    (fun hreadable => by
      obtain ⟨vs, hvs, -⟩ := hreadable.patterns "include" (by simp) v hv
      rw [hvs] at hnone
      cases hnone) []
  exact ⟨f, j', hrun, hf, hcause _ _ _ hrun hf⟩

/-- Loading that configuration fails with a fault that is not reported. -/
theorem number_for_patterns_unreported : ∃ j',
    load numberDisk (.ofString "/p") "tsconfig.json" [] = (.error (.wrongShape .sequence), j') ∧
      Fault.isReported (.wrongShape .sequence) = false := by
  have hfails : Journaled.failsWith (fun f => decide (f = .wrongShape .sequence))
      (load numberDisk (.ofString "/p") "tsconfig.json") [] = true := by decide +kernel
  obtain ⟨f, j', hrun, hf⟩ := Journaled.exists_run_of_failsWith hfails
  obtain rfl := of_decide_eq_true hf
  exact ⟨j', hrun, rfl⟩

end Codemod.Config
