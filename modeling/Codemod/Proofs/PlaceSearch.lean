import Codemod.Proofs.Declarations
import Codemod.Proofs.RootedResolution

/-!
# Looking a place up

A place that a specifier may mean is looked up under several names, one after the other: its own, those of the
sources that a file of this name may be emitted from, its name with an extension behind it, and the index files
below it. Every one of these names can be formed unless the place has no name at all, as the root, or its name is
the end of an emitted file with nothing or a dot before it, so that no name is left without this end. Such a
place is refused when it is reached, and with it all that the importing file asks for.

Main statements:

* `Resolution.firstKnown_place` says what the candidates of one place lead to;
* `Resolution.resolve_eq_search` says that a specifier is resolved by looking up one place after the other;
* `Resolution.exists_places_error_iff` says when the places of a specifier cannot be found out;
* `Resolution.unresolvable_iff` says exactly which specifiers cannot be resolved;
* `Resolution.bare_end_refused` gives two of them.
-/

namespace Codemod.Resolution

/-! ### The names of one place -/

/-- The sources that a file at a place may be emitted from. -/
def sourceTries (p : Path) : List Path :=
  emitted.flatMap fun e =>
    match Text.dropSuffix? e.1 p.name with
    | none => []
    | some base => e.2.map fun ext => p.replaceName (base ++ ext)

/-- The files that a place is looked up as: itself if it has the extension of a source, the sources that it may
be emitted from, its name with each extension behind it, and its index files. -/
def tries (exts : List String) (p : Path) : List Path :=
  (if p.extension ∈ exts then [p] else []) ++
    sourceTries p ++
    exts.map (fun ext => p.replaceName (p.name ++ ext)) ++
    exts.map fun ext => p.child (indexName ++ ext)

/-- Why a place is refused, if it is: it has no name, or nothing but a dot is left of its name without the end
of an emitted file. Before a dot is found to be left, the place itself is looked up, if it has the extension of a
source. -/
def refusal? (known : Path → Bool) (exts : List String) (p : Path) : Option Fault :=
  if p.name = "" then some (.unnamedPath p)
  else if p.name ∈ emitted.map (·.1) then some (.invalidName "")
  else if p.name ∈ emitted.map ("." ++ ·.1) ∧ ¬ (p.extension ∈ exts ∧ known p = true) then
    some (.invalidName ".")
  else none

variable {known : Path → Bool} {exts : List String} {p : Path}

/-- A name that is more than the end of an emitted file has sources that it may be emitted from. -/
theorem sourceCandidates_eq (hname : p.name ≠ "") (hbare : p.name ∉ emitted.map (·.1))
    (hdot : p.name ∉ emitted.map ("." ++ ·.1)) : sourceCandidates p = (sourceTries p).map .ok := by
  unfold sourceCandidates sourceTries
  rw [List.map_flatMap]
  refine List.flatMap_congr fun e he => ?_
  cases hbase : Text.dropSuffix? e.1 p.name with
  | none => rfl
  | some base =>
    have hwhole : p.name = base ++ e.1 := Text.dropSuffix?_eq_some_iff.mp hbase
    have hne : base ≠ "" := by
      rintro rfl
      rw [String.empty_append] at hwhole
      exact hbare (hwhole ▸ List.mem_map_of_mem he)
    have hdots : base ≠ "." := by
      rintro rfl
      exact hdot (hwhole ▸ List.mem_map_of_mem he)
    have hstem : renamed p base = .ok (p.replaceName base) := renamed_of_name hname hne hdots
    simp only [hstem, List.map_map]
    refine List.map_congr_left fun ext hext => ?_
    -- The extension of a source is no empty text, so that the new name is neither empty nor a dot.
    have hlong : ∀ e ∈ emitted, ∀ ext ∈ e.2, 2 ≤ ext.length := by decide
    have hlength := hlong e he ext hext
    have hnew : ∀ s : String, s.length ≤ 1 → base ++ ext ≠ s := by
      rintro s hs rfl
      rw [String.length_append] at hs
      omega
    rw [Path.name_replaceName, Function.comp_apply, renamed_of_name (by rwa [Path.name_replaceName])
      (hnew _ (by decide)) (hnew _ (by decide)), Path.replaceName_replaceName]

/-- A name that is the end of an emitted file, alone or behind a dot, has no source: none could be named. -/
theorem sourceCandidates_of_left {left : String} (hleft : left ∈ ["", "."])
    (h : p.name ∈ emitted.map (left ++ ·.1)) : sourceCandidates p = [.error (.invalidName left)] := by
  obtain ⟨e, he, hname⟩ := List.mem_map.mp h
  have hne : p.name ≠ "" := by
    have hall : ∀ left ∈ ["", "."], ∀ e ∈ emitted, left ++ e.1 ≠ "" := by decide
    exact hname ▸ hall left hleft e he
  -- No emitted file has a name that ends with two of the ends.
  have hsplit : ∀ left ∈ ["", "."], ∀ e ∈ emitted, ∀ e' ∈ emitted,
      Text.dropSuffix? e'.1 (left ++ e.1) = if e' = e then some left else none := by decide
  have hrenamed : renamed p left = .error (.invalidName left) := by
    unfold renamed
    rw [if_neg hne, if_pos (by simpa using hleft)]
  have hone : ∀ e ∈ emitted, emitted.flatMap (fun e' => if e' = e then [left] else []) = [left] := by
    simp [emitted]
  calc sourceCandidates p
      = emitted.flatMap fun e' => (if e' = e then [left] else []).map fun l => .error (.invalidName l) := by
        refine List.flatMap_congr fun e' he' => ?_
        rw [← hname, hsplit left hleft e he e' he']
        split_ifs
        · simp only [hrenamed, List.map_cons, List.map_nil]
        · rfl
    _ = (emitted.flatMap fun e' => if e' = e then [left] else []).map fun l => .error (.invalidName l) :=
        List.map_flatMap.symm
    _ = [.error (.invalidName left)] := by rw [hone e he]; rfl

/-! ### One place after the other -/

theorem firstKnown_append (known : Path → Bool) (before after : List Candidate) :
    firstKnown known (before ++ after) =
      match firstKnown known before with
      | .ok none => firstKnown known after
      | found => found := by
  induction before with
  | nil => rfl
  | cons x rest ih =>
    cases x with
    | error f => rfl
    | ok q =>
      rw [List.cons_append, firstKnown, firstKnown]
      split
      · rfl
      · exact ih

/-- Where every candidate can be formed, the first one that is known is found. -/
theorem firstKnown_map_ok (known : Path → Bool) (l : List Path) :
    firstKnown known (l.map .ok) = .ok (l.find? known) := by
  induction l with
  | nil => rfl
  | cons q rest ih =>
    rw [List.map_cons, firstKnown, List.find?_cons]
    split
    case isTrue h => rw [h]
    case isFalse h => rw [Bool.eq_false_iff.mpr h, ih]

/-- The extension of a name that nothing is left of. -/
theorem extension_of_bare (h : p.name = "" ∨ p.name ∈ emitted.map (·.1)) : p.extension = "" := by
  have hall : ∀ name ∈ "" :: emitted.map (·.1), String.ofList (Path.splitName name.toList).2 = "" := by decide
  exact hall p.name (List.mem_cons.mpr h)

theorem own_candidate (exts : List String) (p : Path) :
    (if exts.contains p.extension then [(.ok p : Candidate)] else []) =
      (if p.extension ∈ exts then [p] else []).map .ok := by
  simp only [List.contains_iff_mem]
  split <;> rfl

/-- Every name that a place with a name to spare is looked up under can be formed. -/
theorem placeCandidates_eq (hempty : "" ∉ exts) (hname : p.name ≠ "") (hbare : p.name ∉ emitted.map (·.1))
    (hdot : p.name ∉ emitted.map ("." ++ ·.1)) : placeCandidates exts p = (tries exts p).map .ok := by
  have hnew : ∀ ext ∈ exts, renamed p (p.name ++ ext) = .ok (p.replaceName (p.name ++ ext)) := by
    intro ext hext
    have hlong : p.name.length ≠ 0 ∧ ext.length ≠ 0 := by
      rw [ne_eq, ne_eq, String.length_eq_zero_iff, String.length_eq_zero_iff]
      exact ⟨hname, fun h => hempty (h ▸ hext)⟩
    have hdiffer : ∀ s : String, s.length ≤ 1 → p.name ++ ext ≠ s := by
      rintro s hs rfl
      rw [String.length_append] at hs
      omega
    exact renamed_of_name hname (hdiffer _ (by decide)) (hdiffer _ (by decide))
  unfold placeCandidates tries
  rw [own_candidate, sourceCandidates_eq hname hbare hdot, List.map_congr_left hnew]
  simp only [List.map_append, List.map_map, Function.comp_def]

/-- What the candidates of one place lead to: a refused place ends the search, any other one is looked up under
its names. -/
theorem firstKnown_place (hne : exts ≠ []) (hempty : "" ∉ exts) (known : Path → Bool) (p : Path) :
    firstKnown known (placeCandidates exts p) =
      match refusal? known exts p with
      | some f => .error f
      | none => .ok ((tries exts p).find? known) := by
  unfold refusal?
  by_cases hname : p.name = ""
  · -- No emitted file has an empty name, so that the first extension is reached.
    have hsources : sourceCandidates p = [] := by
      have hnone : ∀ e ∈ emitted, Text.dropSuffix? e.1 "" = none := by decide
      unfold sourceCandidates
      rw [List.flatMap_eq_nil_iff]
      intro e he
      rw [hname, hnone e he]
    obtain ⟨ext, rest, rfl⟩ := List.exists_cons_of_ne_nil hne
    have hext : p.extension ∉ ext :: rest := by rwa [extension_of_bare (.inl hname)]
    unfold placeCandidates
    rw [if_pos hname, own_candidate, if_neg hext, hsources, List.map_cons, renamed, if_pos hname]
    rfl
  rw [if_neg hname]
  by_cases hbare : p.name ∈ emitted.map (·.1)
  · have hsources : sourceCandidates p = [.error (.invalidName "")] :=
      sourceCandidates_of_left (by decide) (by simpa using hbare)
    have hext : p.extension ∉ exts := by rwa [extension_of_bare (.inr hbare)]
    unfold placeCandidates
    rw [if_pos hbare, own_candidate, if_neg hext, hsources]
    rfl
  rw [if_neg hbare]
  by_cases hdot : p.name ∈ emitted.map ("." ++ ·.1)
  · have hsources := sourceCandidates_of_left (by decide) hdot
    unfold placeCandidates tries
    rw [own_candidate, hsources]
    by_cases hext : p.extension ∈ exts
    · by_cases hknown : known p = true
      · -- The place itself comes first and is found.
        simp [hext, firstKnown, hknown]
      · simp [hdot, hext, firstKnown, hknown]
    · simp [hdot, hext, firstKnown]
  · rw [if_neg fun h => hdot h.1, placeCandidates_eq hempty hname hbare hdot, firstKnown_map_ok]

/-- Looks places up, one after the other, until a file is found or a place is refused. -/
def search (known : Path → Bool) (exts : List String) : List Path → Except Fault (Option Path)
  | [] => .ok none
  | p :: rest =>
    match refusal? known exts p with
    | some f => .error f
    | none =>
      match (tries exts p).find? known with
      | some t => .ok (some t)
      | none => search known exts rest

theorem firstKnown_places (hne : exts ≠ []) (hempty : "" ∉ exts) (known : Path → Bool) (ps : List Path) :
    firstKnown known (ps.flatMap (placeCandidates exts)) = search known exts ps := by
  induction ps with
  | nil => rfl
  | cons p rest ih =>
    rw [List.flatMap_cons, firstKnown_append, firstKnown_place hne hempty, ih, search]
    cases refusal? known exts p with
    | some f => rfl
    | none => cases (tries exts p).find? known <;> rfl

theorem extensions_ne_nil (c : Config) : extensions c ≠ [] := by
  unfold extensions
  simp

theorem empty_not_mem_extensions (c : Config) : "" ∉ extensions c := fun h =>
  absurd (RootedSpecifier.extensions_long c _ h) (by decide)

/-- A specifier is resolved by looking up the places that it may mean, one after the other. -/
theorem resolve_eq_search (c : Config) (known : Path → Bool) (importer : Path) (spec : String) :
    resolve c known importer spec =
      places c importer spec >>= fun ps => search known (extensions c) (ps.map Path.normalize) := by
  unfold resolve candidates
  cases places c importer spec with
  | error f => rfl
  | ok ps =>
    show firstKnown known (ps.flatMap fun p => placeCandidates (extensions c) p.normalize) =
      search known (extensions c) (ps.map Path.normalize)
    rw [← firstKnown_places (extensions_ne_nil c) (empty_not_mem_extensions c), List.flatMap_map]

/-- A search ends with a fault exactly where it comes to a refused place, all places before it having been
looked up in vain. -/
theorem search_error_iff {ps : List Path} {f : Fault} : search known exts ps = .error f ↔
    ∃ before p after, ps = before ++ p :: after ∧ refusal? known exts p = some f ∧
      ∀ q ∈ before, refusal? known exts q = none ∧ ∀ t ∈ tries exts q, known t = false := by
  induction ps with
  | nil => simp [search]
  | cons p rest ih =>
    have hvain : (tries exts p).find? known = none ↔ ∀ t ∈ tries exts p, known t = false := by
      simp [List.find?_eq_none]
    unfold search
    constructor
    · intro h
      cases hp : refusal? known exts p with
      | some g =>
        rw [hp] at h
        exact ⟨[], p, rest, rfl, by rw [hp]; exact congrArg some (Except.error.inj h), by simp⟩
      | none =>
        rw [hp] at h
        cases hfound : (tries exts p).find? known with
        | some t => rw [hfound] at h; cases h
        | none =>
          rw [hfound] at h
          obtain ⟨before, q, after, rfl, hq, hbefore⟩ := ih.mp h
          refine ⟨p :: before, q, after, rfl, hq, ?_⟩
          exact List.forall_mem_cons.mpr ⟨⟨hp, hvain.mp hfound⟩, hbefore⟩
    · rintro ⟨before, q, after, hsplit, hq, hbefore⟩
      cases before with
      | nil =>
        obtain ⟨rfl, rfl⟩ := List.cons.inj hsplit
        rw [hq]
      | cons r before =>
        obtain ⟨rfl, rfl⟩ := List.cons.inj hsplit
        obtain ⟨⟨hp, hnone⟩, hbefore⟩ := List.forall_mem_cons.mp hbefore
        rw [hp]
        simp only [hvain.mpr hnone]
        exact ih.mpr ⟨before, q, after, rfl, hq, hbefore⟩

/-! ### Places that cannot be found out -/

/-- A bare specifier starts neither from the directory of the importing file nor from the root. -/
def IsBare (spec : String) : Prop :=
  isRelative spec = false ∧ spec ≠ "." ∧ spec ≠ ".." ∧ Text.hasPrefix "/" spec = false

instance (spec : String) : Decidable (IsBare spec) :=
  inferInstanceAs (Decidable (_ ∧ _ ∧ _ ∧ _))

/-- Steps that may give nothing are steps of which some results are left out. -/
theorem filterMapM_eq {ε α β : Type} (k : α → Except ε (Option β)) (l : List α) :
    l.filterMapM k = (fun r => r.filterMap id) <$> l.mapM k := by
  induction l with
  | nil => rfl
  | cons a rest ih =>
    rw [List.filterMapM_cons, List.mapM_cons, ih]
    cases k a with
    | error e => rfl
    | ok b =>
      cases b <;> cases rest.mapM k <;> rfl

/-- The place that a target means is found out exactly where the target is a text. -/
theorem exists_targetPlace_iff {base : Path} {captured : Option (List Char)} {v : Json.Value} :
    (∃ p, targetPlace base captured v = .ok p) ↔ v.text?.isSome = true := by
  cases v <;> cases captured <;> simp [targetPlace, Json.Value.text?]

/-- The places of an alias, if it stands for the specifier. -/
def expansion (c : Config) (spec : String) (a : String × List Json.Value) :
    Except Fault (Option (Nat × List Path)) :=
  match aliasMatch? a.1.toList spec.toList with
  | none => .ok none
  | some (rank, captured) => do
    let places ← a.2.mapM (targetPlace (c.aliasBase.getD c.root) captured)
    return some (rank, places)

theorem aliasPlaces_eq (c : Config) (spec : String) : aliasPlaces c spec =
    (fun found => (byRank (found.filterMap id)).flatMap (·.2)) <$> c.aliases.mapM (expansion c spec) := by
  show (c.aliases.filterMapM (expansion c spec) >>= fun found =>
    .ok ((byRank found).flatMap (·.2))) = _
  rw [filterMapM_eq]
  cases c.aliases.mapM (expansion c spec) <;> rfl

theorem exists_expansion_iff {c : Config} {spec : String} {a : String × List Json.Value} :
    (∃ r, expansion c spec a = .ok r) ↔
      ((aliasMatch? a.1.toList spec.toList).isSome = true → ∀ v ∈ a.2, v.text?.isSome = true) := by
  unfold expansion
  cases aliasMatch? a.1.toList spec.toList with
  | none => simp
  | some m =>
    have htexts := Except.exists_mapM_iff (l := a.2) (k := targetPlace (c.aliasBase.getD c.root) m.2)
    simp only [exists_targetPlace_iff] at htexts
    simp only [Option.isSome_some, forall_const, ← htexts]
    constructor
    · rintro ⟨r, hr⟩
      obtain ⟨ps, hps, -⟩ := Except.bind_eq_ok hr
      exact ⟨ps, hps⟩
    · rintro ⟨ps, hps⟩
      exact ⟨some (m.1, ps), by rw [hps]; rfl⟩

theorem exists_error_iff {ε α : Type} {x : Except ε α} : (∃ e, x = .error e) ↔ ¬ ∃ a, x = .ok a := by
  cases x <;> simp

/-- The places of a specifier cannot be found out exactly where it is a bare one and an alias that stands for it has
a target that is no text. -/
theorem exists_places_error_iff {c : Config} {importer : Path} {spec : String} :
    (∃ f, places c importer spec = .error f) ↔ IsBare spec ∧ ∃ a ∈ c.aliases,
      (aliasMatch? a.1.toList spec.toList).isSome = true ∧ ∃ v ∈ a.2, v.text?.isSome = false := by
  have haliases : (∃ ps, aliasPlaces c spec = .ok ps) ↔ ∀ a ∈ c.aliases,
      (aliasMatch? a.1.toList spec.toList).isSome = true → ∀ v ∈ a.2, v.text?.isSome = true := by
    rw [aliasPlaces_eq, ← forall₂_congr fun a _ => exists_expansion_iff (c := c), ← Except.exists_mapM_iff]
    cases c.aliases.mapM (expansion c spec) <;> simp
  unfold places IsBare
  by_cases hlocal : (isRelative spec || spec = "." || spec = "..") = true
  · rw [if_pos hlocal]
    refine iff_of_false (by simp) ?_
    rintro ⟨⟨hrelative, hdot, hdots, -⟩, -⟩
    simp [hrelative, hdot, hdots] at hlocal
  rw [if_neg hlocal]
  have hbare : isRelative spec = false ∧ spec ≠ "." ∧ spec ≠ ".." := by
    simpa [and_assoc] using hlocal
  by_cases hroot : Text.hasPrefix "/" spec = true
  · rw [if_pos hroot]
    refine iff_of_false (by simp) ?_
    rintro ⟨⟨-, -, -, hnone⟩, -⟩
    rw [hroot] at hnone
    cases hnone
  · have hplaces : (∃ ps, (do
        let aliased ← aliasPlaces c spec
        return aliased ++ (c.baseUrl.map (·.joinText spec)).toList : Except Fault (List Path)) = .ok ps) ↔
        ∃ ps, aliasPlaces c spec = .ok ps := by
      cases aliasPlaces c spec <;> simp [bind, Except.bind, pure, Except.pure]
    rw [if_neg hroot, exists_error_iff, hplaces, haliases]
    simp only [not_forall, Bool.not_eq_true, hbare, Bool.eq_false_iff.mpr hroot, ne_eq, not_false_eq_true,
      and_self, true_and, exists_prop]

/-- Resolving fails exactly where the places of the specifier cannot be found out, or one of them is refused after all
places before it were looked up in vain. -/
theorem resolve_error_iff {c : Config} {importer : Path} {spec : String} {f : Fault} :
    resolve c known importer spec = .error f ↔ places c importer spec = .error f ∨
      ∃ before p after, places c importer spec = .ok (before ++ p :: after) ∧
        refusal? known (extensions c) p.normalize = some f ∧
        ∀ q ∈ before, refusal? known (extensions c) q.normalize = none ∧
          ∀ t ∈ tries (extensions c) q.normalize, known t = false := by
  rw [resolve_eq_search]
  cases places c importer spec with
  | error g =>
    show (.error g : Except Fault (Option Path)) = .error f ↔ _
    constructor
    · rintro ⟨⟩
      exact .inl rfl
    · rintro (h | ⟨before, p, after, h, -⟩)
      · cases h
        rfl
      · cases h
  | ok ps =>
    rw [Except.ok_bind, search_error_iff]
    constructor
    · rintro ⟨before, q, after, hsplit, hq, hbefore⟩
      obtain ⟨first, others, rfl, rfl, hothers⟩ := List.map_eq_append_iff.mp hsplit
      obtain ⟨p, rest, rfl, rfl, rfl⟩ := List.map_eq_cons_iff.mp hothers
      exact .inr ⟨first, p, rest, rfl, hq, fun r hr => hbefore _ (List.mem_map_of_mem hr)⟩
    · rintro (h | ⟨before, p, after, h, hp, hbefore⟩)
      · cases h
      · refine ⟨before.map Path.normalize, p.normalize, after.map Path.normalize, ?_, hp, ?_⟩
        · rw [Except.ok.inj h, List.map_append, List.map_cons]
        · intro r hr
          obtain ⟨q, hq, rfl⟩ := List.mem_map.mp hr
          exact hbefore q hq

/-- A specifier that is resolved means a file of the project or none. It cannot be resolved exactly where an alias
that stands for it has a target that is no text, or where the search comes to a place that is refused. -/
theorem unresolvable_iff (c : Config) (known : Path → Bool) (importer : Path) (spec : String) :
    (∀ p, resolve c known importer spec = .ok (some p) → known p = true) ∧
    (∀ f, resolve c known importer spec = .error f ↔ places c importer spec = .error f ∨
      ∃ before p after, places c importer spec = .ok (before ++ p :: after) ∧
        refusal? known (extensions c) p.normalize = some f ∧
        ∀ q ∈ before, refusal? known (extensions c) q.normalize = none ∧
          ∀ t ∈ tries (extensions c) q.normalize, known t = false) ∧
    ((∃ f, places c importer spec = .error f) ↔ IsBare spec ∧ ∃ a ∈ c.aliases,
      (aliasMatch? a.1.toList spec.toList).isSome = true ∧ ∃ v ∈ a.2, v.text?.isSome = false) := by
  refine ⟨fun p h => resolve_mem h, fun f => resolve_error_iff, exists_places_error_iff⟩

/-! ### Specifiers that cannot be resolved -/

/-- A place in a project of two files. -/
def pairPath (name : String) : Path := ⟨.root, ["p", "src", name]⟩

/-- A file that imports its neighbour, and the end of an emitted file. -/
def pairImporter : SourceFile :=
  ⟨pairPath "main.ts", .typescript, Bytes.ofString "import { x } from \"./x\";\nimport \"./.js\";\n", false⟩

/-- The project of these files. One of its aliases has two targets, and one a target that is no text. -/
def pairProject : Workspace :=
  { disk := .empty
    config := ⟨⟨.root, ["p", "tsconfig.json"]⟩, none,
      [("@/*", [.text "lib/*", .text "src/*"]), ("five", [.int 5])], none, false, ["**/*"], [], [], none⟩
    files := [⟨pairPath "x.ts", .typescript, [], false⟩, pairImporter] }

theorem pairProject_outcomes :
    resolve pairProject.config pairProject.knows pairImporter.path "@/x" = .ok (some (pairPath "x.ts")) ∧
    pairProject.knows (pairPath "x.ts") = true ∧
    resolve pairProject.config pairProject.knows pairImporter.path "@/.js" = .error (.invalidName "") ∧
    ∃ f, resolve pairProject.config pairProject.knows pairImporter.path "five" = .error f := by
  have hfound : resolve pairProject.config pairProject.knows pairImporter.path "@/x" =
      .ok (some (pairPath "x.ts")) := by decide +kernel
  refine ⟨hfound, (unresolvable_iff _ _ _ _).1 _ hfound, ?_, ?_⟩
  · -- The first target is refused, so that the second one is not come to.
    refine ((unresolvable_iff _ _ _ _).2.1 _).mpr (.inr ⟨[], ⟨.root, ["p", "lib", ".js"]⟩,
      [⟨.root, ["p", "src", ".js"]⟩], ?_, ?_, ?_⟩)
    · decide +kernel
    · decide +kernel
    · simp
  · obtain ⟨f, hf⟩ := (unresolvable_iff pairProject.config pairProject.knows pairImporter.path "five").2.2.mpr
      ⟨by decide, ("five", [.int 5]), by simp [pairProject], by decide, .int 5, by simp, rfl⟩
    exact ⟨f, ((unresolvable_iff _ _ _ _).2.1 f).mpr (.inl hf)⟩

/-- Neither the root nor the end of an emitted file can be resolved, though no file of the project is meant; and
with the specifier that means a neighbour all work on the importing file fails. -/
theorem bare_end_refused :
    pairProject.resolve pairImporter.path "/" = .error (.unnamedPath .root) ∧
    pairProject.resolve pairImporter.path "./.js" = .error (.invalidName "") ∧
    pairProject.resolve pairImporter.path "./x" = .ok (some (pairPath "x.ts")) ∧
    (RootedImport.plan pairImporter (pairProject.resolve pairImporter.path) "src"
      pairProject.config.root).outcome = .error (.invalidName "") := by
  decide +kernel

end Codemod.Resolution
