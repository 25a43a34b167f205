import Codemod.Proofs.AnchoredPattern
import Codemod.Proofs.PlaceSearch

/-!
# Resolution as a first match

All files that a specifier may mean stand in one list, which the configuration, the directory of the importing
file and the specifier determine, and not the project. The specifier is resolved to the first file of the list
that belongs to the project. From this one reads off what happens when a file is added to the project or taken
away, and which specifiers mean the same.

Main statements:

* `Resolution.byRank_eq` says in which order aliases are tried;
* `Resolution.aliasMatch?_eq_some_iff` says which specifiers a pattern stands for;
* `Resolution.places_eq_bases` says which places a specifier may mean;
* `Resolution.first_match_in_fixed_order` says that resolution takes the first match.
-/

namespace Codemod.Resolution

/-! ### The order of aliases -/

section Rank

variable {α : Type} {x : Nat × α} {l : List (Nat × α)}

theorem insertByRank_append {first : List (Nat × α)} (h : ∀ y ∈ first, x.1 ≤ y.1) (second : List (Nat × α)) :
    insertByRank x (first ++ second) = first ++ insertByRank x second := by
  induction first with
  | nil => rfl
  | cons y rest ih =>
    obtain ⟨hy, hrest⟩ := List.forall_mem_cons.mp h
    rw [List.cons_append, insertByRank, if_neg (by omega), ih hrest]
    rfl

theorem insertByRank_of_lt (h : ∀ y ∈ l, y.1 < x.1) : insertByRank x l = x :: l := by
  cases l with
  | nil => rfl
  | cons y rest => rw [insertByRank, if_pos (h y (List.mem_cons_self ..))]

/-- The items of each rank in their given order, the ranks in the order of a list. -/
def bucketed (ranks : List Nat) (l : List (Nat × α)) : List (Nat × α) :=
  ranks.flatMap fun n => l.filter (·.1 = n)

theorem rank_mem_of_bucketed {ranks : List Nat} {y : Nat × α} (h : y ∈ bucketed ranks l) : y.1 ∈ ranks := by
  obtain ⟨n, hn, hy⟩ := List.mem_flatMap.mp h
  obtain rfl : y.1 = n := by simpa using (List.mem_filter.mp hy).2
  exact hn

/-- An item comes behind those of its rank and before those of lower ranks. -/
theorem insertByRank_bucketed {ranks : List Nat} (hranks : ranks.Pairwise (· > ·)) (hx : x.1 ∈ ranks) :
    insertByRank x (bucketed ranks l) = bucketed ranks (l ++ [x]) := by
  induction ranks with
  | nil => cases hx
  | cons n rest ih =>
    obtain ⟨hn, hrest⟩ := List.pairwise_cons.mp hranks
    have hbucket : ∀ y ∈ l.filter (·.1 = n), y.1 = n := by
      intro y hy
      simpa using (List.mem_filter.mp hy).2
    have hlow : x.1 ≤ n := by
      rcases List.mem_cons.mp hx with h | h
      · omega
      · have := hn x.1 h
        omega
    unfold bucketed at ih ⊢
    rw [List.flatMap_cons, List.flatMap_cons, List.filter_append,
      insertByRank_append fun y hy => by rw [hbucket y hy]; exact hlow]
    by_cases hsame : x.1 = n
    · -- All other buckets hold lower ranks, and none of them takes the item.
      have hlower : ∀ m ∈ rest, (l ++ [x]).filter (·.1 = m) = l.filter (·.1 = m) := by
        intro m hm
        have hne : x.1 ≠ m := by
          have := hn m hm
          omega
        simp [List.filter_append, hne]
      rw [List.flatMap_congr hlower, insertByRank_of_lt]
      · simp [hsame]
      · intro y hy
        have := hn y.1 (rank_mem_of_bucketed hy)
        omega
    · have hmem : x.1 ∈ rest := (List.mem_cons.mp hx).resolve_left hsame
      rw [ih hrest hmem]
      simp [hsame]

/-- Items by descending rank are those of the highest rank first, and those of one rank in their given order. -/
theorem byRank_eq {n : Nat} (h : ∀ y ∈ l, y.1 ≤ n) :
    byRank l = (List.range (n + 1)).reverse.flatMap fun k => l.filter (·.1 = k) := by
  have hranks : (List.range (n + 1)).reverse.Pairwise (· > ·) :=
    List.pairwise_reverse.mpr List.pairwise_lt_range
  induction l using List.reverseRecOn with
  | nil => simp [byRank]
  | append_singleton rest y ih =>
    have hstep : byRank (rest ++ [y]) = insertByRank y (byRank rest) := by
      unfold byRank
      rw [List.foldl_append]
      rfl
    have hy := h y (by simp)
    rw [hstep, ih fun z hz => h z (List.mem_append_left _ hz)]
    exact insertByRank_bucketed hranks (by simpa using Nat.lt_succ_of_le hy)

end Rank

/-! ### What a pattern stands for -/

/-- A pattern stands for a specifier if it is the specifier, without a wildcard, or becomes it when a text is put
in the place of its first wildcard. What precedes the wildcard gives the rank. -/
inductive StandsFor (spec : List Char) : List Char → Nat → Option (List Char) → Prop
  | exact (h : '*' ∉ spec) : StandsFor spec spec spec.length none
  | wildcard {pre star post : List Char} (hpre : '*' ∉ pre) (hspec : spec = pre ++ star ++ post) :
      StandsFor spec (pre ++ '*' :: post) pre.length (some star)

theorem splitWildcard_of_not_mem {pre : List Char} (h : '*' ∉ pre) (post : List Char) :
    splitWildcard (pre ++ '*' :: post) = (pre, post) := by
  have hkept : ∀ c ∈ pre, (c != '*') = true := fun c hc => bne_iff_ne.mpr fun e => h (e ▸ hc)
  unfold splitWildcard
  rw [List.takeWhile_append_of_pos hkept, List.dropWhile_append_of_pos hkept]
  simp

/-- What a wildcard stands for is what is left between the two ends. -/
theorem captured?_eq_some_iff {pre post spec star : List Char} :
    captured? pre post spec = some star ↔ spec = pre ++ star ++ post := by
  unfold captured?
  simp only [Bool.and_eq_true, List.isPrefixOf_iff_prefix, List.isSuffixOf_iff_suffix]
  constructor
  · intro h
    split at h
    case isFalse => cases h
    case isTrue hends =>
      obtain ⟨⟨hbegins, first, hfirst⟩, hlength⟩ := And.intro hends.1 (of_decide_eq_true hends.2)
      have hshort : pre.length ≤ first.length := by
        have := congrArg List.length hfirst
        rw [List.length_append] at this
        omega
      -- The beginning ends before the end begins.
      obtain ⟨rest, rfl⟩ := List.prefix_of_prefix_length_le hbegins (hfirst ▸ List.prefix_append ..) hshort
      have htake : spec.length - post.length = (pre ++ rest).length := by
        rw [← hfirst, List.length_append]
        omega
      rw [htake, ← hfirst, List.take_left, List.drop_left] at h
      rw [← hfirst, ← Option.some.inj h]
  · rintro rfl
    have htake : (pre ++ star ++ post).length - post.length = (pre ++ star).length := by
      rw [List.length_append]
      omega
    rw [if_pos, htake, List.take_left, List.drop_left]
    refine ⟨⟨?_, List.suffix_append ..⟩, ?_⟩
    · rw [List.append_assoc]
      exact List.prefix_append ..
    · simp

/-- A pattern is matched by the specifiers that it stands for. -/
theorem aliasMatch?_eq_some_iff {pattern spec : List Char} {rank : Nat} {captured : Option (List Char)} :
    aliasMatch? pattern spec = some (rank, captured) ↔ StandsFor spec pattern rank captured := by
  unfold aliasMatch?
  by_cases hstar : '*' ∈ pattern
  · obtain ⟨pre, post, rfl, hpre⟩ := List.eq_append_cons_of_mem hstar
    rw [if_pos (by simp), splitWildcard_of_not_mem hpre]
    simp only [Option.map_eq_some_iff, Prod.mk.injEq, captured?_eq_some_iff]
    constructor
    · rintro ⟨star, hspec, rfl, rfl⟩
      exact .wildcard hpre hspec
    · intro h
      generalize hpattern : pre ++ '*' :: post = pattern at h
      cases h with
      | exact hnone => exact absurd (hpattern ▸ hstar) hnone
      | @wildcard pre' star post' hpre' hspec =>
        -- A pattern has one first wildcard.
        have hsplit := congrArg splitWildcard hpattern
        rw [splitWildcard_of_not_mem hpre, splitWildcard_of_not_mem hpre'] at hsplit
        obtain ⟨rfl, rfl⟩ := Prod.mk.inj hsplit
        exact ⟨star, hspec, rfl, rfl⟩
  · rw [if_neg (by simpa using hstar)]
    constructor
    · intro h
      split at h
      case isTrue heq =>
        cases h
        exact heq ▸ .exact (heq ▸ hstar)
      case isFalse => cases h
    · intro h
      cases h with
      | exact => rw [if_pos rfl]
      | wildcard => simp at hstar

theorem rank_le_of_aliasMatch? {pattern spec : List Char} {m : Nat × Option (List Char)}
    (h : aliasMatch? pattern spec = some m) : m.1 ≤ spec.length := by
  obtain ⟨rank, captured⟩ := m
  cases aliasMatch?_eq_some_iff.mp h with
  | exact => exact le_rfl
  | wildcard hpre hspec =>
    rw [hspec, List.append_assoc, List.length_append]
    exact Nat.le_add_right ..

/-! ### The places of a specifier -/

/-- A target with what the wildcard stands for put in. -/
def targetText (captured : Option (List Char)) (t : String) : String :=
  captured.elim t fun cs => String.ofList (fillTarget t.toList cs)

/-- The places that an alias stands for, if the length of what precedes its wildcard is the given one. -/
def aliasBasesOf (c : Config) (spec : String) (rank : Nat) (a : String × List Json.Value) : List Path :=
  match aliasMatch? a.1.toList spec.toList with
  | none => []
  | some (n, captured) =>
    if n = rank then
      (a.2.filterMap Json.Value.text?).map fun t => (c.aliasBase.getD c.root).joinText (targetText captured t)
    else []

/-- The places that a specifier may mean. One that starts from the directory of the importing file or from the
root means one place. A bare one means those that the aliases stand for, the longest beginning first and
otherwise in the order of the configuration, and then its place below the base directory. -/
def bases (c : Config) (dir : Path) (spec : String) : List Path :=
  if IsBare spec then
    ((List.range (spec.toList.length + 1)).reverse.flatMap fun rank => c.aliases.flatMap (aliasBasesOf c spec rank)) ++
      (c.baseUrl.map (·.joinText spec)).toList
  else [dir.joinText spec]

theorem joinText_of_slash {spec : String} (h : Text.hasPrefix "/" spec = true) (dir : Path) :
    dir.joinText spec = Path.ofString spec := by
  rw [Path.hasPrefix_slash] at h
  exact Path.join_of_isAbsolute h

/-- What the targets of an alias mean, where each of them can be read. -/
theorem mapM_targetPlace {base : Path} {captured : Option (List Char)} {vs : List Json.Value} {ps : List Path}
    (h : vs.mapM (targetPlace base captured) = .ok ps) :
    ps = (vs.filterMap Json.Value.text?).map fun t => base.joinText (targetText captured t) := by
  have hread : vs.Forall₂ (fun v p => targetPlace base captured v = .ok p) ps := Except.forall₂_of_mapM_eq_ok h
  clear h
  induction hread with
  | nil => rfl
  | @cons v p vs ps hp _ ih =>
    cases v with
    | text t =>
      have htext : Json.Value.text? (.text t) = some t := rfl
      rw [List.filterMap_cons_some htext, List.map_cons, ← ih]
      cases captured <;> cases hp <;> rfl
    | null | bool | int | real | list | object => cases captured <;> cases hp

/-- What an alias is expanded to are its places, under its rank. -/
theorem expansion_eq_ok {c : Config} {spec : String} {a : String × List Json.Value}
    {r : Option (Nat × List Path)} (h : expansion c spec a = .ok r) :
    (∀ m ∈ r, m.1 ≤ spec.toList.length) ∧
      ∀ rank, aliasBasesOf c spec rank a = (r.toList.filter (·.1 = rank)).flatMap (·.2) := by
  unfold expansion at h
  unfold aliasBasesOf
  cases hmatch : aliasMatch? a.1.toList spec.toList with
  | none =>
    rw [hmatch] at h
    cases h
    simp
  | some m =>
    rw [hmatch] at h
    obtain ⟨ps, hps, h⟩ := Except.bind_eq_ok h
    cases h
    constructor
    · rintro _ ⟨⟩
      exact rank_le_of_aliasMatch? hmatch
    · intro rank
      by_cases hrank : m.1 = rank
      · simp [hrank, mapM_targetPlace hps]
      · simp [hrank]

/-- The places that the aliases stand for, where the targets of each alias that stands for the specifier are read. -/
theorem aliasPlaces_eq_bases {c : Config} {spec : String} {ps : List Path} (h : aliasPlaces c spec = .ok ps) :
    ps = (List.range (spec.toList.length + 1)).reverse.flatMap fun rank =>
      c.aliases.flatMap (aliasBasesOf c spec rank) := by
  rw [aliasPlaces_eq] at h
  obtain ⟨found, hfound, rfl⟩ := Except.map_eq_ok h
  have hread := Except.forall₂_of_mapM_eq_ok hfound
  have hranks : ∀ m ∈ found.filterMap id, m.1 ≤ spec.toList.length := by
    intro m hm
    obtain ⟨r, hr, hsome⟩ := List.mem_filterMap.mp hm
    obtain ⟨a, -, ha⟩ := exists_mem_of_forall₂ hread r hr
    exact (expansion_eq_ok ha).1 m hsome
  rw [byRank_eq hranks, List.flatMap_assoc]
  refine List.flatMap_congr fun rank _ => ?_
  clear hfound h hranks
  generalize c.aliases = as at hread ⊢
  induction hread with
  | nil => rfl
  | @cons a r as rs ha _ ih =>
    rw [List.flatMap_cons, (expansion_eq_ok ha).2 rank, ← ih]
    cases r with
    | none => rfl
    | some m =>
      have hid : id (some m) = some m := rfl
      rw [List.filterMap_cons_some hid, ← List.singleton_append, List.filter_append, List.flatMap_append]
      rfl

/-- The places of a specifier, where they can be found out. -/
theorem places_eq_bases {c : Config} {importer : Path} {spec : String} {ps : List Path}
    (h : places c importer spec = .ok ps) : ps = bases c importer.parent spec := by
  unfold places at h
  unfold bases
  by_cases hlocal : (isRelative spec || spec = "." || spec = "..") = true
  · rw [if_pos hlocal] at h
    cases h
    rw [if_neg]
    rintro ⟨hrelative, hdot, hdots, -⟩
    simp [hrelative, hdot, hdots] at hlocal
  rw [if_neg hlocal] at h
  by_cases hroot : Text.hasPrefix "/" spec = true
  · rw [if_pos hroot] at h
    cases h
    rw [if_neg, joinText_of_slash hroot]
    rintro ⟨-, -, -, hnone⟩
    rw [hroot] at hnone
    cases hnone
  · rw [if_neg hroot] at h
    obtain ⟨aliased, haliased, h⟩ := Except.bind_eq_ok h
    cases h
    have hbare : IsBare spec := by
      simp only [Bool.or_eq_true, decide_eq_true_eq, not_or, Bool.not_eq_true] at hlocal hroot
      exact ⟨hlocal.1.1, hlocal.1.2, hlocal.2, hroot⟩
    rw [if_pos hbare, aliasPlaces_eq_bases haliased]

/-! ### One list -/

/-- The files that a specifier may mean, in the order in which they are tried. -/
def filesTried (c : Config) (dir : Path) (spec : String) : List Path :=
  (bases c dir spec).flatMap fun p => tries (extensions c) p.normalize

section Search

variable {known : Path → Bool} {exts : List String} {ps : List Path}

/-- A search that is not refused finds the first known of all files that are tried. -/
theorem search_eq_find? {r : Option Path} (h : search known exts ps = .ok r) :
    r = (ps.flatMap (tries exts)).find? known := by
  induction ps with
  | nil =>
    cases h
    rfl
  | cons p rest ih =>
    unfold search at h
    rw [List.flatMap_cons, List.find?_append]
    cases hp : refusal? known exts p with
    | some f => rw [hp] at h; cases h
    | none =>
      rw [hp] at h
      cases hfound : (tries exts p).find? known with
      | some t =>
        rw [hfound] at h
        cases h
        rfl
      | none =>
        rw [hfound] at h
        exact ih h

/-- A search in which no place is refused ends. -/
theorem search_of_accepted (h : ∀ p ∈ ps, refusal? known exts p = none) :
    search known exts ps = .ok ((ps.flatMap (tries exts)).find? known) := by
  cases hsearch : search known exts ps with
  | ok r => rw [search_eq_find? hsearch]
  | error f =>
    obtain ⟨before, p, after, rfl, hp, -⟩ := search_error_iff.mp hsearch
    rw [h p (by simp)] at hp
    cases hp

/-- The files that are known, and one more. -/
def adding (known : Path → Bool) (p : Path) : Path → Bool := fun q => known q || q == p

/-- The files that are known, without one of them. -/
def removing (known : Path → Bool) (p : Path) : Path → Bool := fun q => known q && q != p

theorem adding_removing {p : Path} (h : known p = true) : adding (removing known p) p = known := by
  funext q
  unfold adding removing
  by_cases hq : q = p
  · rw [hq, h]
    simp
  · have hne : (q == p) = false := beq_eq_false_iff_ne.mpr hq
    simp [bne, hne]

theorem find?_adding (known : Path → Bool) (p : Path) (l : List Path) :
    l.find? (adding known p) = l.find? known ∨ l.find? (adding known p) = some p := by
  induction l with
  | nil => exact .inl rfl
  | cons q rest ih =>
    rw [List.find?_cons, List.find?_cons]
    by_cases hq : q = p
    · have hself : adding known p q = true := by simp [adding, hq]
      right
      rw [hself, hq]
    · have hsame : adding known p q = known q := by simp [adding, hq]
      rw [hsame]
      cases known q with
      | true => exact .inl rfl
      | false => exact ih

/-- A place that is refused before a file was added is refused still, unless it is the place of this file, which is
then found at once. -/
theorem refusal?_adding (known : Path → Bool) (exts : List String) (p q : Path) :
    refusal? (adding known p) exts q = refusal? known exts q ∨
      refusal? (adding known p) exts q = none ∧ (tries exts q).find? (adding known p) = some p := by
  by_cases hq : q = p ∧ q.extension ∈ exts
  · obtain ⟨rfl, hext⟩ := hq
    have hself : adding known q q = true := by simp [adding]
    have hfound : (tries exts q).find? (adding known q) = some q := by
      unfold tries
      rw [if_pos hext]
      simp [hself]
    unfold refusal?
    by_cases hname : q.name = ""
    · simp [hname]
    · by_cases hbare : q.name ∈ emitted.map (·.1)
      · rw [if_neg hname, if_neg hname, if_pos hbare, if_pos hbare]
        exact .inl rfl
      · right
        rw [if_neg hname, if_neg hbare, if_neg fun h => h.2 ⟨hext, hself⟩]
        exact ⟨rfl, hfound⟩
  · have hsame : (q.extension ∈ exts ∧ adding known p q = true) ↔ (q.extension ∈ exts ∧ known q = true) := by
      refine and_congr_right fun hext => ?_
      have hne : q ≠ p := fun h => hq ⟨h, hext⟩
      simp [adding, hne]
    left
    unfold refusal?
    simp only [hsame]

/-- A file that is added is found, or nothing changes. -/
theorem search_adding (known : Path → Bool) (exts : List String) (p : Path) (ps : List Path) :
    search (adding known p) exts ps = search known exts ps ∨
      search (adding known p) exts ps = .ok (some p) := by
  induction ps with
  | nil => exact .inl rfl
  | cons q rest ih =>
    unfold search
    rcases refusal?_adding known exts p q with hsame | ⟨hnone, hfound⟩
    · rw [hsame]
      cases refusal? known exts q with
      | some f => exact .inl rfl
      | none =>
        rcases find?_adding known p (tries exts q) with hfind | hfind
        · rw [hfind]
          cases (tries exts q).find? known with
          | some t => exact .inl rfl
          | none => exact ih
        · right
          simp only [hfind]
    · right
      simp only [hnone, hfound]

end Search

section Resolve

variable {c : Config} {known : Path → Bool} {importer : Path} {spec : String}

theorem resolve_eq_find? {r : Option Path} (h : resolve c known importer spec = .ok r) :
    r = (filesTried c importer.parent spec).find? known := by
  rw [resolve_eq_search] at h
  obtain ⟨ps, hps, h⟩ := Except.bind_eq_ok h
  rw [search_eq_find? h, List.flatMap_map, places_eq_bases hps]
  rfl

theorem resolve_adding (p : Path) :
    resolve c (adding known p) importer spec = resolve c known importer spec ∨
      resolve c (adding known p) importer spec = .ok (some p) := by
  rw [resolve_eq_search, resolve_eq_search]
  cases places c importer spec with
  | error f => exact .inl rfl
  | ok ps => exact search_adding known (extensions c) p (ps.map Path.normalize)

/-- A file that was not the answer can be taken away. -/
theorem resolve_removing {r : Option Path} (h : resolve c known importer spec = .ok r) {p : Path}
    (hp : r ≠ some p) : resolve c (removing known p) importer spec = .ok r := by
  by_cases hknown : known p = true
  · -- Putting the file back leads to the answer again, which is not the file.
    rcases @resolve_adding c (removing known p) importer spec p with hs | hs
    · rwa [← hs, adding_removing hknown]
    · rw [adding_removing hknown, h] at hs
      exact absurd (Except.ok.inj hs) hp
  · have hsame : removing known p = known := by
      funext q
      unfold removing
      by_cases hq : q = p
      · rw [hq, Bool.eq_false_iff.mpr hknown]
        rfl
      · simp [hq]
    rw [hsame, h]

/-- Where each target is a text and no place is refused, resolution ends. -/
theorem resolve_of_accepted (htexts : ∀ a ∈ c.aliases, ∀ v ∈ a.2, v.text?.isSome = true)
    (h : ∀ p ∈ bases c importer.parent spec, refusal? known (extensions c) p.normalize = none) :
    resolve c known importer spec = .ok ((filesTried c importer.parent spec).find? known) := by
  have hplaces : ¬ ∃ f, places c importer spec = .error f := by
    rw [exists_places_error_iff]
    rintro ⟨-, a, ha, -, v, hv, hnone⟩
    rw [htexts a ha v hv] at hnone
    cases hnone
  rw [resolve_eq_search]
  cases hps : places c importer spec with
  | error f => exact absurd ⟨f, hps⟩ hplaces
  | ok ps =>
    rw [places_eq_bases hps, Except.ok_bind, search_of_accepted, List.flatMap_map]
    · rfl
    · intro q hq
      obtain ⟨p, hp, rfl⟩ := List.mem_map.mp hq
      exact h p hp

/-- Specifiers that are not bare mean the place that they lead to. -/
theorem resolve_congr {spec' : String} (hbare : ¬ IsBare spec) (hbare' : ¬ IsBare spec')
    (h : (importer.parent.joinText spec').normalize = (importer.parent.joinText spec).normalize) :
    resolve c known importer spec' = resolve c known importer spec := by
  have hplace : ∀ s, ¬ IsBare s → places c importer s = .ok [importer.parent.joinText s] := by
    intro s hs
    cases hps : places c importer s with
    | error f => exact absurd (exists_places_error_iff.mp ⟨f, hps⟩).1 hs
    | ok ps =>
      rw [places_eq_bases hps]
      unfold bases
      rw [if_neg hs]
  rw [resolve_of_places (hplace spec hbare), resolve_of_places (hplace spec' hbare'), h]

/-- The files that a specifier may mean stand in one list, which does not depend on the project. Where resolution does
not fail, and it does not where each target is a text and no place is refused, it gives the first file of the list
that belongs to the project, if there is one. A file that is added becomes the answer or changes nothing; a file
that is taken away changes nothing, unless it was the answer; and specifiers that lead to the same place from the
directory of the importing file are resolved alike. -/
theorem first_match_in_fixed_order (c : Config) (importer : Path) (spec : String) :
    (∀ pattern rank captured, aliasMatch? pattern spec.toList = some (rank, captured) ↔
      StandsFor spec.toList pattern rank captured) ∧
    (∀ known r, resolve c known importer spec = .ok r →
      r = (filesTried c importer.parent spec).find? known) ∧
    (∀ known, (∀ a ∈ c.aliases, ∀ v ∈ a.2, v.text?.isSome = true) →
      (∀ p ∈ bases c importer.parent spec, refusal? known (extensions c) p.normalize = none) →
      resolve c known importer spec = .ok ((filesTried c importer.parent spec).find? known)) ∧
    (∀ known p, resolve c (adding known p) importer spec = resolve c known importer spec ∨
      resolve c (adding known p) importer spec = .ok (some p)) ∧
    (∀ known p r, resolve c known importer spec = .ok r → r ≠ some p →
      resolve c (removing known p) importer spec = .ok r) ∧
    ∀ known spec', ¬ IsBare spec → ¬ IsBare spec' →
      (importer.parent.joinText spec').normalize = (importer.parent.joinText spec).normalize →
      resolve c known importer spec' = resolve c known importer spec := by
  refine ⟨fun _ _ _ => aliasMatch?_eq_some_iff, fun _ _ h => resolve_eq_find? h, ?_, fun _ p => resolve_adding p, ?_, ?_⟩
  · intro known htexts haccepted
    exact resolve_of_accepted htexts haccepted
  · intro known p r h hp
    exact resolve_removing h hp
  · intro known spec' hbare hbare' h
    exact resolve_congr hbare hbare' h

/-- A configuration in which a specifier matches two aliases, the second of them with a longer beginning. -/
def layeredConfig : Config :=
  ⟨⟨.root, ["p", "tsconfig.json"]⟩, some ⟨.root, ["p"]⟩,
    [("@/*", [.text "src/*"]), ("@/shared/*", [.text "lib/*"])], none, false, ["**/*"], [], [], none⟩

/-- A project in which both aliases lead to a file. -/
def layeredFiles (p : Path) : Bool :=
  p = ⟨.root, ["p", "src", "shared", "x.ts"]⟩ || p = ⟨.root, ["p", "lib", "x.ts"]⟩

theorem layeredConfig_first_match :
    StandsFor "@/shared/x".toList "@/shared/*".toList 9 (some ['x']) ∧
    resolve layeredConfig layeredFiles ⟨.root, ["p", "src", "a.ts"]⟩ "@/shared/x" =
      .ok (some ⟨.root, ["p", "lib", "x.ts"]⟩) ∧
    resolve layeredConfig (removing layeredFiles ⟨.root, ["p", "src", "shared", "x.ts"]⟩)
      ⟨.root, ["p", "src", "a.ts"]⟩ "@/shared/x" = .ok (some ⟨.root, ["p", "lib", "x.ts"]⟩) ∧
    resolve layeredConfig layeredFiles ⟨.root, ["p", "src", "a.ts"]⟩ "./y/../shared/x" =
      resolve layeredConfig layeredFiles ⟨.root, ["p", "src", "a.ts"]⟩ "./shared/x" := by
  obtain ⟨hmatch, -, haccepted, -, hremoving, -⟩ :=
    first_match_in_fixed_order layeredConfig ⟨.root, ["p", "src", "a.ts"]⟩ "@/shared/x"
  have hfirst : (filesTried layeredConfig ⟨.root, ["p", "src"]⟩ "@/shared/x").find? layeredFiles =
      some ⟨.root, ["p", "lib", "x.ts"]⟩ := by decide +kernel
  have hfound : resolve layeredConfig layeredFiles ⟨.root, ["p", "src", "a.ts"]⟩ "@/shared/x" =
      .ok (some ⟨.root, ["p", "lib", "x.ts"]⟩) := by
    rw [← hfirst]
    refine haccepted layeredFiles ?_ ?_
    · simp [layeredConfig, Json.Value.text?]
    · decide +kernel
  refine ⟨(hmatch _ _ _).mp (by decide +kernel), hfound, hremoving _ _ _ hfound (by decide), ?_⟩
  exact (first_match_in_fixed_order layeredConfig ⟨.root, ["p", "src", "a.ts"]⟩ "./shared/x").2.2.2.2.2
    layeredFiles "./y/../shared/x" (by decide) (by decide) (by decide +kernel)

end Resolve

end Codemod.Resolution
