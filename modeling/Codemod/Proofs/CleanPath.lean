import Mathlib.Data.List.TakeWhile
import Codemod.Proofs.Project

/-!
# Paths that are written and read back

The segments of a real path are names: they are not empty, they are neither `.` nor `..`, and they hold
no slash. Joining names by slashes and reading the text as a path gives them back.

Main statements:

* `Path.ofString_joined` says what path a text of joined segments is read as;
* `Path.ofString_toString` says that a real path is read back from its text;
* `Path.Clean.absolute` says that the place that a text names, seen from a real directory, is real;
* `Workspace.load_clean` says that the files of a loaded project lie at real paths.
-/

namespace Codemod

/-- A text that can be a segment of a path. -/
def IsName (s : String) : Prop :=
  s ≠ "" ∧ s ≠ "." ∧ s ≠ ".." ∧ '/' ∉ s.toList

instance (s : String) : Decidable (IsName s) :=
  inferInstanceAs (Decidable (s ≠ "" ∧ s ≠ "." ∧ s ≠ ".." ∧ '/' ∉ s.toList))

/-- A name is still one with an extension behind it. -/
theorem IsName.append {s t : String} (h : IsName s) (ht : '/' ∉ t.toList) (hlong : 2 < t.toList.length) :
    IsName (s ++ t) := by
  have hlength : 2 < (s ++ t).toList.length := by
    rw [String.toList_append, List.length_append]
    omega
  have hne : ∀ u : String, u.toList.length ≤ 2 → s ++ t ≠ u := by
    rintro u hu rfl
    omega
  refine ⟨hne _ (by simp), hne _ (by simp), hne _ (by simp), ?_⟩
  rw [String.toList_append, List.mem_append]
  exact not_or.mpr ⟨h.2.2.2, ht⟩

namespace Path

/-- All segments of the path are names. -/
def Clean (p : Path) : Prop :=
  ∀ s ∈ p.segments, IsName s

instance (p : Path) : Decidable p.Clean :=
  inferInstanceAs (Decidable (∀ s ∈ p.segments, IsName s))

theorem Clean.of_subset {p q : Path} (hq : q.Clean) (h : ∀ s ∈ p.segments, s ∈ q.segments) :
    p.Clean :=
  fun s hs => hq s (h s hs)

theorem Clean.normalize {p : Path} (h : p.Clean) : p.normalize = p :=
  normalize_of_clean fun hmem => (h _ hmem).2.2.1 rfl

/-- Going up from a place that is none above itself takes one segment away. -/
theorem length_pushSegment_le (absolute : Bool) (kept : List String) (hne : kept ≠ [])
    (h : ∀ s ∈ kept, s ≠ "..") : (pushSegment absolute kept "..").length + 1 = kept.length := by
  cases kept with
  | nil => exact absurd rfl hne
  | cons last more => simp [pushSegment, h last (by simp)]

theorem splitSlash_ne_nil (cs : List Char) : splitSlash cs ≠ [] := by
  cases cs with
  | nil => exact List.cons_ne_nil _ _
  | cons c rest =>
    unfold splitSlash
    rw [List.foldr_cons]
    split
    · exact List.cons_ne_nil _ _
    · split <;> exact List.cons_ne_nil _ _

theorem splitSlash_cons_of_ne {c : Char} (hc : c ≠ '/') {rest piece : List Char}
    {more : List (List Char)} (h : splitSlash rest = piece :: more) :
    splitSlash (c :: rest) = (c :: piece) :: more := by
  unfold splitSlash at h ⊢
  rw [List.foldr_cons, h, if_neg (by simpa using hc)]

theorem splitSlash_of_not_mem {cs : List Char} (h : '/' ∉ cs) : splitSlash cs = [cs] := by
  induction cs with
  | nil => rfl
  | cons c rest ih =>
    obtain ⟨hc, hrest⟩ := not_or.mp (List.mem_cons.not.mp h)
    exact splitSlash_cons_of_ne (Ne.symm hc) (ih hrest)

theorem splitSlash_append {cs : List Char} (rest : List Char) (h : '/' ∉ cs) :
    splitSlash (cs ++ '/' :: rest) = cs :: splitSlash rest := by
  induction cs with
  | nil => rfl
  | cons c more ih =>
    obtain ⟨hc, hmore⟩ := not_or.mp (List.mem_cons.not.mp h)
    exact splitSlash_cons_of_ne (Ne.symm hc) (ih hmore)

/-- Splitting at slashes undoes joining by slashes. -/
theorem splitSlash_joined {ss : List String} (hne : ss ≠ []) (h : ∀ s ∈ ss, '/' ∉ s.toList) :
    splitSlash ("/".intercalate ss).toList = ss.map String.toList := by
  induction ss with
  | nil => exact absurd rfl hne
  | cons s rest ih =>
    cases rest with
    | nil =>
      rw [String.intercalate_singleton]
      exact splitSlash_of_not_mem (h s (by simp))
    | cons t more =>
      rw [String.intercalate_cons_cons, String.toList_append, String.toList_append,
        List.append_assoc]
      show splitSlash (s.toList ++ '/' :: ("/".intercalate (t :: more)).toList) = _
      rw [splitSlash_append _ (h s (by simp)),
        ih (by simp) fun u hu => h u (List.mem_cons_of_mem _ hu)]
      rfl

/-- The segments of joined texts: those texts that can stand in a path. -/
theorem segmentsOf_joined {ss : List String} (h : ∀ s ∈ ss, '/' ∉ s.toList) :
    segmentsOf ("/".intercalate ss).toList = ss.filter fun s => s != "" && s != "." := by
  by_cases hne : ss = []
  · subst hne
    rfl
  · unfold segmentsOf
    rw [splitSlash_joined hne h, List.map_map]
    congr 1
    exact (List.map_congr_left fun s _ => String.ofList_toList).trans (List.map_id _)

theorem anchorOf_of_head {cs : List Char} (h : cs.head? ≠ some '/') : anchorOf cs = .relative := by
  unfold anchorOf
  split
  · exact absurd rfl h
  · exact absurd rfl h
  · exact absurd rfl h
  · rfl

/-- Joined texts, the first of which is no empty one, do not begin with a slash. -/
theorem head?_joined_ne_slash {s : String} {rest : List String} (hs : s ≠ "")
    (h : ∀ t ∈ s :: rest, '/' ∉ t.toList) :
    ("/".intercalate (s :: rest)).toList.head? ≠ some '/' := by
  have hhead : ("/".intercalate (s :: rest)).toList.head? = s.toList.head? := by
    have hnonempty : s.toList ≠ [] := fun e => hs (String.toList_inj.mp (e.trans rfl))
    cases rest with
    | nil => rw [String.intercalate_singleton]
    | cons t more =>
      rw [String.intercalate_cons_cons, String.toList_append, String.toList_append,
        List.append_assoc, List.head?_append_of_ne_nil _ hnonempty]
  rw [hhead]
  exact fun hslash => h s (by simp) (List.mem_of_mem_head? hslash)

/-- Joined texts, the first of which is no empty one, are read as a relative path. -/
theorem ofString_joined {s : String} {rest : List String} (hs : s ≠ "")
    (h : ∀ t ∈ s :: rest, '/' ∉ t.toList) :
    ofString ("/".intercalate (s :: rest)) =
      ⟨.relative, (s :: rest).filter fun t => t != "" && t != "."⟩ := by
  unfold ofString
  rw [segmentsOf_joined h]
  congr 1
  exact anchorOf_of_head (head?_joined_ne_slash hs h)

theorem filter_names {ss : List String} (h : ∀ s ∈ ss, IsName s) :
    (ss.filter fun s => s != "" && s != ".") = ss := by
  refine List.filter_eq_self.mpr fun s hs => ?_
  obtain ⟨hempty, hdot, -⟩ := h s hs
  simp [hempty, hdot]

/-- A real path that is written and read again. -/
theorem ofString_toString {p : Path} (h : p.Clean) (hroot : p.anchor = .root) :
    ofString p.toString = p := by
  obtain ⟨a, ss⟩ := p
  obtain rfl : a = .root := hroot
  have htext : (toString ⟨.root, ss⟩).toList = '/' :: ("/".intercalate ss).toList := by
    show ("/" ++ "/".intercalate ss).toList = _
    rw [String.toList_append]
    rfl
  have hsegments : segmentsOf ('/' :: ("/".intercalate ss).toList) = ss := by
    show segmentsOf ("/".intercalate ss).toList = ss
    rw [segmentsOf_joined fun s hs => (h s hs).2.2.2, filter_names h]
  unfold ofString
  rw [htext, hsegments]
  congr 1
  cases ss with
  | nil => rfl
  | cons s rest =>
    have hhead := head?_joined_ne_slash (h s (by simp)).1 fun t ht => (h t ht).2.2.2
    unfold anchorOf
    split <;> simp_all

/-! ### Places seen from a directory -/

theorem below?_eq_some {base p : Path} {ss : List String} (h : base.below? p = some ss) :
    p.segments = base.segments ++ ss := by
  unfold below? at h
  split at h
  case isTrue hbegins =>
    simp only [Bool.and_eq_true, decide_eq_true_eq, List.isPrefixOf_iff_prefix] at hbegins
    obtain ⟨rest, hrest⟩ := hbegins.2
    cases h
    rw [← hrest, List.drop_left]
  case isFalse => cases h

/-- The pieces of a text that is split at slashes hold its other characters. -/
theorem mem_of_mem_splitSlash {cs piece : List Char} (h : piece ∈ splitSlash cs) :
    ∀ c ∈ piece, c ∈ cs ∧ c ≠ '/' := by
  induction cs generalizing piece with
  | nil =>
    obtain rfl := List.mem_singleton.mp h
    simp
  | cons d rest ih =>
    have hrest : ∀ q ∈ splitSlash rest, ∀ c ∈ q, c ∈ d :: rest ∧ c ≠ '/' := fun q hq c hc =>
      ⟨List.mem_cons_of_mem _ (ih hq c hc).1, (ih hq c hc).2⟩
    unfold splitSlash at h hrest
    rw [List.foldr_cons] at h
    split at h
    case isTrue =>
      rcases List.mem_cons.mp h with rfl | h
      · simp
      · exact hrest piece h
    case isFalse hd =>
      have hown : d ∈ d :: rest ∧ d ≠ '/' := ⟨List.mem_cons_self .., by simpa using hd⟩
      split at h
      case h_1 =>
        obtain rfl := List.mem_singleton.mp h
        intro c hc
        exact List.mem_singleton.mp hc ▸ hown
      case h_2 p more hp =>
        rw [hp] at hrest
        rcases List.mem_cons.mp h with rfl | h
        · intro c hc
          rcases List.mem_cons.mp hc with rfl | hc
          · exact hown
          · exact hrest p (List.mem_cons_self ..) c hc
        · exact hrest piece (List.mem_cons_of_mem _ h)

/-- The segments of a text are neither empty nor `.`, and hold no slash. -/
theorem mem_segmentsOf {cs : List Char} {s : String} (h : s ∈ segmentsOf cs) :
    s ≠ "" ∧ s ≠ "." ∧ '/' ∉ s.toList := by
  obtain ⟨hpiece, hkept⟩ := List.mem_filter.mp h
  obtain ⟨piece, hmem, rfl⟩ := List.mem_map.mp hpiece
  simp only [Bool.and_eq_true, bne_iff_ne] at hkept
  refine ⟨hkept.1, hkept.2, fun hslash => ?_⟩
  rw [String.toList_ofList] at hslash
  exact (mem_of_mem_splitSlash hmem _ hslash).2 rfl

theorem mem_pushSegment {a : Bool} {kept : List String} {s t : String}
    (h : s ∈ pushSegment a kept t) : s = t ∨ s ∈ kept := by
  unfold pushSegment at h
  split at h
  · exact List.mem_cons.mp h
  · split at h
    · split at h
      · cases h
      · exact .inl (List.mem_singleton.mp h)
    · split at h
      · exact List.mem_cons.mp h
      · exact .inr (List.mem_cons_of_mem _ h)

theorem mem_foldl_pushSegment {a : Bool} {ss kept : List String} {s : String}
    (h : s ∈ ss.foldl (pushSegment a) kept) : s ∈ ss ∨ s ∈ kept := by
  induction ss generalizing kept with
  | nil => exact .inr h
  | cons t rest ih =>
    rcases ih h with h | h
    · exact .inl (List.mem_cons_of_mem _ h)
    · exact (mem_pushSegment h).imp (fun e => by simp [e]) id

/-- The place that a text names, seen from a real directory, is a real path. -/
theorem Clean.absolute {base : Path} (hbase : base.Clean) (hroot : base.isAbsolute = true)
    (s : String) : (base.absolute (ofString s)).Clean := by
  intro seg hseg
  change seg ∈ (base.join (ofString s)).normalize.segments at hseg
  have hjoin : (base.join (ofString s)).isAbsolute = true := by
    unfold join
    split
    · assumption
    · exact hroot
  have hup : seg ≠ ".." := by
    rintro rfl
    exact dotdot_not_mem_normalize hjoin hseg
  have hmem : seg ∈ (base.join (ofString s)).segments :=
    (mem_foldl_pushSegment (List.mem_reverse.mp hseg)).resolve_right (List.not_mem_nil ·)
  have hname : seg ≠ "" ∧ seg ≠ "." ∧ '/' ∉ seg.toList := by
    unfold join at hmem
    split at hmem
    · exact mem_segmentsOf hmem
    · rcases List.mem_append.mp hmem with hmem | hmem
      · exact ⟨(hbase _ hmem).1, (hbase _ hmem).2.1, (hbase _ hmem).2.2.2⟩
      · exact mem_segmentsOf hmem
  exact ⟨hname.1, hname.2.1, hup, hname.2.2⟩

theorem Clean.parent {p : Path} (h : p.Clean) : p.parent.Clean :=
  h.of_subset fun _ hs => List.mem_of_mem_dropLast hs

end Path

/-! ### Last segments -/

namespace Path

variable {p : Path}

@[simp] theorem name_replaceName (p : Path) (n : String) : (p.replaceName n).name = n := by
  simp [replaceName, child, name]

@[simp] theorem parent_replaceName (p : Path) (n : String) : (p.replaceName n).parent = p.parent := by
  simp [replaceName, child, parent]

@[simp] theorem replaceName_replaceName (p : Path) (n n' : String) :
    (p.replaceName n).replaceName n' = p.replaceName n' := by
  unfold replaceName
  rw [show (p.parent.child n).parent = p.parent from parent_replaceName p n]

theorem replaceName_name (h : p.segments ≠ []) : p.replaceName p.name = p := by
  cases p with
  | mk a ss =>
    have hlast : ss.getLast?.getD "" = ss.getLast h := by
      rw [List.getLast?_eq_getLast_of_ne_nil h, Option.getD_some]
    simp only [replaceName, child, parent, name, hlast, List.dropLast_append_getLast]

theorem name_mem (h : p.segments ≠ []) : p.name ∈ p.segments := by
  unfold name
  rw [List.getLast?_eq_getLast_of_ne_nil h, Option.getD_some]
  exact List.getLast_mem h

theorem length_replaceName (h : p.segments ≠ []) (n : String) :
    (p.replaceName n).segments.length = p.segments.length := by
  have hpos := List.length_pos_iff.mpr h
  simp only [replaceName, child, parent, List.length_append, List.length_dropLast,
    List.length_singleton]
  omega

theorem splitName_append (cs : List Char) : (splitName cs).1 ++ (splitName cs).2 = cs := by
  unfold splitName
  dsimp only
  generalize hafter : (cs.reverse.takeWhile (· != '.')).reverse = after
  split
  · rename_i h
    simp only [Bool.and_eq_true, decide_eq_true_eq] at h
    have hparts := List.takeWhile_append_dropWhile (p := (· != '.')) (l := cs.reverse)
    have hwhole : cs = (cs.reverse.dropWhile (· != '.')).reverse ++ after := by
      rw [← hafter, ← List.reverse_append, hparts, List.reverse_reverse]
    cases hdrop : cs.reverse.dropWhile (· != '.') with
    | nil =>
      rw [hdrop, List.reverse_nil, List.nil_append] at hwhole
      rw [hwhole] at h
      omega
    | cons d more =>
      have hd : d = '.' := by
        have := List.head?_dropWhile_not (· != '.') cs.reverse
        rw [hdrop] at this
        simpa using this
      rw [hdrop, hd, List.reverse_cons, List.append_assoc, List.singleton_append] at hwhole
      have hlen : cs.length - after.length - 1 = more.reverse.length := by
        have := congrArg List.length hwhole
        simp only [List.length_append, List.length_cons] at this
        omega
      rw [hlen]
      conv => lhs; rw [hwhole]
      rw [List.take_left]
      exact hwhole.symm
  · exact List.append_nil cs

/-- What stands behind the last dot, dot included, is split off. -/
theorem splitName_of_end {base ext : List Char} (hbase : base ≠ []) (hext : ext ≠ []) (hdot : '.' ∉ ext) :
    (splitName (base ++ '.' :: ext)).2 = '.' :: ext := by
  have hafter : ((base ++ '.' :: ext).reverse.takeWhile (· != '.')).reverse = ext := by
    have hkept : ∀ c ∈ ext.reverse, (c != '.') = true := fun c hc =>
      bne_iff_ne.mpr fun e => hdot (e ▸ List.mem_reverse.mp hc)
    rw [List.reverse_append, List.reverse_cons, List.append_assoc, List.takeWhile_append_of_pos hkept]
    simp
  have hlength : (base ++ '.' :: ext).length - ext.length - 1 = base.length := by
    rw [List.length_append, List.length_cons]
    omega
  unfold splitName
  rw [hafter]
  dsimp only
  rw [hlength, List.take_left, if_pos]
  rw [Bool.and_eq_true, Bool.and_eq_true, decide_eq_true_eq, List.length_append, List.length_cons]
  exact ⟨⟨by omega, bne_iff_ne.mpr hext⟩, bne_iff_ne.mpr hbase⟩

/-- What is split off a name holds no dot but its first. -/
theorem splitName_end (cs : List Char) : (splitName cs).2 = [] ∨
    ∃ ext, (splitName cs).2 = '.' :: ext ∧ '.' ∉ ext := by
  unfold splitName
  dsimp only
  split
  · refine .inr ⟨_, rfl, fun hmem => ?_⟩
    have hdot := List.mem_takeWhile_imp (List.mem_reverse.mp hmem)
    simp at hdot
  · exact .inl rfl

/-- The extension is an end of the name. -/
theorem stem_append_extension (p : Path) : p.stem ++ p.extension = p.name := by
  unfold stem extension
  rw [← String.toList_inj, String.toList_append, String.toList_ofList, String.toList_ofList,
    splitName_append]

/-- A place on the disk: a real path that is written from the root. -/
structure Real (p : Path) : Prop where
  clean : p.Clean
  root : p.anchor = .root

namespace Real

theorem isAbsolute (h : p.Real) : p.isAbsolute = true := by
  unfold Path.isAbsolute
  rw [h.root]
  rfl

theorem parent (h : p.Real) : p.parent.Real :=
  ⟨h.clean.parent, h.root⟩

/-- The text of a place counts as one. -/
theorem toString_ne (h : p.Real) : p.toString ≠ "" := by
  intro hempty
  have hread := ofString_toString h.clean h.root
  rw [hempty] at hread
  have hroot := h.root
  rw [← hread] at hroot
  cases hroot

/-- The place beside a place whose name is another name with `.json` behind it. -/
theorem replaceName (h : p.Real) (hname : p.name ≠ "") : (p.replaceName (p.name ++ ".json")).Real := by
  refine ⟨fun s hs => ?_, h.root⟩
  rcases List.mem_append.mp hs with hs | hs
  · exact h.parent.clean s hs
  · obtain rfl := List.mem_singleton.mp hs
    have hmem : p.name ∈ p.segments := by
      refine name_mem fun hnil => hname ?_
      unfold name
      rw [hnil]
      rfl
    exact (h.clean _ hmem).append (by decide) (by decide)

end Real

end Path

namespace FileSystem

/-- All that is in the file system lies at a real path. -/
def Clean (fs : FileSystem) : Prop :=
  ∀ e ∈ fs.entries, e.1.Clean

theorem Clean.of_lookup? {fs : FileSystem} (h : fs.Clean) {p : Path} {b : Bytes}
    (hp : fs.lookup? p = some (.file b)) : p.Clean := by
  unfold lookup? at hp
  split at hp
  · cases hp
  · have hmem : p ∈ fs.entries.keys :=
      Keyed.get?_isSome_iff.mp (Option.isSome_iff_exists.mpr ⟨_, hp⟩)
    obtain ⟨e, he, rfl⟩ := List.mem_map.mp hmem
    exact h e he

end FileSystem

/-- The files of a loaded project lie at real paths, when all that is on the disk does. -/
theorem Workspace.load_clean {disk : FileSystem} {cwd : Path} {s : String} {j j' : Journal}
    {w : Workspace} (hdisk : disk.Clean) (h : load disk cwd s j = (.ok w, j')) :
    ∀ p ∈ w.paths, p.Clean := by
  intro p hp
  obtain ⟨f, hf, rfl⟩ := List.mem_map.mp hp
  have hread := load_fresh h f hf
  rw [(load_eq_ok h).1] at hread
  exact hdisk.of_lookup? hread.content

end Codemod
