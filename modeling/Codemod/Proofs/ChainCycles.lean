import Mathlib.Data.Finset.Card
import Mathlib.Order.WellFounded
import Codemod.Proofs.LoadFaults

/-!
# Chains that close on themselves

A configuration is read together with all that it extends. Each call of this recursion reads a file that is
there and is not yet on the way, so that the calls come to an end on every disk, and the depth that a load
allows for is never used up. A file that is met below itself is refused; a file that is extended from several
sides is read once for each of them.

Which file a reference means is decided by the place that it names, and not by how that is written.

Main statements:

* `meant_respelled` says that a reference may leave out the extension and go through other directories;
* `Call.makes_wellFounded` says that the calls of the recursion come to an end;
* `readChain_unique` says that the recursion without a bound on its depth has one solution, which is what is
  read at any depth above the number of files;
* `readChain_error_of_accepted` says that a chain of files that can be read fails with nothing but a file that
  extends itself;
* `acc_of_readChain` says that a chain that is read does not close on itself;
* `circular_iff_cycle` says which configurations are refused as circular.
-/

namespace Codemod

open Relation

/-! ### Ways to write a path -/

namespace Path

theorem splitSlash_slash (cs rest : List Char) :
    splitSlash (cs ++ '/' :: rest) = splitSlash cs ++ splitSlash rest := by
  induction cs with
  | nil => rfl
  | cons c more ih =>
    by_cases hc : c = '/'
    · subst hc
      show [] :: splitSlash (more ++ '/' :: rest) = [] :: splitSlash more ++ splitSlash rest
      rw [ih, List.cons_append]
    · obtain ⟨piece, pieces, hsplit⟩ := List.exists_cons_of_ne_nil (splitSlash_ne_nil more)
      rw [hsplit, List.cons_append] at ih
      rw [List.cons_append, splitSlash_cons_of_ne hc ih, splitSlash_cons_of_ne hc hsplit, List.cons_append]

/-- A slash separates the segments before it from those behind it. -/
theorem segmentsOf_slash (s t : String) :
    segmentsOf (s ++ "/" ++ t).toList = segmentsOf s.toList ++ segmentsOf t.toList := by
  have htext : (s ++ "/" ++ t).toList = s.toList ++ '/' :: t.toList := by
    rw [String.toList_append, String.toList_append, List.append_assoc]
    rfl
  unfold segmentsOf
  rw [htext, splitSlash_slash, List.map_append, List.filter_append]

theorem segmentsOf_name {n : String} (h : IsName n) : segmentsOf n.toList = [n] := by
  unfold segmentsOf
  rw [splitSlash_of_not_mem h.2.2.2, List.map_singleton, String.ofList_toList]
  exact filter_names (List.forall_mem_singleton.mpr h)

theorem isAbsolute_ofString (s : String) : (ofString s).isAbsolute = (s.toList.head? == some '/') := by
  unfold ofString isAbsolute
  cases s.toList with
  | nil => rfl
  | cons c rest =>
    by_cases hc : c = '/'
    · subst hc
      unfold anchorOf
      split <;> simp_all
    · rw [anchorOf_of_head (by simpa using hc)]
      simpa using hc

theorem isAbsolute_slash {s : String} (hs : s ≠ "") (t : String) :
    (ofString (s ++ "/" ++ t)).isAbsolute = (ofString s).isAbsolute := by
  have hnonempty : s.toList ≠ [] := fun e => hs (String.toList_inj.mp (e.trans rfl))
  rw [isAbsolute_ofString, isAbsolute_ofString, String.toList_append, String.toList_append, List.append_assoc,
    List.head?_append_of_ne_nil _ hnonempty]

/-- The segments of the place that a text names, the last one first. -/
def climbed (dir : Path) (s : String) : List String :=
  (segmentsOf s.toList).foldl (pushSegment true)
    (if (ofString s).isAbsolute then [] else dir.segments.foldl (pushSegment true) [])

theorem absolute_eq_climbed {dir : Path} (hdir : dir.isAbsolute = true) (s : String) :
    dir.absolute (ofString s) = ⟨.root, (climbed dir s).reverse⟩ := by
  unfold climbed absolute join normalize
  by_cases habs : (ofString s).isAbsolute = true
  · simp only [habs, if_true]
    rfl
  · have hjoin : (Path.mk dir.anchor (dir.segments ++ (ofString s).segments)).isAbsolute = true := hdir
    simp only [if_neg habs, hjoin, List.foldl_append]
    rfl

variable {dir : Path} {s n : String}

theorem climbed_slash (hs : s ≠ "") (t : String) :
    climbed dir (s ++ "/" ++ t) = (segmentsOf t.toList).foldl (pushSegment true) (climbed dir s) := by
  unfold climbed
  rw [segmentsOf_slash, List.foldl_append, isAbsolute_slash hs]

/-- A name behind a slash names what has this name at the place before it. -/
theorem absolute_name (hdir : dir.isAbsolute = true) (hs : s ≠ "") (hn : IsName n) :
    dir.absolute (ofString (s ++ "/" ++ n)) = (dir.absolute (ofString s)).child n := by
  rw [absolute_eq_climbed hdir, absolute_eq_climbed hdir, climbed_slash hs, segmentsOf_name hn]
  simp [pushSegment, hn.2.2.1, child]

/-- A dot stays where it is. -/
theorem absolute_dot (hdir : dir.isAbsolute = true) (hs : s ≠ "") :
    dir.absolute (ofString (s ++ "/" ++ ".")) = dir.absolute (ofString s) := by
  rw [absolute_eq_climbed hdir, absolute_eq_climbed hdir, climbed_slash hs]
  rfl

/-- Going down and up again leads back. -/
theorem absolute_down_up (hdir : dir.isAbsolute = true) (hs : s ≠ "") (hn : IsName n) :
    dir.absolute (ofString (s ++ "/" ++ n ++ "/" ++ "..")) = dir.absolute (ofString s) := by
  have hsn : s ++ "/" ++ n ≠ "" := by
    intro hempty
    have hlength := congrArg (fun u => u.toList.length) hempty
    simp at hlength
  have hup : segmentsOf "..".toList = [".."] := by decide
  rw [absolute_eq_climbed hdir, absolute_eq_climbed hdir, climbed_slash hsn, climbed_slash hs,
    segmentsOf_name hn, hup]
  simp [pushSegment, hn.2.2.1]

end Path

namespace Config

/-! ### What a reference means -/

/-- Whether a text is written as a path: from the directory, from the one above it, or from the root. -/
def IsWrittenAsPath (s : String) : Prop :=
  Text.hasPrefix "./" s = true ∨ Text.hasPrefix "../" s = true ∨ Text.hasPrefix "/" s = true

/-- The configuration file at a place whose name may leave out the extension. -/
def withExtension (p : Path) : Path :=
  if p.extension = ".json" then p else p.replaceName (p.name ++ ".json")

/-- The configuration file that a text means, seen from a directory. -/
def meant (dir : Path) (s : String) : Path :=
  withExtension (dir.absolute (.ofString s))

theorem referenced_eq_some_iff {dir q : Path} {s : String} {t : Option Path} (h : referenced dir s = .ok t) :
    t = some q ↔ IsWrittenAsPath s ∧ meant dir s = q := by
  have hwritten : (Text.hasPrefix "./" s || Text.hasPrefix "../" s || Text.hasPrefix "/" s) = true ↔
      IsWrittenAsPath s := by
    rw [Bool.or_eq_true, Bool.or_eq_true, or_assoc]
    rfl
  unfold referenced at h
  split at h
  case isFalse hno =>
    cases h
    refine ⟨?_, fun hq => absurd (hwritten.mpr hq.1) hno⟩
    rintro ⟨⟩
  case isTrue hyes =>
    obtain ⟨p, hp, h⟩ := Except.bind_eq_ok h
    have hplace : dir.absolute (.ofString s) = p := by
      unfold locate at hp
      dsimp only at hp
      split at hp
      · cases hp
      · exact Except.ok.inj hp
    have hmeant : t = some (meant dir s) := by
      unfold meant withExtension
      rw [hplace]
      split at h
      case isTrue hext => rw [if_pos hext]; exact (Except.ok.inj h).symm
      case isFalse hext =>
        rw [if_neg hext]
        split at h
        · cases h
        · exact (Except.ok.inj h).symm
    rw [hmeant, Option.some.injEq]
    exact ⟨fun hq => ⟨hwritten.mp hyes, hq⟩, fun hq => hq.2⟩

/-- A file is meant with its extension or without, and through whatever directories the way goes. -/
theorem meant_respelled {dir : Path} (hdir : dir.isAbsolute = true) {s x n : String} (hs : s ≠ "")
    (hx : IsName x) (hn : IsName n) (hext : (Path.root.child n).extension ≠ ".json") :
    meant dir (s ++ "/" ++ (n ++ ".json")) = meant dir (s ++ "/" ++ n) ∧
      meant dir (s ++ "/" ++ "." ++ "/" ++ n) = meant dir (s ++ "/" ++ n) ∧
      meant dir (s ++ "/" ++ x ++ "/" ++ ".." ++ "/" ++ n) = meant dir (s ++ "/" ++ n) := by
  have hne : ∀ u v : String, v ≠ "" → u ++ v ≠ "" := by
    intro u v hv hempty
    have hlength := congrArg (fun w => w.toList.length) hempty
    rw [String.toList_append, List.length_append, String.toList_empty, List.length_nil] at hlength
    exact hv (String.toList_inj.mp (List.length_eq_zero_iff.mp (by omega)))
  have hjson : IsName (n ++ ".json") := hn.append (by decide) (by decide)
  have hchild : ∀ (q : Path) (m : String), (q.child m).extension = (Path.root.child m).extension := by
    intro q m
    simp [Path.extension, Path.name, Path.child]
  refine ⟨?_, ?_, ?_⟩
  · unfold meant withExtension
    rw [Path.absolute_name hdir hs hn, Path.absolute_name hdir hs hjson, hchild, hchild (m := n), if_neg hext]
    have hends : (Path.root.child (n ++ ".json")).extension = ".json" := by
      have hdot : "json".toList ≠ [] ∧ '.' ∉ "json".toList := by decide
      have hnonempty : n.toList ≠ [] := fun e => hn.1 (String.toList_inj.mp (e.trans rfl))
      have hname : (Path.root.child (n ++ ".json")).name = n ++ ".json" := by
        simp [Path.name, Path.child, Path.root]
      unfold Path.extension
      rw [hname, String.toList_append]
      exact congrArg String.ofList (Path.splitName_of_end hnonempty hdot.1 hdot.2)
    rw [if_pos hends]
    simp [Path.child, Path.replaceName, Path.parent, Path.name]
  · unfold meant
    rw [Path.absolute_name hdir (hne _ _ (by decide)) hn, Path.absolute_dot hdir hs, Path.absolute_name hdir hs hn]
  · unfold meant
    rw [Path.absolute_name hdir (hne _ _ (by decide)) hn, Path.absolute_down_up hdir hs hx,
      Path.absolute_name hdir hs hn]

example : ["./x/../a", "./a.json", "././a", "/p/a", "../p/x/y/../../a.json"].map (meant (.ofString "/p")) =
    List.replicate 5 (.ofString "/p/a.json") := by decide +kernel

/-- One configuration file names another as one that it extends, in whatever spelling. -/
def Names (fs : FileSystem) (p q : Path) : Prop :=
  ∃ ms refs s, readMembers fs p = .ok ms ∧ references ms = .ok refs ∧ .text s ∈ refs ∧ IsWrittenAsPath s ∧
    meant p.parent s = q

theorem Extends.names {fs : FileSystem} {p q : Path} (h : Extends fs p q) : Names fs p q := by
  obtain ⟨ms, hms, hq⟩ := h
  unfold Declaration.parents at hq
  split at hq
  case h_1 refs hrefs =>
    obtain ⟨s, hs, href⟩ := mem_targets.mp hq
    obtain ⟨hwritten, hmeant⟩ := (referenced_eq_some_iff href).mp rfl
    exact ⟨ms, refs, s, hms, hrefs, hs, hwritten, hmeant⟩
  case h_2 => cases hq

/-- What a file that can be read names, it extends. -/
theorem Names.extends {fs : FileSystem} {p q : Path} (h : Names fs p q)
    (hread : ∃ ms, readMembers fs p = .ok ms ∧ (Declaration.mk p ms).Readable) : Extends fs p q := by
  obtain ⟨ms, refs, s, hms, hrefs, hs, hnamed⟩ := h
  obtain ⟨ms', hms', hreadable⟩ := hread
  cases hms.symm.trans hms'
  obtain ⟨refs', hrefs', htexts⟩ := hreadable.references
  cases hrefs.symm.trans hrefs'
  obtain ⟨_, t, ⟨⟩, ht⟩ := htexts _ hs
  obtain rfl := (referenced_eq_some_iff ht).mpr hnamed
  refine ⟨ms, hms, ?_⟩
  rw [Declaration.parents_eq (d := ⟨p, ms⟩) hrefs]
  exact mem_targets.mpr ⟨s, hs, ht⟩

/-! ### The calls of the recursion -/

/-- A call of the recursion: the file to be read, and the files on the way to it. -/
structure Call where
  seen : List Path
  file : Path

/-- One call makes another: its file is met for the first time, and extends the file of the other. -/
structure Call.Makes (fs : FileSystem) (c c' : Call) : Prop where
  fresh : c.file ∉ c.seen
  step : Extends fs c.file c'.file
  way : c'.seen = c.file :: c.seen

/-- The files of the disk that are not on the way. -/
def unseen (fs : FileSystem) (seen : List Path) : Finset Path :=
  fs.entries.keys.toFinset \ seen.toFinset

theorem card_unseen_le (fs : FileSystem) (seen : List Path) : (unseen fs seen).card ≤ fs.entries.length := by
  calc (unseen fs seen).card ≤ fs.entries.keys.toFinset.card := Finset.card_le_card Finset.sdiff_subset
    _ ≤ fs.entries.keys.length := List.toFinset_card_le _
    _ = fs.entries.length := List.length_map _

/-- A file that is there and met for the first time leaves fewer files that are not on the way. -/
theorem card_unseen_lt {fs : FileSystem} {seen : List Path} {p : Path} (hfresh : p ∉ seen)
    (hthere : p ∈ fs.entries.keys) : (unseen fs (p :: seen)).card < (unseen fs seen).card := by
  refine Finset.card_lt_card ⟨?_, fun hsubset => ?_⟩
  · intro q hq
    simp only [unseen, Finset.mem_sdiff, List.mem_toFinset, List.mem_cons, not_or] at hq ⊢
    exact ⟨hq.1, hq.2.2⟩
  · have hp : p ∈ unseen fs seen := by
      simp only [unseen, Finset.mem_sdiff, List.mem_toFinset]
      exact ⟨hthere, hfresh⟩
    have hgone := hsubset hp
    simp only [unseen, Finset.mem_sdiff, List.mem_toFinset, List.mem_cons, true_or, not_true_eq_false,
      and_false] at hgone

/-- The calls of the recursion come to an end: each leaves fewer files that are not on the way. -/
theorem Call.makes_wellFounded (fs : FileSystem) : WellFounded fun c' c => Call.Makes fs c c' := by
  refine Subrelation.wf ?_ (measure fun c : Call => (unseen fs c.seen).card).wf
  intro c' c h
  obtain ⟨ms, hms, -⟩ := h.step
  show (unseen fs c'.seen).card < (unseen fs c.seen).card
  rw [h.way]
  exact card_unseen_lt h.fresh (mem_keys_of_readMembers hms)

/-- What one call does, `read` standing for the calls that it makes. -/
def readFile (fs : FileSystem) (seen : List Path) (p : Path) (read : Path → Journaled Fault Layer) :
    Journaled Fault Layer :=
  if seen.contains p then .fail (.circular p)
  else do
    let ms ← .ofExcept (readMembers fs p)
    let layer ← .ofExcept (Layer.ofMembers p.parent ms)
    let refs ← .ofExcept (references ms)
    let base ← readReferences read p .empty refs
    return layer.onto base

theorem readChain_succ (fs : FileSystem) (depth : Nat) (seen : List Path) (p : Path) :
    readChain fs (depth + 1) seen p = readFile fs seen p (readChain fs depth (p :: seen)) :=
  rfl

/-- What a call does is decided by the calls that it makes. -/
theorem readFile_congr {fs : FileSystem} {seen : List Path} {p : Path}
    {read read' : Path → Journaled Fault Layer}
    (h : ∀ q, Call.Makes fs ⟨seen, p⟩ ⟨p :: seen, q⟩ → read q = read' q) :
    readFile fs seen p read = readFile fs seen p read' := by
  unfold readFile
  split
  case isTrue => rfl
  case isFalse hfresh =>
    have hfresh : p ∉ seen := by simpa using hfresh
    cases hms : readMembers fs p with
    | error f => rfl
    | ok ms =>
      simp only [Journaled.ofExcept_ok_bind]
      refine bind_congr fun layer => ?_
      cases hrefs : references ms with
      | error f => rfl
      | ok refs =>
        have hparents := Declaration.parents_eq (d := ⟨p, ms⟩) hrefs
        simp only [Journaled.ofExcept_ok_bind]
        rw [readReferences_congr fun q hq => h q ⟨hfresh, ⟨ms, hms, hparents ▸ hq⟩, rfl⟩]

/-- More depth than there are files that are not on the way is never used up. -/
theorem readChain_stable {fs : FileSystem} {depth : Nat} {seen : List Path} (p : Path)
    (h : (unseen fs seen).card < depth) : readChain fs depth seen p = readChain fs (depth + 1) seen p := by
  induction depth generalizing seen p with
  | zero => exact absurd h (Nat.not_lt_zero _)
  | succ n ih =>
    rw [readChain_succ, readChain_succ]
    refine readFile_congr fun q hcall => ih q ?_
    obtain ⟨ms, hms, -⟩ := hcall.step
    have hfewer := card_unseen_lt hcall.fresh (mem_keys_of_readMembers hms)
    dsimp only at hfewer
    omega

theorem readChain_of_le {fs : FileSystem} {depth depth' : Nat} {seen : List Path} {p : Path}
    (h : fs.entries.length < depth) (hle : depth ≤ depth') :
    readChain fs depth' seen p = readChain fs depth seen p := by
  induction hle with
  | refl => rfl
  | @step n hle ih =>
    have hfewer := card_unseen_le fs seen
    have hn : depth ≤ n := hle
    exact (readChain_stable p (by omega)).symm.trans ih

/-- The recursion without a bound on its depth has one solution: what is read at any depth above the number
of files. -/
theorem readChain_unique {fs : FileSystem} {depth : Nat} (h : fs.entries.length < depth)
    {read : List Path → Path → Journaled Fault Layer} :
    (∀ seen p, read seen p = readFile fs seen p (read (p :: seen))) ↔ read = readChain fs depth := by
  constructor
  · intro hread
    have key : ∀ c : Call, read c.seen c.file = readChain fs depth c.seen c.file := by
      intro c
      induction c using (Call.makes_wellFounded fs).induction with
      | _ c ih =>
        rw [hread, ← readChain_of_le h (Nat.le_succ depth), readChain_succ]
        exact readFile_congr fun q hcall => ih ⟨_, q⟩ hcall
    exact funext fun seen => funext fun p => key ⟨seen, p⟩
  · rintro rfl seen p
    rw [← readChain_succ, readChain_of_le h (Nat.le_succ depth)]

/-! ### Files that extend themselves -/

/-- All files that a configuration extends, directly or through others, can be read, and it can itself. -/
def ReadableChain (fs : FileSystem) (p : Path) : Prop :=
  ∀ q, Reaches fs p q → ∃ ms, readMembers fs q = .ok ms ∧ (Declaration.mk q ms).Accepted

/-- A chain of files that can be read fails with nothing but a file that extends itself. -/
theorem readChain_error_of_accepted {fs : FileSystem} {p q : Path} {depth : Nat} {seen : List Path}
    {j j' : Journal} {f : Fault} (hread : ReadableChain fs p) (hq : Reaches fs p q)
    (hseen : ∀ r ∈ seen, TransGen (Extends fs) r q) (hdepth : (unseen fs seen).card < depth)
    (hrun : readChain fs depth seen q j = (.error f, j')) :
    ∃ r, f = .circular r ∧ Reaches fs p r ∧ TransGen (Extends fs) r r := by
  induction depth generalizing seen q j j' with
  | zero => exact absurd hdepth (Nat.not_lt_zero _)
  | succ n ih =>
    obtain ⟨ms, hms, haccepted⟩ := hread q hq
    by_cases hfresh : q ∈ seen
    · -- The file is met below itself.
      rw [readChain_seen hfresh] at hrun
      cases hrun
      exact ⟨q, rfl, hq, hseen q hfresh⟩
    rcases readChain_error hrun with ⟨hmet, -⟩ | hfault | ⟨ms', hms', ⟨-, hbad⟩ | ⟨r, hr, i, i', hchain⟩⟩
    · exact absurd hmet hfresh
    · cases hms.symm.trans hfault
    · cases hms.symm.trans hms'
      exact absurd haccepted hbad
    · have hstep : Extends fs q r := ⟨ms', hms', hr⟩
      have hfewer := card_unseen_lt hfresh (mem_keys_of_readMembers hms)
      refine ih (hq.tail hstep) (fun x hx => ?_) (by omega) hchain
      rcases List.mem_cons.mp hx with rfl | hx
      · exact .single hstep
      · exact (hseen x hx).tail hstep

/-- There is no way without an end through the files of a chain that is read. -/
theorem acc_of_readChain {fs : FileSystem} {depth : Nat} {seen : List Path} {p : Path} {j j' : Journal}
    {l : Layer} (h : readChain fs depth seen p j = (.ok l, j')) : Acc (fun q r => Extends fs r q) p := by
  induction depth generalizing seen p j j' l with
  | zero => cases h
  | succ n ih =>
    obtain ⟨m, ms, hm, hms, -, hparents⟩ := readChain_ok h
    cases hm
    refine .intro p fun q hq => ?_
    obtain ⟨ms', hms', hq⟩ := hq
    cases hms.symm.trans hms'
    obtain ⟨l', i, i', hrun⟩ := hparents q hq
    exact ih hrun

/-- From where every way ends, no file that extends itself is reached. -/
theorem not_cycle_of_acc {fs : FileSystem} {p q : Path} (h : Acc (fun q r => Extends fs r q) p)
    (hq : Reaches fs p q) : ¬ TransGen (Extends fs) q q := by
  have hacc : Acc (fun q r => Extends fs r q) q := by
    induction hq with
    | refl => exact h
    | tail _ hstep ih => exact ih.inv hstep
  intro hcycle
  have hlong := hacc.transGen
  induction hlong with
  | intro r _ ih => exact ih r (transGen_swap.mp hcycle) hq hacc hcycle

/-- Where all files that are named on the way can be read, those that are named are those that are extended. -/
theorem reaches_iff_named {fs : FileSystem} {p : Path}
    (hread : ∀ q, ReflTransGen (Names fs) p q →
      ∃ ms, readMembers fs q = .ok ms ∧ (Declaration.mk q ms).Readable) :
    (∀ q, Reaches fs p q ↔ ReflTransGen (Names fs) p q) ∧
      ∀ q r, Reaches fs p q → (TransGen (Extends fs) q r ↔ TransGen (Names fs) q r) := by
  have hforth : ∀ {q}, Reaches fs p q → ReflTransGen (Names fs) p q :=
    fun hq => ReflTransGen.mono (fun _ _ => Extends.names) _ _ hq
  have hback : ∀ {q}, ReflTransGen (Names fs) p q → Reaches fs p q := by
    intro q hq
    induction hq with
    | refl => exact .refl
    | tail hq hstep ih => exact ih.tail (hstep.extends (hread _ hq))
  refine ⟨fun q => ⟨hforth, hback⟩, fun q r hq => ⟨?_, fun hr => ?_⟩⟩
  · exact TransGen.mono (fun _ _ => Extends.names) q r
  · induction hr with
    | single hstep => exact .single (hstep.extends (hread _ (hforth hq)))
    | tail hr hstep ih =>
      have hreach : ReflTransGen (Names fs) p _ := (hforth hq).trans hr.to_reflTransGen
      exact ih.tail (hstep.extends (hread _ hreach))

/-- A load fails as circular exactly when the reading of the chain does. -/
theorem load_circular_iff {fs : FileSystem} {cwd p q : Path} {name : String} (hp : locate cwd name = .ok p)
    {j j' : Journal} : load fs cwd name j = (.error (.circular q), j') ↔
      readChain fs (fs.entries.length + 2) [] p j = (.error (.circular q), j') := by
  unfold load
  rw [hp, Journaled.ofExcept_ok_bind]
  constructor
  · intro h
    rcases Journaled.bind_eq_error h with h | ⟨l, j₁, -, h⟩
    · exact h
    · cases ofLayer_unforeseen p l _ (Journaled.ofExcept_eq_error h)
  · exact fun h => Journaled.bind_error h

section

variable {fs : FileSystem} {cwd p : Path} {name : String} {j j' : Journal}

/-- Where all files that are named on the way can be read, a chain fails with nothing but a file that names
itself. -/
theorem readChain_error_named (hreadable : ∀ q, ReflTransGen (Names fs) p q →
      ∃ ms, readMembers fs q = .ok ms ∧ (Declaration.mk q ms).Readable) {f : Fault}
    (hrun : readChain fs (fs.entries.length + 2) [] p j = (.error f, j')) :
    ∃ q, f = .circular q ∧ ReflTransGen (Names fs) p q ∧ TransGen (Names fs) q q := by
  obtain ⟨hreaches, hcycles⟩ := reaches_iff_named hreadable
  have hread : ReadableChain fs p := fun q hq =>
    (hreadable q ((hreaches q).mp hq)).imp fun ms hms => ⟨hms.1, accepted_iff_readable.mpr hms.2⟩
  have hdepth : (unseen fs []).card < fs.entries.length + 2 := by
    have hle := card_unseen_le fs []
    omega
  obtain ⟨q, hf, hq, hcycle⟩ := readChain_error_of_accepted hread .refl
    (fun r hr => absurd hr List.not_mem_nil) hdepth hrun
  exact ⟨q, hf, (hreaches q).mp hq, (hcycles q q hq).mp hcycle⟩

/-- A configuration that names a file which names itself is refused. -/
theorem exists_load_circular (hp : locate cwd name = .ok p) (hreadable : ∀ q, ReflTransGen (Names fs) p q →
      ∃ ms, readMembers fs q = .ok ms ∧ (Declaration.mk q ms).Readable) {q : Path}
    (hq : ReflTransGen (Names fs) p q) (hcycle : TransGen (Names fs) q q) (j : Journal) :
    ∃ r j', load fs cwd name j = (.error (.circular r), j') := by
  obtain ⟨hreaches, hcycles⟩ := reaches_iff_named hreadable
  have hq := (hreaches q).mpr hq
  rcases hrun : readChain fs (fs.entries.length + 2) [] p j with ⟨f | l, j'⟩
  · obtain ⟨r, rfl, -⟩ := readChain_error_named hreadable hrun
    exact ⟨r, j', (load_circular_iff hp).mpr hrun⟩
  · exact absurd ((hcycles q q hq).mpr hcycle) (not_cycle_of_acc (acc_of_readChain hrun) hq)

/-- A configuration that names only well-shaped files, none of which names itself, is loaded. -/
theorem exists_load_of_acyclic (hp : locate cwd name = .ok p)
    (hwell : ∀ q, ReflTransGen (Names fs) p q →
      ∃ ms, readMembers fs q = .ok ms ∧ (Declaration.mk q ms).WellShaped)
    (hacyclic : ∀ q, ReflTransGen (Names fs) p q → ¬ TransGen (Names fs) q q) (j : Journal) :
    ∃ c j', load fs cwd name j = (.ok c, j') := by
  have hreadable : ∀ q, ReflTransGen (Names fs) p q →
      ∃ ms, readMembers fs q = .ok ms ∧ (Declaration.mk q ms).Readable := fun q hq =>
    (hwell q hq).imp fun ms hms => ⟨hms.1, accepted_iff_readable.mp hms.2.accepted⟩
  rcases hrun : readChain fs (fs.entries.length + 2) [] p j with ⟨f | l, j'⟩
  · obtain ⟨q, -, hq, hcycle⟩ := readChain_error_named hreadable hrun
    exact absurd hcycle (hacyclic q hq)
  · unfold load
    rw [hp, Journaled.ofExcept_ok_bind, Journaled.bind_ok hrun]
    cases hlayer : ofLayer p l with
    | ok c => exact ⟨c, j', rfl⟩
    | error f =>
      obtain ⟨d, hd, hms, hbad⟩ := origin_of_ofLayer_error hrun hlayer
      obtain ⟨ms, hms', hshaped⟩ := hwell d.path (((reaches_iff_named hreadable).1 _).mp hd)
      cases hms.symm.trans hms'
      exact absurd hshaped hbad

end

/-- The reading of references comes to an end on every disk, with the same outcome whatever depth is allowed
for. Which file a reference means is decided by the place that it names. Where all files that a configuration
names, directly or through others, can be read, it is refused as circular exactly when one of them names
itself, directly or through others, and what is reported is such a file. Where they are well-shaped and none
does, the configuration is loaded, from however many sides a file is named. -/
theorem circular_iff_cycle (fs : FileSystem) :
    (WellFounded fun c' c => Call.Makes fs c c') ∧
    (∀ depth, fs.entries.length < depth → ∀ read : List Path → Path → Journaled Fault Layer,
      (∀ seen p, read seen p = readFile fs seen p (read (p :: seen))) ↔ read = readChain fs depth) ∧
    (∀ (dir : Path) (s x n : String), dir.isAbsolute = true → s ≠ "" → IsName x → IsName n →
      (Path.root.child n).extension ≠ ".json" →
      meant dir (s ++ "/" ++ (n ++ ".json")) = meant dir (s ++ "/" ++ n) ∧
        meant dir (s ++ "/" ++ "." ++ "/" ++ n) = meant dir (s ++ "/" ++ n) ∧
        meant dir (s ++ "/" ++ x ++ "/" ++ ".." ++ "/" ++ n) = meant dir (s ++ "/" ++ n)) ∧
    ∀ (cwd p : Path) (name : String), locate cwd name = .ok p →
      (∀ q, ReflTransGen (Names fs) p q →
        ∃ ms, readMembers fs q = .ok ms ∧ (Declaration.mk q ms).Readable) → ∀ j,
      ((∃ q j', load fs cwd name j = (.error (.circular q), j')) ↔
        ∃ q, ReflTransGen (Names fs) p q ∧ TransGen (Names fs) q q) ∧
      (∀ q j', load fs cwd name j = (.error (.circular q), j') →
        ReflTransGen (Names fs) p q ∧ TransGen (Names fs) q q) ∧
      ((∀ q, ReflTransGen (Names fs) p q →
          ∃ ms, readMembers fs q = .ok ms ∧ (Declaration.mk q ms).WellShaped) →
        (∀ q, ReflTransGen (Names fs) p q → ¬ TransGen (Names fs) q q) →
        ∃ c j', load fs cwd name j = (.ok c, j')) := by
  refine ⟨Call.makes_wellFounded fs, fun depth h read => readChain_unique h,
    fun dir s x n hdir hs hx hn hext => meant_respelled hdir hs hx hn hext, ?_⟩
  intro cwd p name hp hreadable j
  have hreported : ∀ q j', load fs cwd name j = (.error (.circular q), j') →
      ReflTransGen (Names fs) p q ∧ TransGen (Names fs) q q := by
    intro q j' hload
    obtain ⟨r, hr, hcycle⟩ := readChain_error_named hreadable ((load_circular_iff hp).mp hload)
    cases hr
    exact hcycle
  refine ⟨⟨?_, ?_⟩, hreported, fun hwell hacyclic => exists_load_of_acyclic hp hwell hacyclic j⟩
  · rintro ⟨q, j', hload⟩
    exact ⟨q, hreported q j' hload⟩
  · rintro ⟨q, hq, hcycle⟩
    exact exists_load_circular hp hreadable hq hcycle j

/-! ### A chain that closes on itself, and one that does not -/

/-- Whether the files of a list declare what they should and extend only files of the list. -/
def isClosed (fs : FileSystem) (l : List Path) : Bool :=
  l.all fun p => (readMembers fs p).toOption.any fun ms =>
    decide (Declaration.mk p ms).WellShaped && (Declaration.mk p ms).parents.all (l.contains ·)

theorem isClosed_iff {fs : FileSystem} {l : List Path} : isClosed fs l = true ↔
    ∀ p ∈ l, ∃ ms, readMembers fs p = .ok ms ∧ (Declaration.mk p ms).WellShaped ∧
      ∀ q ∈ (Declaration.mk p ms).parents, q ∈ l := by
  unfold isClosed
  rw [List.all_eq_true]
  refine forall₂_congr fun p _ => ?_
  cases readMembers fs p with
  | error f => simp [Except.toOption]
  | ok ms => simp [Except.toOption]

/-- A list in which files extend only files behind them has all that its files extend. -/
theorem isClosed_of_isListed {fs : FileSystem} {l : List Path} (h : isListed fs l = true) :
    isClosed fs l = true := by
  have key : ∀ l', isListed fs l' = true → (∀ p ∈ l', p ∈ l) → ∀ p ∈ l', ∃ ms, readMembers fs p = .ok ms ∧
      (Declaration.mk p ms).WellShaped ∧ ∀ q ∈ (Declaration.mk p ms).parents, q ∈ l := by
    intro l' hl' hsub
    induction l' with
    | nil => exact fun p hp => absurd hp List.not_mem_nil
    | cons first rest ih =>
      obtain ⟨hfirst, -, hrest⟩ := isListed_cons hl'
      obtain ⟨hmem, hsub⟩ := List.forall_mem_cons.mp hsub
      refine List.forall_mem_cons.mpr ⟨?_, ih hrest hsub⟩
      obtain ⟨ms, hms, hwell, hparents⟩ := hfirst
      exact ⟨ms, hms, hwell, fun q hq => hsub q (hparents q hq)⟩
  exact isClosed_iff.mpr (key l h fun _ hp => hp)

theorem wellShaped_of_isClosed {fs : FileSystem} {l : List Path} (h : isClosed fs l = true) {p q : Path}
    (hp : p ∈ l) (hq : ReflTransGen (Names fs) p q) :
    ∃ ms, readMembers fs q = .ok ms ∧ (Declaration.mk q ms).WellShaped := by
  have hmem : q ∈ l := by
    induction hq with
    | refl => exact hp
    | tail _ hstep ih =>
      obtain ⟨ms, hms, hwell, hparents⟩ := isClosed_iff.mp h _ ih
      obtain ⟨ms', hms', hr⟩ := hstep.extends ⟨ms, hms, accepted_iff_readable.mp hwell.accepted⟩
      cases hms.symm.trans hms'
      exact hparents _ hr
  obtain ⟨ms, hms, hwell, -⟩ := isClosed_iff.mp h q hmem
  exact ⟨ms, hms, hwell⟩

/-- Two files that extend each other, in several spellings, and one that extends both. -/
def ringDisk : FileSystem :=
  let path (s : String) : Path := .ofString s
  let file (s : String) : Entry := .file (Bytes.ofString s)
  ((FileSystem.empty.place (path "/p/tsconfig.json")
    (file "\x7b\"extends\":[\"./lib/../a\",\"./lib/b.json\"]\x7d")).place
  (path "/p/a.json") (file "\x7b\"extends\":\"././x/../lib/b\"\x7d")).place
  (path "/p/lib/b.json") (file "\x7b\"extends\":[\"/p/lib/../a.json\"]\x7d")

/-- The ring is refused, and the file that is extended from two sides is not. -/
theorem ringDisk_circular :
    (∃ q j', load ringDisk (.ofString "/p") "tsconfig.json" [] = (.error (.circular q), j') ∧
      TransGen (Names ringDisk) q q) ∧
    ∃ c j', load diamondDisk (.ofString "/p") "tsconfig.json" [] = (.ok c, j') := by
  have hlocate : locate (.ofString "/p") "tsconfig.json" = .ok (.ofString "/p/tsconfig.json") := by
    decide +kernel
  have hring : isClosed ringDisk (["/p/tsconfig.json", "/p/a.json", "/p/lib/b.json"].map .ofString) = true := by
    decide +kernel
  have hlisted : isListed diamondDisk (["/p/tsconfig.json", "/p/left.json", "/p/right.json",
      "/p/lib/base.json"].map .ofString) = true := by decide +kernel
  have hdiamond := isClosed_of_isListed hlisted
  have hreadable : ∀ {fs : FileSystem} {l : List Path}, isClosed fs l = true → ∀ {p}, p ∈ l → ∀ q,
      ReflTransGen (Names fs) p q → ∃ ms, readMembers fs q = .ok ms ∧ (Declaration.mk q ms).Readable :=
    fun h _ hp _ hq => (wellShaped_of_isClosed h hp hq).imp fun _ hms =>
      ⟨hms.1, accepted_iff_readable.mp hms.2.accepted⟩
  constructor
  · have hdown : Extends ringDisk (.ofString "/p/tsconfig.json") (.ofString "/p/a.json") := by decide +kernel
    have hforth : Extends ringDisk (.ofString "/p/a.json") (.ofString "/p/lib/b.json") := by decide +kernel
    have hback : Extends ringDisk (.ofString "/p/lib/b.json") (.ofString "/p/a.json") := by decide +kernel
    obtain ⟨-, -, -, hload⟩ := circular_iff_cycle ringDisk
    obtain ⟨hiff, hreported, -⟩ := hload _ _ "tsconfig.json" hlocate (hreadable hring (by decide)) []
    obtain ⟨q, j', hrun⟩ := hiff.mpr ⟨_, .single hdown.names, .tail (.single hforth.names) hback.names⟩
    exact ⟨q, j', hrun, (hreported q j' hrun).2⟩
  · have hread := hreadable hdiamond (p := .ofString "/p/tsconfig.json") (by decide)
    have hacyclic := (WellShapedChain.of_isListed hlisted).acyclic
    obtain ⟨hreaches, hcycles⟩ := reaches_iff_named hread
    obtain ⟨-, -, -, hload⟩ := circular_iff_cycle diamondDisk
    obtain ⟨-, -, hloads⟩ := hload _ _ "tsconfig.json" hlocate hread []
    refine hloads (fun q hq => wellShaped_of_isClosed hdiamond (by decide) hq) fun q hq hcycle => ?_
    have hq := (hreaches q).mpr hq
    exact hacyclic q hq ((hcycles q q hq).mpr hcycle)

end Config
end Codemod
