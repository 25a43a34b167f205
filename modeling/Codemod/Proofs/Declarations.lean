import Mathlib.Logic.Relation
import Codemod.Proofs.CleanPath

/-!
# What a configuration file declares

A configuration file declares values under its keys, seen from the directory it lies in, and names files that
it extends. A declaration is well-shaped when every value has the shape that its key is meant for; then it can
be read, and what is read is what stands there.

Main statements:

* `Declaration.WellShaped.ofMembers_eq` says what a well-shaped declaration is read as;
* `Declaration.WellShaped.accepted` says that it can be read;
* `Reaches.real` says that all files of a chain lie at real places;
* `OnTheWay.step` keeps, on the way through a chain, what lets the way go on;
* `readReferences_congr` says which files are read for the references of a file;
* `origin_of_readChain` says that each value of a chain is declared by one of its files.
-/

namespace Codemod

open Relation

namespace Json.Value

/-- The text that a value is. -/
def text? : Value → Option String
  | .text s => some s
  | _ => none

/-- The texts of a list of texts. -/
def texts? : Value → Option (List String)
  | .list vs => vs.mapM text?
  | _ => none

/-- The members of an object. -/
def members? : Value → Option Members
  | .object ms => some ms
  | _ => none

theorem text?_eq_some {v : Value} {s : String} (h : v.text? = some s) : v = .text s := by
  cases v <;> cases h
  rfl

theorem members?_eq_some {v : Value} {ms : Members} (h : v.members? = some ms) : v = .object ms := by
  cases v <;> cases h
  rfl

theorem texts?_eq_some {v : Value} {ss : List String} (h : v.texts? = some ss) :
    v = .list (ss.map .text) := by
  cases v with
  | list vs =>
    have hall : vs.mapM text? = some ss := h
    clear h
    induction vs generalizing ss with
    | nil =>
      cases hall
      rfl
    | cons v rest ih =>
      rw [List.mapM_cons] at hall
      obtain ⟨s, hs, hall⟩ := Option.bind_eq_some_iff.mp hall
      obtain ⟨more, hmore, hall⟩ := Option.bind_eq_some_iff.mp hall
      cases hall
      have hlist := ih hmore
      rw [Value.list.injEq] at hlist
      rw [text?_eq_some hs, hlist]
      rfl
  | null | bool | int | real | text | object => cases h

end Json.Value

namespace Config

/-! ### Declarations -/

/-- A configuration file with the members that stand in it. -/
structure Declaration where
  path : Path
  members : Json.Members

/-- The file that a reference means, seen from a directory, if it means one. -/
def target? (dir : Path) : Json.Value → Option Path
  | .text s => (referenced dir s).toOption.join
  | _ => none

/-- The files that references mean, seen from a directory. -/
def targets (dir : Path) (refs : List Json.Value) : List Path :=
  refs.filterMap (target? dir)

namespace Declaration

variable (d : Declaration)

/-- The directory that paths and patterns in the file are relative to. -/
def directory : Path := d.path.parent

/-- The files that it extends, from left to right. -/
def parents : List Path :=
  match references d.members with
  | .ok refs => targets d.directory refs
  | .error _ => []

variable {d} in
theorem parents_eq {refs : List Json.Value} (h : references d.members = .ok refs) :
    d.parents = targets d.directory refs := by
  unfold parents
  rw [h]

/-- The layer that it declares. -/
def layer : Layer :=
  (Layer.ofMembers d.directory d.members).toOption.getD .empty

/-- All that is read of a declaration can be read. -/
structure Accepted : Prop where
  layer : ∃ l, Layer.ofMembers d.directory d.members = .ok l
  references : ∃ refs, Config.references d.members = .ok refs ∧
    ∀ v ∈ refs, ∃ s t, v = .text s ∧ referenced d.directory s = .ok t

theorem Accepted.ofMembers_eq {d : Declaration} (h : d.Accepted) :
    Layer.ofMembers d.directory d.members = .ok d.layer := by
  obtain ⟨l, hl⟩ := h.layer
  unfold Declaration.layer
  rw [hl]
  rfl

end Declaration

/-- A layer is put together from what can be read under each key. -/
theorem Layer.ofMembers_eq_ok {dir : Path} {ms : Json.Members} {l : Layer}
    (h : Layer.ofMembers dir ms = .ok l) :
    ∃ opts, options (Keyed.get? ms "compilerOptions") = .ok opts ∧
      locateOption dir opts "baseUrl" = .ok l.baseUrl ∧ locateOption dir opts "outDir" = .ok l.outDir ∧
      patterns dir ms "include" = .ok l.included ∧ patterns dir ms "exclude" = .ok l.excluded ∧
      patterns dir ms "files" = .ok l.files := by
  unfold Layer.ofMembers at h
  obtain ⟨opts, hopts, h⟩ := Except.bind_eq_ok h
  obtain ⟨baseUrl, hbaseUrl, h⟩ := Except.bind_eq_ok h
  obtain ⟨outDir, houtDir, h⟩ := Except.bind_eq_ok h
  obtain ⟨included, hincluded, h⟩ := Except.bind_eq_ok h
  obtain ⟨excluded, hexcluded, h⟩ := Except.bind_eq_ok h
  obtain ⟨files, hfiles, h⟩ := Except.bind_eq_ok h
  cases h
  exact ⟨opts, hopts, hbaseUrl, houtDir, hincluded, hexcluded, hfiles⟩

/-! ### Well-shaped declarations -/

namespace Declaration

variable (d : Declaration)

/-- The compiler options. -/
def options : Json.Members :=
  ((Keyed.get? d.members "compilerOptions").bind Json.Value.members?).getD []

/-- The value of a compiler option. -/
def option (key : String) : Option Json.Value :=
  Keyed.get? d.options key

/-- The place that an option names, anchored at the directory of the file. -/
def place? (key : String) : Option Path :=
  ((d.option key).bind Json.Value.text?).map fun s => d.directory.absolute (.ofString s)

/-- The patterns under a key, anchored at the directory of the file. -/
def patterns? (key : String) : Option (List String) :=
  ((Keyed.get? d.members key).bind Json.Value.texts?).map (·.map (anchorPattern d.directory))

/-- The aliases, with the directory that their targets are relative to: the base directory that the file
itself names, or else the directory of the file. -/
def aliasing? : Option (Keyed String (List Json.Value) × Path) :=
  (d.option "paths").map fun v =>
    ((v.members?.getD []).map fun m => (m.1, m.2.items?.getD []), (d.place? "baseUrl").getD d.directory)

/-- The texts by which the file names those that it extends: one text, or a list of them. -/
def references? (v : Json.Value) : Option (List String) :=
  v.text?.elim v.texts? fun s => some [s]

/-- What is under each key has the shape that the key is meant for, and the file does not say itself what
alias targets are relative to. -/
structure WellShaped : Prop where
  options : (Keyed.get? d.members "compilerOptions").all (·.members?.isSome)
  places : ∀ key ∈ ["baseUrl", "outDir"],
    (d.option key).all fun v => v.text?.any fun s => (locate d.directory s).isOk
  aliases : (d.option "paths").all fun v => v.members?.any fun ms => ms.all (·.2.texts?.isSome)
  patterns : ∀ key ∈ ["include", "exclude", "files"],
    (Keyed.get? d.members key).all (·.texts?.isSome)
  references : (Keyed.get? d.members "extends").all fun v => (references? v).any fun ss =>
    ss.all fun s => (referenced d.directory s).isOk
  noBase : (d.option "__pathsBase").isNone

instance : Decidable d.WellShaped :=
  decidable_of_iff
    (((Keyed.get? d.members "compilerOptions").all (·.members?.isSome) = true ∧
      ∀ key ∈ ["baseUrl", "outDir"],
        (d.option key).all (fun v => v.text?.any fun s => (locate d.directory s).isOk) = true) ∧
      ((d.option "paths").all (fun v => v.members?.any fun ms => ms.all (·.2.texts?.isSome)) = true ∧
      ∀ key ∈ ["include", "exclude", "files"],
        (Keyed.get? d.members key).all (·.texts?.isSome) = true) ∧
      (Keyed.get? d.members "extends").all (fun v => (references? v).any fun ss =>
        ss.all fun s => (referenced d.directory s).isOk) = true ∧
      (d.option "__pathsBase").isNone = true)
    ⟨fun ⟨⟨a, b⟩, ⟨c, d⟩, e, f⟩ => ⟨a, b, c, d, e, f⟩,
      fun ⟨a, b, c, d, e, f⟩ => ⟨⟨a, b⟩, ⟨c, d⟩, e, f⟩⟩

namespace WellShaped

variable {d : Declaration} {key : String}

theorem options_eq (h : d.WellShaped) :
    Config.options (Keyed.get? d.members "compilerOptions") = .ok d.options := by
  unfold Declaration.options
  cases hv : Keyed.get? d.members "compilerOptions" with
  | none => rfl
  | some v =>
    have hobject := h.options
    rw [hv, Option.all_some] at hobject
    obtain ⟨ms, hms⟩ := Option.isSome_iff_exists.mp hobject
    rw [Json.Value.members?_eq_some hms]
    rfl

theorem locate_eq {dir : Path} {s : String} (h : (locate dir s).isOk = true) :
    locate dir s = .ok (dir.absolute (.ofString s)) := by
  unfold locate at h ⊢
  dsimp only at h ⊢
  split
  case isTrue hnull =>
    rw [if_pos hnull] at h
    cases h
  case isFalse => rfl

theorem locateOption_eq (h : d.WellShaped) (hkey : key ∈ ["baseUrl", "outDir"]) :
    locateOption d.directory d.options key = .ok (d.place? key) := by
  unfold locateOption Declaration.place? Declaration.option
  cases hv : Keyed.get? d.options key with
  | none => rfl
  | some v =>
    have hplace := h.places key hkey
    unfold Declaration.option at hplace
    rw [hv, Option.all_some] at hplace
    obtain ⟨s, hs, hok⟩ := (Option.any_eq_true _ _).mp hplace
    obtain rfl := Json.Value.text?_eq_some hs
    show some <$> locate d.directory s = _
    rw [locate_eq hok]
    rfl

theorem patternTexts_eq (dir : Path) (ss : List String) :
    patternTexts dir (ss.map .text) = .ok (ss.map (anchorPattern dir)) := by
  induction ss with
  | nil => rfl
  | cons s rest ih =>
    show (anchorPattern dir s :: ·) <$> patternTexts dir (rest.map .text) = _
    rw [ih]
    rfl

theorem patterns_eq (h : d.WellShaped) (hkey : key ∈ ["include", "exclude", "files"]) :
    Config.patterns d.directory d.members key = .ok (d.patterns? key) := by
  unfold Config.patterns Declaration.patterns?
  cases hv : Keyed.get? d.members key with
  | none => rfl
  | some v =>
    have htexts := h.patterns key hkey
    rw [hv, Option.all_some] at htexts
    obtain ⟨ss, hss⟩ := Option.isSome_iff_exists.mp htexts
    rw [Option.bind_some, hss, Json.Value.texts?_eq_some hss]
    show some <$> patternTexts d.directory (ss.map .text) = _
    rw [patternTexts_eq]
    rfl

/-- The layer of a well-shaped declaration. -/
theorem ofMembers_eq (h : d.WellShaped) : Layer.ofMembers d.directory d.members = .ok
    { baseUrl := d.place? "baseUrl"
      outDir := d.place? "outDir"
      aliases := d.option "paths"
      aliasBase := (d.option "paths").map fun _ =>
        .text ((d.place? "baseUrl").getD d.directory).toString
      allowJs := d.option "allowJs"
      included := d.patterns? "include"
      excluded := d.patterns? "exclude"
      files := d.patterns? "files" } := by
  have hbase : Keyed.get? d.options "__pathsBase" = none := Option.isNone_iff_eq_none.mp h.noBase
  unfold Layer.ofMembers
  rw [h.options_eq, Except.ok_bind, h.locateOption_eq (by simp), Except.ok_bind,
    h.locateOption_eq (by simp), Except.ok_bind]
  dsimp only
  rw [h.patterns_eq (by simp), Except.ok_bind, h.patterns_eq (by simp), Except.ok_bind,
    h.patterns_eq (by simp), Except.ok_bind, hbase]
  unfold Declaration.option
  cases Keyed.get? d.options "paths" <;> rfl

theorem layer_eq (h : d.WellShaped) : d.layer =
    { baseUrl := d.place? "baseUrl"
      outDir := d.place? "outDir"
      aliases := d.option "paths"
      aliasBase := (d.option "paths").map fun _ =>
        .text ((d.place? "baseUrl").getD d.directory).toString
      allowJs := d.option "allowJs"
      included := d.patterns? "include"
      excluded := d.patterns? "exclude"
      files := d.patterns? "files" } := by
  unfold Declaration.layer
  rw [h.ofMembers_eq]
  rfl

theorem aliasTargets_eq {ms : Json.Members} (h : ms.all (·.2.texts?.isSome) = true) :
    aliasTargets ms = .ok (ms.map fun m => (m.1, m.2.items?.getD [])) := by
  induction ms with
  | nil => rfl
  | cons m rest ih =>
    rw [List.all_cons, Bool.and_eq_true] at h
    obtain ⟨ss, hss⟩ := Option.isSome_iff_exists.mp h.1
    have hitems : m.2.items? = some (ss.map .text) := by
      rw [Json.Value.texts?_eq_some hss]
      rfl
    unfold aliasTargets
    rw [hitems, ih h.2, List.map_cons, hitems]
    rfl

/-- The aliases of a well-shaped declaration. -/
theorem aliasesOf_eq (h : d.WellShaped) : aliasesOf (d.option "paths") =
    .ok ((d.aliasing?.map (·.1)).getD []) := by
  have haliases := h.aliases
  unfold aliasing?
  cases hv : d.option "paths" with
  | none => rfl
  | some v =>
    rw [hv, Option.all_some] at haliases
    obtain ⟨ms, hms, hall⟩ := (Option.any_eq_true _ _).mp haliases
    obtain rfl := Json.Value.members?_eq_some hms
    exact aliasTargets_eq hall

theorem references_eq (h : d.WellShaped) : ∃ refs, Config.references d.members = .ok refs ∧
    ∀ v ∈ refs, ∃ s t, v = .text s ∧ referenced d.directory s = .ok t := by
  have hrefs := h.references
  unfold Config.references
  cases hv : Keyed.get? d.members "extends" with
  | none => exact ⟨[], rfl, fun v hmem => absurd hmem List.not_mem_nil⟩
  | some v =>
    rw [hv, Option.all_some] at hrefs
    obtain ⟨ss, hss, hall⟩ := (Option.any_eq_true _ _).mp hrefs
    have hok : ∀ s ∈ ss, ∃ t, referenced d.directory s = .ok t := by
      intro s hs
      have := List.all_eq_true.mp hall s hs
      cases href : referenced d.directory s with
      | ok t => exact ⟨t, rfl⟩
      | error f => rw [href] at this; cases this
    have hread : v.text? = none ∧ v.texts? = some ss ∨ ∃ s, v = .text s ∧ ss = [s] := by
      unfold references? at hss
      cases ht : v.text? with
      | none => exact .inl ⟨rfl, by rwa [ht] at hss⟩
      | some s =>
        rw [ht] at hss
        exact .inr ⟨s, Json.Value.text?_eq_some ht, (Option.some.inj hss).symm⟩
    rcases hread with ⟨-, htexts⟩ | ⟨s, rfl, rfl⟩
    · rw [Json.Value.texts?_eq_some htexts]
      refine ⟨_, rfl, fun w hw => ?_⟩
      obtain ⟨s, hs, rfl⟩ := List.mem_map.mp hw
      obtain ⟨t, ht⟩ := hok s hs
      exact ⟨s, t, rfl, ht⟩
    · refine ⟨_, rfl, fun w hw => ?_⟩
      obtain rfl := List.mem_singleton.mp hw
      obtain ⟨t, ht⟩ := hok s (List.mem_singleton_self _)
      exact ⟨s, t, rfl, ht⟩

theorem accepted (h : d.WellShaped) : d.Accepted :=
  ⟨⟨_, h.ofMembers_eq⟩, h.references_eq⟩

end WellShaped

/-- The place that an option names is a real one. -/
theorem place?_real {d : Declaration} {key : String} {p : Path} (hd : d.path.Real)
    (h : d.place? key = some p) : p.Real := by
  obtain ⟨s, -, rfl⟩ := Option.map_eq_some_iff.mp h
  exact ⟨hd.parent.clean.absolute hd.parent.isAbsolute s, rfl⟩

end Declaration

/-! ### The files of a chain -/

/-- One configuration file extends another. -/
def Extends (fs : FileSystem) (p q : Path) : Prop :=
  ∃ ms, readMembers fs p = .ok ms ∧ q ∈ (Declaration.mk p ms).parents

instance (fs : FileSystem) (p q : Path) : Decidable (Extends fs p q) :=
  decidable_of_iff ((readMembers fs p).toOption.any fun ms => decide (q ∈ (Declaration.mk p ms).parents)) <| by
    unfold Extends
    cases readMembers fs p <;> simp [Except.toOption]

/-- One configuration file is another one, or extends it, possibly through others. -/
def Reaches (fs : FileSystem) : Path → Path → Prop :=
  ReflTransGen (Extends fs)

theorem mem_keys_of_readMembers {fs : FileSystem} {p : Path} {ms : Json.Members}
    (h : readMembers fs p = .ok ms) : p ∈ fs.entries.keys := by
  have hread : ∃ b, fs.read p = .ok b := by
    unfold readMembers readText at h
    split at h
    · cases h
    · cases hb : fs.read p with
      | ok b => exact ⟨b, rfl⟩
      | error f => rw [hb] at h; cases h
  obtain ⟨b, hb⟩ := hread
  have hlook := (FileSystem.read_eq_ok_iff.mp hb).2
  unfold FileSystem.lookup? at hlook
  split at hlook
  · cases hlook
  · exact Keyed.get?_isSome_iff.mp (Option.isSome_iff_exists.mpr ⟨_, hlook⟩)

/-! ### Where the files of a chain lie -/

/-- A text means a file exactly when one of the references does. -/
theorem mem_targets {dir q : Path} {refs : List Json.Value} :
    q ∈ targets dir refs ↔ ∃ s, .text s ∈ refs ∧ referenced dir s = .ok (some q) := by
  unfold targets
  rw [List.mem_filterMap]
  constructor
  · rintro ⟨v, hv, htarget⟩
    cases v with
    | text s =>
      refine ⟨s, hv, ?_⟩
      change (referenced dir s).toOption.join = some q at htarget
      cases href : referenced dir s with
      | error f => rw [href] at htarget; cases htarget
      | ok t =>
        rw [href] at htarget
        exact congrArg Except.ok htarget
    | null | bool | int | real | list | object => cases htarget
  · rintro ⟨s, hs, href⟩
    refine ⟨_, hs, ?_⟩
    show (referenced dir s).toOption.join = some q
    rw [href]
    rfl

theorem mem_targets_head {dir q : Path} {s : String} (h : referenced dir s = .ok (some q))
    (refs : List Json.Value) : q ∈ targets dir (.text s :: refs) :=
  mem_targets.mpr ⟨s, List.mem_cons_self .., h⟩

theorem mem_targets_tail {dir q : Path} {refs : List Json.Value} (h : q ∈ targets dir refs)
    (v : Json.Value) : q ∈ targets dir (v :: refs) := by
  obtain ⟨s, hs, href⟩ := mem_targets.mp h
  exact mem_targets.mpr ⟨s, List.mem_cons_of_mem _ hs, href⟩

/-- Only the files that the references mean are read for them. -/
theorem readReferences_congr {read read' : Path → Journaled Fault Layer} {p : Path} {refs : List Json.Value}
    (h : ∀ q ∈ targets p.parent refs, read q = read' q) (base : Layer) :
    readReferences read p base refs = readReferences read' p base refs := by
  induction refs generalizing base with
  | nil => rfl
  | cons v rest ih =>
    have ih := ih fun q hq => h q (mem_targets_tail hq v)
    cases v with
    | text s =>
      unfold readReferences
      cases href : referenced p.parent s with
      | error e => rfl
      | ok target =>
        simp only [Journaled.ofExcept_ok_bind]
        cases target with
        | none => exact bind_congr fun _ => ih base
        | some q =>
          simp only [h q (mem_targets_head href rest)]
          exact bind_congr fun layer => ih _
    | null | bool | int | real | list | object => rfl

/-- A text names a real place. -/
theorem locate_real {dir p : Path} {s : String} (hdir : dir.Clean) (habs : dir.isAbsolute = true)
    (h : locate dir s = .ok p) : p.Real := by
  refine ⟨?_, locate_anchor h⟩
  unfold locate at h
  dsimp only at h
  split at h
  case isTrue => cases h
  case isFalse =>
    cases h
    exact hdir.absolute habs s

/-- A reference means a real place. -/
theorem referenced_real {dir q : Path} {s : String} (hdir : dir.Real)
    (h : referenced dir s = .ok (some q)) : q.Real := by
  unfold referenced at h
  split at h
  case isFalse => cases h
  case isTrue =>
    obtain ⟨p, hp, h⟩ := Except.bind_eq_ok h
    have hreal := locate_real hdir.clean hdir.isAbsolute hp
    split at h
    case isTrue =>
      cases h
      exact hreal
    case isFalse =>
      split at h
      case isTrue => cases h
      case isFalse hname =>
        cases h
        exact hreal.replaceName hname

theorem Extends.real {fs : FileSystem} {p q : Path} (h : Extends fs p q) (hp : p.Real) : q.Real := by
  obtain ⟨ms, -, hq⟩ := h
  unfold Declaration.parents at hq
  split at hq
  case h_1 =>
    obtain ⟨s, -, href⟩ := mem_targets.mp hq
    exact referenced_real hp.parent href
  case h_2 => cases hq

/-- All files of a chain lie at real places. -/
theorem Reaches.real {fs : FileSystem} {p q : Path} (h : Reaches fs p q) (hp : p.Real) : q.Real := by
  induction h with
  | refl => exact hp
  | tail _ hstep ih => exact hstep.real ih

/-! ### The way to a file of a chain -/

/-- The files on the way from the first file of a chain to another one, in which no file extends itself. They
are different ones, each of them there, so that the depth left is enough for the others. -/
structure OnTheWay (fs : FileSystem) (p : Path) (depth : Nat) (seen : List Path) (q : Path) : Prop where
  acyclic : ∀ r, Reaches fs p r → ¬ TransGen (Extends fs) r r
  reaches : Reaches fs p q
  nodup : seen.Nodup
  before : ∀ r ∈ seen, r ∈ fs.entries.keys ∧ TransGen (Extends fs) r q
  enough : fs.entries.length < seen.length + depth

namespace OnTheWay

variable {fs : FileSystem} {p q r : Path} {depth : Nat} {seen : List Path}

theorem start (h : ∀ r, Reaches fs p r → ¬ TransGen (Extends fs) r r) :
    OnTheWay fs p (fs.entries.length + 2) [] p where
  acyclic := h
  reaches := .refl
  nodup := .nil
  before _ hr := absurd hr List.not_mem_nil
  enough := by
    rw [List.length_nil]
    omega

/-- The file itself is met for the first time. -/
theorem fresh (h : OnTheWay fs p depth seen q) : q ∉ seen :=
  fun hmem => h.acyclic q h.reaches (h.before q hmem).2

/-- There are not more files on the way than there are files. -/
theorem depth_ne_zero (h : OnTheWay fs p depth seen q) : depth ≠ 0 := by
  rintro rfl
  have hle := (h.nodup.subperm fun r hr => (h.before r hr).1).length_le
  have henough := h.enough
  rw [Keyed.keys, List.length_map] at hle
  omega

/-- The way goes on to each file that is extended. -/
theorem step {ms : Json.Members} (h : OnTheWay fs p (depth + 1) seen q) (hms : readMembers fs q = .ok ms)
    (hr : r ∈ (Declaration.mk q ms).parents) : OnTheWay fs p depth (q :: seen) r where
  acyclic := h.acyclic
  reaches := h.reaches.tail ⟨ms, hms, hr⟩
  nodup := List.nodup_cons.mpr ⟨h.fresh, h.nodup⟩
  before x hx := by
    have hextends : Extends fs q r := ⟨ms, hms, hr⟩
    rcases List.mem_cons.mp hx with rfl | hx
    · exact ⟨mem_keys_of_readMembers hms, .single hextends⟩
    · exact ⟨(h.before x hx).1, (h.before x hx).2.tail hextends⟩
  enough := by
    have henough := h.enough
    rw [List.length_cons]
    omega

end OnTheWay

/-! ### Where a value comes from -/

/-- What a layer says is said by the layer on top, or else by the one below. -/
structure Layer.Stacks {α : Type} (π : Layer → Option α) : Prop where
  empty : π .empty = none
  onto : ∀ a b : Layer, π (a.onto b) = (π a).or (π b)

/-- What the united layers of references say is said by one of them. -/
theorem origin_of_readReferences {α : Type} {π : Layer → Option α} (hπ : Layer.Stacks π)
    {read : Path → Journaled Fault Layer} {p : Path} {refs : List Json.Value} {base l : Layer}
    {j j' : Journal} {a : α} (h : readReferences read p base refs j = (.ok l, j')) (ha : π l = some a) :
    π base = some a ∨ ∃ q ∈ targets p.parent refs, ∃ l' i i', read q i = (.ok l', i') ∧ π l' = some a := by
  induction refs generalizing base j with
  | nil =>
    cases h
    exact .inl ha
  | cons v rest ih =>
    cases v with
    | text s =>
      unfold readReferences at h
      obtain ⟨t, j₁, ht, h⟩ := Journaled.bind_eq_ok h
      have href := (Journaled.ofExcept_eq_ok ht).1
      cases t with
      | none =>
        obtain ⟨-, j₂, -, h⟩ := Journaled.bind_eq_ok h
        exact (ih h).imp id fun ⟨q, hq, hread⟩ => ⟨q, mem_targets_tail hq _, hread⟩
      | some q =>
        obtain ⟨layer, j₂, hread, h⟩ := Journaled.bind_eq_ok h
        rcases ih h with hbase | ⟨r, hr, hfound⟩
        · rw [hπ.onto] at hbase
          rcases Option.or_eq_some_iff.mp hbase with hlayer | ⟨-, hbase⟩
          · exact .inr ⟨q, mem_targets_head href rest, layer, _, _, hread, hlayer⟩
          · exact .inl hbase
        · exact .inr ⟨r, mem_targets_tail hr _, hfound⟩
    | null | bool | int | real | list | object => cases h

/-- What the united layers of a chain say is declared by one of its files. -/
theorem origin_of_readChain {α : Type} {π : Layer → Option α} (hπ : Layer.Stacks π) {fs : FileSystem}
    {fuel : Nat} {seen : List Path} {p : Path} {l : Layer} {j j' : Journal} {a : α}
    (h : readChain fs fuel seen p j = (.ok l, j')) (ha : π l = some a) :
    ∃ d : Declaration, Reaches fs p d.path ∧ readMembers fs d.path = .ok d.members ∧
      ∃ layer, Layer.ofMembers d.directory d.members = .ok layer ∧ π layer = some a := by
  induction fuel generalizing seen p l j j' with
  | zero => cases h
  | succ n ih =>
    unfold readChain at h
    split at h
    case isTrue => cases h
    case isFalse =>
      obtain ⟨ms, j₁, hms, h⟩ := Journaled.bind_eq_ok h
      obtain ⟨layer, j₂, hlayer, h⟩ := Journaled.bind_eq_ok h
      obtain ⟨refs, j₃, hrefs, h⟩ := Journaled.bind_eq_ok h
      obtain ⟨base, j₄, hbase, h⟩ := Journaled.bind_eq_ok h
      cases h
      have hms := (Journaled.ofExcept_eq_ok hms).1
      rw [hπ.onto] at ha
      rcases Option.or_eq_some_iff.mp ha with hown | ⟨-, hunder⟩
      · exact ⟨⟨p, ms⟩, .refl, hms, layer, (Journaled.ofExcept_eq_ok hlayer).1, hown⟩
      · rcases origin_of_readReferences hπ hbase hunder with hnone | ⟨q, hq, l', i, i', hread, hsaid⟩
        · rw [hπ.empty] at hnone
          cases hnone
        · obtain ⟨d, hreach, hd⟩ := ih hread hsaid
          have hparents := Declaration.parents_eq (d := ⟨p, ms⟩) (Journaled.ofExcept_eq_ok hrefs).1
          exact ⟨d, .head ⟨ms, hms, hparents ▸ hq⟩ hreach, hd⟩

end Config
end Codemod
