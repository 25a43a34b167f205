import Codemod.Proofs.Declarations

/-!
# What a configuration inherits

A configuration extends others, which may extend others again, and one file may be extended from several
sides. Where the chain does not close on itself, its files can be put in an order: the files that a file
extends from left to right, each of them behind all that it extends itself, and the file at the end. What a
configuration has under a key is what the last file in this order declares under it.

Main statements:

* `InOrder.unique` says that there is only one such order;
* `readChain_eq_unite` says that a chain that does not close on itself is read as the layers of its files,
  laid over each other in this order;
* `unite_eq` says what such layers come to: the last declaration of each key decides;
* `inherited_values` says what a configuration takes from the files of its chain.
-/

namespace Codemod

open Relation

namespace Config

/-! ### Layers on layers -/

/-- What the last declaration that says something says. -/
def lastOf {α : Type} (f : Declaration → Option α) : List Declaration → Option α
  | [] => none
  | d :: rest => (lastOf f rest).or (f d)

/-- The layers of declarations laid over each other, the last one on top, and all of them over another
layer. -/
def unite (order : List Declaration) (base : Layer) : Layer :=
  order.foldl (fun base d => d.layer.onto base) base

/-- Declarations can be united before they are laid over a layer. -/
theorem unite_onto (order : List Declaration) (base : Layer) :
    (unite order .empty).onto base = unite order base := by
  have key : ∀ base', (unite order base').onto base = unite order (base'.onto base) := by
    induction order with
    | nil => exact fun _ => rfl
    | cons d rest ih =>
      intro base'
      show (unite rest (d.layer.onto base')).onto base = unite rest (d.layer.onto (base'.onto base))
      rw [ih, Layer.onto_assoc]
  rw [key, Layer.empty_onto]

theorem unite_append (first second : List Declaration) (base : Layer) :
    unite (first ++ second) base = unite second (unite first base) :=
  List.foldl_append

theorem lastOf_map {α β : Type} (f : Declaration → Option α) (g : α → β) (order : List Declaration) :
    lastOf (fun d => (f d).map g) order = (lastOf f order).map g := by
  induction order with
  | nil => rfl
  | cons d rest ih => simp [lastOf, ih, Option.map_or]

theorem lastOf_congr {α : Type} {f g : Declaration → Option α} {order : List Declaration}
    (h : ∀ d ∈ order, f d = g d) : lastOf f order = lastOf g order := by
  induction order with
  | nil => rfl
  | cons d rest ih =>
    rw [lastOf, lastOf, ih fun e he => h e (List.mem_cons_of_mem _ he), h d (List.mem_cons_self ..)]

/-- What a list of declarations comes to is said by one of them. -/
theorem exists_of_lastOf {α : Type} {f : Declaration → Option α} {order : List Declaration} {a : α}
    (h : lastOf f order = some a) : ∃ d ∈ order, f d = some a := by
  induction order with
  | nil => cases h
  | cons d rest ih =>
    rcases Option.or_eq_some_iff.mp h with hrest | ⟨-, hd⟩
    · obtain ⟨e, he, hfe⟩ := ih hrest
      exact ⟨e, List.mem_cons_of_mem _ he, hfe⟩
    · exact ⟨d, List.mem_cons_self .., hd⟩

/-! ### The order of a chain -/

/-- The files of a chain in order: the files that the last one extends from left to right, each of them
behind all that it extends itself, and then the last one. -/
inductive InOrder (fs : FileSystem) : Path → List Declaration → Prop
  | file {p : Path} {ms : Json.Members} {orders : List (List Declaration)}
      (hread : readMembers fs p = .ok ms)
      (hparents : List.Forall₂ (InOrder fs) (Declaration.mk p ms).parents orders) :
      InOrder fs p (orders.flatten ++ [⟨p, ms⟩])

namespace InOrder

variable {fs : FileSystem} {p : Path} {order order' : List Declaration}

/-- What follows for a file from what holds for all that it extends holds for every file. -/
theorem induct {motive : (p : Path) → (order : List Declaration) → InOrder fs p order → Prop}
    (file : ∀ {p : Path} {ms : Json.Members} {orders : List (List Declaration)}
      (hread : readMembers fs p = .ok ms)
      (hparents : List.Forall₂ (InOrder fs) (Declaration.mk p ms).parents orders)
      (_ : List.Forall₂ (fun q o => ∃ h : InOrder fs q o, motive q o h)
        (Declaration.mk p ms).parents orders), motive p _ (.file hread hparents))
    (h : InOrder fs p order) : motive p order h :=
  @InOrder.rec fs motive
    (fun qs orders _ => List.Forall₂ (fun q o => ∃ h : InOrder fs q o, motive q o h) qs orders)
    file .nil (fun h _ ih ihs => .cons ⟨h, ih⟩ ihs) p order h

/-- There is only one order. -/
theorem unique (h : InOrder fs p order) (h' : InOrder fs p order') : order = order' := by
  induction h using induct generalizing order' with
  | file hread hparents ih =>
    cases h' with
    | @file _ _ orders' hread' hparents' =>
      cases hread.symm.trans hread'
      congr 2
      -- The orders of the files that are extended agree one by one.
      clear hread hread' hparents
      generalize (Declaration.mk _ _).parents = qs at ih hparents'
      induction ih generalizing orders' with
      | nil =>
        cases hparents'
        rfl
      | cons hfirst _ ih =>
        cases hparents' with
        | cons hfirst' hrest' =>
          obtain ⟨_, hfirst⟩ := hfirst
          rw [hfirst hfirst', ih hrest']

/-- The files in the order are those of the chain. -/
theorem reaches (h : InOrder fs p order) : ∀ d ∈ order,
    Reaches fs p d.path ∧ readMembers fs d.path = .ok d.members := by
  induction h using induct with
  | @file p ms orders hread hparents ih =>
    intro d hd
    rcases List.mem_append.mp hd with hd | hd
    · obtain ⟨o, ho, hdo⟩ := List.mem_flatten.mp hd
      obtain ⟨i, hi, rfl⟩ := List.getElem_of_mem ho
      have hi' : i < (Declaration.mk p ms).parents.length := ih.length_eq ▸ hi
      obtain ⟨_, hfile⟩ := ih.get hi' hi
      obtain ⟨hreach, hd⟩ := hfile d hdo
      exact ⟨.head ⟨ms, hread, List.get_mem ..⟩ hreach, hd⟩
    · obtain rfl := List.mem_singleton.mp hd
      exact ⟨.refl, hread⟩

end InOrder

/-! ### Reading a chain -/

/-- The layers of the files that a configuration extends are laid over each other as their chains are in
order. -/
theorem readReferences_eq_unite {fs : FileSystem} {read : Path → Journaled Fault Layer} {p : Path}
    {refs : List Json.Value}
    (hrefs : ∀ v ∈ refs, ∃ s t, v = .text s ∧ referenced p.parent s = .ok t)
    (hread : ∀ q ∈ targets p.parent refs, ∀ j, ∃ order j', InOrder fs q order ∧
      read q j = (.ok (unite order .empty), j')) (base : Layer) (j : Journal) :
    ∃ orders j', List.Forall₂ (InOrder fs) (targets p.parent refs) orders ∧
      readReferences read p base refs j = (.ok (unite orders.flatten base), j') := by
  induction refs generalizing base j with
  | nil => exact ⟨[], j, .nil, rfl⟩
  | cons v rest ih =>
    obtain ⟨s, t, rfl, ht⟩ := hrefs v (List.mem_cons_self ..)
    have hrefs' := fun w hw => hrefs w (List.mem_cons_of_mem _ hw)
    have htargets : targets p.parent (.text s :: rest) = t.toList ++ targets p.parent rest := by
      have htarget : target? p.parent (.text s) = t := by
        show (referenced p.parent s).toOption.join = t
        rw [ht]
        rfl
      unfold targets
      rw [List.filterMap_cons, htarget]
      cases t <;> rfl
    unfold readReferences
    rw [ht, Journaled.ofExcept_ok_bind, htargets]
    rw [htargets] at hread
    cases t with
    | none =>
      -- A reference that is no path is noted and passed over.
      exact ih hrefs' hread base _
    | some q =>
      obtain ⟨order, j₁, horder, hq⟩ := hread q (List.mem_cons_self ..) j
      obtain ⟨orders, j₂, horders, hrest⟩ :=
        ih hrefs' (fun r hr => hread r (List.mem_cons_of_mem _ hr)) (unite order base) j₁
      refine ⟨order :: orders, j₂, .cons horder horders, ?_⟩
      show (read q >>= _) j = _
      rw [Journaled.bind_ok hq, unite_onto, hrest, List.flatten_cons, unite_append]

/-- A chain that does not close on itself is read as the layers of its files, laid over each other in
order. -/
theorem readChain_eq_unite {fs : FileSystem} {p : Path}
    (haccepted : ∀ q, Reaches fs p q → ∃ ms, readMembers fs q = .ok ms ∧ (Declaration.mk q ms).Accepted)
    {depth : Nat} {seen : List Path} {q : Path} (h : OnTheWay fs p depth seen q) (j : Journal) :
    ∃ order j', InOrder fs q order ∧ readChain fs depth seen q j = (.ok (unite order .empty), j') := by
  induction depth generalizing seen q j with
  | zero => exact absurd rfl h.depth_ne_zero
  | succ n ih =>
    obtain ⟨ms, hms, haccepted⟩ := haccepted q h.reaches
    obtain ⟨refs, hrefs, htexts⟩ := haccepted.references
    -- Each of the files that it extends is the next one on the way.
    have hparents : (Declaration.mk q ms).parents = targets q.parent refs := Declaration.parents_eq hrefs
    obtain ⟨orders, j', horders, hrun⟩ := readReferences_eq_unite htexts
      (fun r hr j => ih (h.step hms (hparents ▸ hr)) j) .empty j
    refine ⟨_, j', .file hms (hparents ▸ horders), ?_⟩
    unfold readChain
    rw [if_neg (by simpa using h.fresh), hms, Journaled.ofExcept_ok_bind,
      show Layer.ofMembers q.parent ms = _ from haccepted.ofMembers_eq, Journaled.ofExcept_ok_bind,
      show references ms = _ from hrefs, Journaled.ofExcept_ok_bind, Journaled.bind_ok hrun, unite_append]
    rfl

/-! ### What a configuration takes from its chain -/

/-- A configuration takes every value from the last of the declarations that declares it, and the aliases
together with the directory that their targets are relative to. -/
structure TakenFrom (order : List Declaration) (c : Config) : Prop where
  baseUrl : c.baseUrl = lastOf (·.place? "baseUrl") order
  outDir : c.outDir = lastOf (·.place? "outDir") order
  allowJs : c.allowJs = ((lastOf (·.option "allowJs") order).map Json.Value.isSet).getD false
  aliases : (c.aliases, c.aliasBase) =
    ((lastOf (·.aliasing?) order).map fun a => (a.1, some a.2)).getD ([], none)
  included : c.included = ((lastOf (·.patterns? "include") order).getD
    (if (lastOf (·.patterns? "files") order).isSome then [] else defaultIncluded)).map
      (fromDirectory c.root)
  excluded : c.excluded = ((lastOf (·.patterns? "exclude") order).getD defaultExcluded).map
    (fromDirectory c.root)
  files : c.files = ((lastOf (·.patterns? "files") order).getD []).map (fromDirectory c.root)

/-- What the layers of well-shaped declarations come to. -/
theorem unite_eq {order : List Declaration} (h : ∀ d ∈ order, d.WellShaped) (base : Layer) :
    unite order base =
      { baseUrl := (lastOf (·.place? "baseUrl") order).or base.baseUrl
        outDir := (lastOf (·.place? "outDir") order).or base.outDir
        aliases := (lastOf (·.option "paths") order).or base.aliases
        aliasBase := (lastOf (fun d => (d.option "paths").map fun _ =>
          .text ((d.place? "baseUrl").getD d.directory).toString) order).or base.aliasBase
        allowJs := (lastOf (·.option "allowJs") order).or base.allowJs
        included := (lastOf (·.patterns? "include") order).or base.included
        excluded := (lastOf (·.patterns? "exclude") order).or base.excluded
        files := (lastOf (·.patterns? "files") order).or base.files } := by
  induction order generalizing base with
  | nil => rfl
  | cons d rest ih =>
    show unite rest (d.layer.onto base) = _
    rw [ih fun e he => h e (List.mem_cons_of_mem _ he), (h d (List.mem_cons_self ..)).layer_eq]
    simp only [Layer.onto, lastOf, Option.or_assoc]

/-- The aliases that are declared last and what their targets are relative to are those of one
declaration. -/
theorem aliases_of_last {order : List Declaration}
    (hshaped : ∀ d ∈ order, d.WellShaped ∧ d.path.Real) :
    ∃ as base, aliasesOf (lastOf (·.option "paths") order) = .ok as ∧
      aliasBaseOf (lastOf (fun d => (d.option "paths").map fun _ =>
        .text ((d.place? "baseUrl").getD d.directory).toString) order) = .ok base ∧
      (as, base) = ((lastOf (·.aliasing?) order).map fun a => (a.1, some a.2)).getD ([], none) := by
  -- The declaration that decides is the same one for all three.
  let deciding : Declaration → Option (Declaration × Json.Value) := fun d =>
    (d.option "paths").map (d, ·)
  have hdeciding : ∀ {α : Type} (g : Declaration → Json.Value → α),
      lastOf (fun d => (d.option "paths").map (g d)) order =
        (lastOf deciding order).map fun x => g x.1 x.2 := by
    intro α g
    rw [← lastOf_map]
    refine lastOf_congr fun d _ => ?_
    show _ = ((d.option "paths").map _).map _
    rw [Option.map_map]
    rfl
  have haliases : lastOf (·.option "paths") order = (lastOf deciding order).map (·.2) := by
    rw [← hdeciding fun _ v => v]
    simp only [Option.map_id']
  have hbase := hdeciding fun d _ =>
    Json.Value.text ((d.place? "baseUrl").getD d.directory).toString
  have haliasing := hdeciding fun d v =>
    ((v.members?.getD []).map fun m => (m.1, m.2.items?.getD []), (d.place? "baseUrl").getD d.directory)
  rw [haliases, hbase, show lastOf (·.aliasing?) order = _ from haliasing]
  cases hlast : lastOf deciding order with
  | none => exact ⟨_, _, rfl, rfl, rfl⟩
  | some x =>
    obtain ⟨d, hd, hx⟩ := exists_of_lastOf hlast
    obtain ⟨v, hv, rfl⟩ := Option.map_eq_some_iff.mp hx
    obtain ⟨hwell, hreal⟩ := hshaped d hd
    have hplace : ((d.place? "baseUrl").getD d.directory).Real := by
      cases hurl : d.place? "baseUrl" with
      | none => exact hreal.parent
      | some p => exact Declaration.place?_real hreal hurl
    have hread := hwell.aliasesOf_eq
    unfold Declaration.aliasing? at hread
    rw [hv] at hread
    refine ⟨_, _, hread, ?_, rfl⟩
    show (if (((d.place? "baseUrl").getD d.directory).toString != "") = true then _ else _) = _
    rw [if_pos (bne_iff_ne.mpr hplace.toString_ne), Path.ofString_toString hplace.clean hplace.root]

/-- The configuration that well-shaped declarations come to. -/
theorem ofLayer_unite (p : Path) {order : List Declaration}
    (hshaped : ∀ d ∈ order, d.WellShaped ∧ d.path.Real) :
    ∃ c, ofLayer p (unite order .empty) = .ok c ∧ c.path = p ∧ TakenFrom order c := by
  obtain ⟨as, base, haliases, hbase, htaken⟩ := aliases_of_last hshaped
  rw [unite_eq fun d hd => (hshaped d hd).1]
  simp only [Layer.empty, Option.or_none]
  unfold ofLayer
  rw [haliases, Except.ok_bind, hbase, Except.ok_bind]
  exact ⟨_, rfl, rfl, rfl, rfl, rfl, htaken, rfl, rfl, rfl⟩

/-- All files of a chain are there and declare what they should, and none of them extends itself, be it
through others. -/
structure WellShapedChain (fs : FileSystem) (p : Path) : Prop where
  files : ∀ q, Reaches fs p q → ∃ ms, readMembers fs q = .ok ms ∧ (Declaration.mk q ms).WellShaped
  acyclic : ∀ q, Reaches fs p q → ¬ TransGen (Extends fs) q q

/-! ### Chains that are checked file by file -/

/-- Whether the files of a list declare what they should and extend only files that come after them. -/
def isListed (fs : FileSystem) : List Path → Bool
  | [] => true
  | p :: rest =>
    match readMembers fs p with
    | .ok ms =>
      decide (Declaration.mk p ms).WellShaped && (Declaration.mk p ms).parents.all (rest.contains ·) &&
        !rest.contains p && isListed fs rest
    | .error _ => false

theorem isListed_cons {fs : FileSystem} {p : Path} {rest : List Path}
    (h : isListed fs (p :: rest) = true) :
    (∃ ms, readMembers fs p = .ok ms ∧ (Declaration.mk p ms).WellShaped ∧
      ∀ q ∈ (Declaration.mk p ms).parents, q ∈ rest) ∧ p ∉ rest ∧ isListed fs rest = true := by
  unfold isListed at h
  split at h
  case h_1 ms hms =>
    simp only [Bool.and_eq_true, decide_eq_true_eq, List.all_eq_true, Bool.not_eq_true',
      List.contains_eq_mem, decide_eq_false_iff_not] at h
    exact ⟨⟨ms, hms, h.1.1.1, h.1.1.2⟩, h.1.2, h.2⟩
  case h_2 => cases h

/-- The files that those of such a list extend are in the list. -/
theorem mem_of_extends {fs : FileSystem} {l : List Path} (h : isListed fs l = true) {q r : Path}
    (hq : q ∈ l) (hextends : Extends fs q r) : r ∈ l := by
  induction l with
  | nil => cases hq
  | cons p rest ih =>
    obtain ⟨⟨ms, hms, -, hparents⟩, -, hrest⟩ := isListed_cons h
    rcases List.mem_cons.mp hq with rfl | hq
    · obtain ⟨ms', hms', hr⟩ := hextends
      cases hms.symm.trans hms'
      exact List.mem_cons_of_mem _ (hparents r hr)
    · exact List.mem_cons_of_mem _ (ih hrest hq)

theorem mem_of_reaches {fs : FileSystem} {l : List Path} (h : isListed fs l = true) {q r : Path}
    (hq : q ∈ l) (hreaches : Reaches fs q r) : r ∈ l := by
  induction hreaches with
  | refl => exact hq
  | tail _ hstep ih => exact mem_of_extends h ih hstep

/-- The chain of a file at the head of such a list is well-shaped. -/
theorem WellShapedChain.of_isListed {fs : FileSystem} {p : Path} {rest : List Path}
    (h : isListed fs (p :: rest) = true) : WellShapedChain fs p := by
  have key : ∀ l, isListed fs l = true → ∀ q ∈ l,
      (∃ ms, readMembers fs q = .ok ms ∧ (Declaration.mk q ms).WellShaped) ∧
        ¬ TransGen (Extends fs) q q := by
    intro l hl
    induction l with
    | nil => exact fun q hq => absurd hq List.not_mem_nil
    | cons p rest ih =>
      obtain ⟨⟨ms, hms, hwell, hparents⟩, hfresh, hrest⟩ := isListed_cons hl
      intro q hq
      rcases List.mem_cons.mp hq with rfl | hq
      · refine ⟨⟨ms, hms, hwell⟩, fun hcycle => ?_⟩
        -- A way back to the file would lead through the files behind it.
        obtain ⟨r, ⟨ms', hms', hr⟩, hback⟩ := TransGen.head'_iff.mp hcycle
        cases hms.symm.trans hms'
        exact hfresh (mem_of_reaches hrest (hparents r hr) hback)
      · exact ih hrest q hq
  have hmem := fun q (hq : Reaches fs p q) => key _ h q (mem_of_reaches h (List.mem_cons_self ..) hq)
  exact ⟨fun q hq => (hmem q hq).1, fun q hq => (hmem q hq).2⟩

/-! ### Inherited values -/

/-- The files of a chain have one order, and a configuration takes every value from the last file in this
order that declares it. -/
theorem inherited_values {fs : FileSystem} {cwd p : Path} {name : String} (hcwd : cwd.Clean)
    (habs : cwd.isAbsolute = true) (hp : locate cwd name = .ok p) (h : WellShapedChain fs p)
    (j : Journal) :
    ∃ order, (∀ o, InOrder fs p o ↔ o = order) ∧
      ∃ c j', load fs cwd name j = (.ok c, j') ∧ c.path = p ∧ TakenFrom order c := by
  obtain ⟨order, j', horder, hrun⟩ := readChain_eq_unite
    (fun q hq => (h.files q hq).imp fun ms hms => ⟨hms.1, hms.2.accepted⟩) (.start h.acyclic) j
  have hshaped : ∀ d ∈ order, d.WellShaped ∧ d.path.Real := by
    intro d hd
    obtain ⟨hreach, hread⟩ := horder.reaches d hd
    obtain ⟨ms, hms, hwell⟩ := h.files d.path hreach
    cases hread.symm.trans hms
    exact ⟨hwell, hreach.real (locate_real hcwd habs hp)⟩
  obtain ⟨c, hc, hpath, htaken⟩ := ofLayer_unite p hshaped
  refine ⟨order, fun o => ⟨fun ho => ho.unique horder, fun ho => ho ▸ horder⟩, c, j', ?_, hpath, htaken⟩
  unfold load
  rw [hp, Journaled.ofExcept_ok_bind, Journaled.bind_ok hrun, hc]
  rfl

/-- A file that is extended from two sides. -/
def diamondDisk : FileSystem :=
  let path (s : String) : Path := .ofString s
  let file (s : String) : Entry := .file (Bytes.ofString s)
  (((FileSystem.empty.place (path "/p/tsconfig.json")
    (file "\x7b\"extends\":[\"./left\",\"./right.json\"]\x7d")).place
  (path "/p/left.json")
    (file "\x7b\"extends\":\"./lib/base\",\"include\":[\"src\"]\x7d")).place
  (path "/p/right.json")
    (file "\x7b\"extends\":\"./lib/base\",\"compilerOptions\":\x7b\"baseUrl\":\"out\"\x7d\x7d")).place
  (path "/p/lib/base.json")
    (file "\x7b\"include\":[\"gen\"],\"compilerOptions\":\x7b\"paths\":\x7b\"~/*\":[\"*\"]\x7d\x7d\x7d")

/-- What the two sides both extend is read again with the second one, and hides what the first one has
declared itself. -/
theorem diamondDisk_inherited :
    (isListed diamondDisk (["/p/tsconfig.json", "/p/left.json", "/p/right.json", "/p/lib/base.json"].map
      .ofString) = true) ∧
    ∃ order, (∀ o, InOrder diamondDisk (.ofString "/p/tsconfig.json") o ↔ o = order) ∧
      ∃ c j', load diamondDisk (.ofString "/p") "tsconfig.json" [] = (.ok c, j') ∧
        c.path = .ofString "/p/tsconfig.json" ∧ TakenFrom order c ∧
        c.included = ["lib/gen"] ∧ c.baseUrl = some (.ofString "/p/out") ∧
        c.aliasBase = some (.ofString "/p/lib") := by
  have hlisted : isListed diamondDisk (["/p/tsconfig.json", "/p/left.json", "/p/right.json",
      "/p/lib/base.json"].map .ofString) = true := by decide +kernel
  have hlocate : locate (.ofString "/p") "tsconfig.json" = .ok (.ofString "/p/tsconfig.json") := by
    decide +kernel
  obtain ⟨order, horder, c, j', hload, hpath, htaken⟩ :=
    inherited_values (by decide) (by decide) hlocate (.of_isListed hlisted) []
  have hvalues : (load diamondDisk (.ofString "/p") "tsconfig.json" []).1.toOption.map
      (fun c => (c.included, c.baseUrl, c.aliasBase)) =
        some (["lib/gen"], some (.ofString "/p/out"), some (.ofString "/p/lib")) := by decide +kernel
  rw [hload] at hvalues
  have hc := Option.some.inj hvalues
  exact ⟨hlisted, order, horder, c, j', hload, hpath, htaken, congrArg (·.1) hc, congrArg (·.2.1) hc,
    congrArg (·.2.2) hc⟩

end Config
end Codemod
