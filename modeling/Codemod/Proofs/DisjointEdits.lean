import Codemod.Proofs.AnyTexts
import Codemod.Proofs.ImportRepair
import Codemod.Proofs.NameNodes
import Codemod.Proofs.RootedResolution

/-!
# The edits of a plan do not overlap

What is planned for a file is applied as one batch, which is refused when two of its edits overlap. An edit of
a statement reaches from before the comments above it, among blanks, to the end of its line. Where the nodes
at the top level begin with a visible byte and end on a line that is not blank, such reaches do not meet, in
whatever order the statements stand and whether they share lines or not. Specifiers and names lie within
nodes that lie apart.

Main statements:

* `SourceFile.Touches.stop_le_start` says that edits of two statements do not meet;
* `SourceFile.fits_of_touches` says so of a batch of such edits;
* `NamedImport.mentions_pairwise` says that mentions of a local name lie apart;
* `SourceFile.Filled.planned_edits_fit` says that every batch that is planned for a file is accepted.
-/

namespace Codemod

open Syntax Syntax.Tree

/-- A relation between the items of one list passes to the items that belong to them. -/
theorem pairwise_of_forall₂ {α β : Type} {R : α → α → Prop} {T : α → β → Prop} {S : β → β → Prop}
    {l : List α} {r : List β} (h : List.Forall₂ T l r) (hl : l.Pairwise R)
    (hS : ∀ a ∈ l, ∀ b ∈ l, R a b → ∀ x y, T a x → T b y → S x y) : r.Pairwise S := by
  induction h with
  | nil => exact .nil
  | @cons a x l r hfirst hrest ih =>
    obtain ⟨ha, hl⟩ := List.pairwise_cons.mp hl
    refine List.pairwise_cons.mpr ⟨fun y hy => ?_, ih hl fun b hb c hc => ?_⟩
    · obtain ⟨b, hb, hby⟩ := exists_mem_of_forall₂ hrest y hy
      exact hS a (List.mem_cons_self ..) b (List.mem_cons_of_mem _ hb) (ha b hb) x y hfirst hby
    · exact hS b (List.mem_cons_of_mem _ hb) c (List.mem_cons_of_mem _ hc)

/-- A part of a text whose last line is not blank ends on a line that is not blank. -/
theorem Bytes.LineVisible.of_slice {t : Bytes} {s e : Nat} (he : e ≤ t.length)
    (h : ((t.slice s e).reverse.takeWhile (· != newline)).any (fun b => !isBlank b) = true) :
    t.LineVisible e := by
  obtain ⟨b, hb, hvisible⟩ := List.any_eq_true.mp h
  obtain ⟨i, hi, rfl⟩ := List.getElem_of_mem hb
  have hprefix := List.takeWhile_prefix (· != newline) (l := (t.slice s e).reverse)
  have hlength : ((t.slice s e).reverse.takeWhile (· != newline)).length ≤ e - s := by
    have := hprefix.length_le
    rwa [List.length_reverse, length_slice he] at this
  -- Seen from the end backwards, the bytes of the line are those before the first line end.
  have hback : ∀ k, k < e - s → (t.slice s e).reverse[k]? = t[e - 1 - k]? := by
    intro k hk
    rw [List.getElem?_reverse (by rwa [length_slice he]), length_slice he, Bytes.slice, List.getElem?_drop,
      List.getElem?_take_of_lt (by omega)]
    congr 1
    omega
  refine ⟨e - 1 - i, _, by omega, ?_, by simpa using hvisible, fun k hk hke hnewline => ?_⟩
  · rw [← hback i (by omega), hprefix.getElem hi]
    exact List.getElem?_eq_getElem _
  · have hk' : e - 1 - k < ((t.slice s e).reverse.takeWhile (· != newline)).length := by omega
    obtain ⟨c, hc, hget⟩ := (getElem?_takeWhile (· != newline) (t.slice s e).reverse 0).1 (e - 1 - k)
      (Nat.zero_le _) (by rw [List.drop_zero, Nat.zero_add]; exact hk')
    rw [hback _ (by omega), show e - 1 - (e - 1 - k) = k by omega, hnewline] at hget
    have hne := SourceFile.mem_takeWhile hc
    rw [← Option.some.inj hget] at hne
    cases hne

/-- A slice that is not empty begins with the byte at its start. -/
theorem Bytes.first_of_slice {t rest : Bytes} {s e : Nat} {b : UInt8} (he : e ≤ t.length)
    (h : t.slice s e = b :: rest) : s < e ∧ t[s]? = some b := by
  have hlt : s < e := by
    have hlength : (t.slice s e).length = e - s := Bytes.length_slice he
    rw [h, List.length_cons] at hlength
    omega
  refine ⟨hlt, ?_⟩
  calc t[s]? = (t.slice s e)[0]? := by
        rw [Bytes.slice, List.getElem?_drop, Nat.add_zero, List.getElem?_take_of_lt hlt]
    _ = some b := by rw [h, List.getElem?_cons_zero]

namespace SourceFile

variable {f : SourceFile} {s t : Tree} {e e' : Edit} {es : List Edit}

/-! ### Files without blank ends -/

/-- The nodes at the top level begin with a visible byte, and their last lines are not blank. -/
structure Filled (f : SourceFile) : Prop where
  begins : ∀ c ∈ f.tree.children, (c.text f.text).head?.any (fun b => !Bytes.isBlank b) = true
  ends : ∀ c ∈ f.tree.children, ((c.text f.text).reverse.takeWhile (· != Bytes.newline)).any
    (fun b => !Bytes.isBlank b) = true

instance (f : SourceFile) : Decidable f.Filled :=
  decidable_of_iff ((∀ c ∈ f.tree.children, (c.text f.text).head?.any (fun b => !Bytes.isBlank b) = true) ∧
    ∀ c ∈ f.tree.children, ((c.text f.text).reverse.takeWhile (· != Bytes.newline)).any
      (fun b => !Bytes.isBlank b) = true)
    ⟨fun h => ⟨h.1, h.2⟩, fun h => ⟨h.begins, h.ends⟩⟩

namespace Filled

theorem lineVisible (h : f.Filled) (ht : t ∈ f.tree.children) : f.text.LineVisible t.stop :=
  .of_slice (f.nodes_placed.bounds ht).2.2 (h.ends t ht)

theorem exists_first (h : f.Filled) (ht : t ∈ f.tree.children) :
    t.start < t.stop ∧ ∃ b, f.text[t.start]? = some b ∧ Bytes.isBlank b = false := by
  obtain ⟨b, hb, hvisible⟩ := (Option.any_eq_true _ _).mp (h.begins t ht)
  obtain ⟨rest, hrest⟩ := List.head?_eq_some_iff.mp hb
  obtain ⟨hlt, hfirst⟩ := Bytes.first_of_slice (f.nodes_placed.bounds ht).2.2 hrest
  exact ⟨hlt, b, hfirst, by simpa using hvisible⟩

theorem visibleAt (h : f.Filled) (ht : t ∈ f.tree.children) : f.text.VisibleAt t.start := by
  obtain ⟨-, b, hb, hvisible⟩ := h.exists_first ht
  intro c hc
  rw [← Option.some.inj (hb.symm.trans hc)]
  exact hvisible

theorem start_lt_length (h : f.Filled) (ht : t ∈ f.tree.children) : t.start < f.text.length :=
  Nat.lt_of_lt_of_le (h.exists_first ht).1 (f.nodes_placed.bounds ht).2.2

end Filled

/-! ### Edits of statements -/

/-- An edit that reaches from no further before a statement to no further behind it than its removal. -/
structure Touches (f : SourceFile) (t : Tree) (e : Edit) : Prop where
  lower : widenBack f.text (f.opening t) ≤ e.start
  ordered : e.start ≤ e.stop
  upper : e.stop ≤ widenOn f.text t.stop

theorem touches_removeStatement (ht : t ∈ f.tree.children) : f.Touches t (f.removeStatement t) := by
  obtain ⟨hstart, hstop⟩ := f.removeStatement_place t
  obtain ⟨-, hplaced, hlength⟩ := f.nodes_placed.bounds ht
  have hback := widenBack_le f.text (f.opening t)
  have hopening := (f.opening_bounds t).1
  have hon := le_widenOn hlength
  have hle := hplaced.start_le
  exact ⟨by omega, by omega, by omega⟩

theorem touches_replaceStatement {text : String} (ht : t ∈ f.tree.children)
    (h : f.replaceStatement t text true = .ok e) : f.Touches t e := by
  obtain ⟨hstart, hstop⟩ := replaceStatement_place h
  obtain ⟨-, hplaced, hlength⟩ := f.nodes_placed.bounds ht
  have hback := widenBack_le f.text (f.opening t)
  have hopening := (f.opening_bounds t).1
  have hon := le_widenOn hlength
  have hle := hplaced.start_le
  exact ⟨by omega, by omega, by omega⟩

/-- Edits of two nodes, the first of which is no comment, do not meet: the comments above the second one lie
behind the first one, and the blanks around go to one of them only. -/
theorem Touches.stop_le_start (hs : f.Touches s e) (ht : f.Touches t e') (h : f.Filled)
    (hsmem : s ∈ f.tree.children) (htmem : t ∈ f.tree.children) (hkind : s.is .comment = false)
    (hst : s.stop ≤ t.start) : e.stop ≤ e'.start := by
  have hopening := (f.opening_bounds t).2 s hsmem hkind (h.exists_first hsmem).1 hst
  obtain ⟨c, hc, hopens⟩ := exists_opening htmem
  have hmeet : widenOn f.text s.stop ≤ widenBack f.text (f.opening t) := by
    rw [← hopens] at hopening ⊢
    exact widenOn_le_widenBack (h.visibleAt hc) (h.start_lt_length hc) (h.lineVisible hsmem) hopening
  calc e.stop ≤ widenOn f.text s.stop := hs.upper
    _ ≤ widenBack f.text (f.opening t) := hmeet
    _ ≤ e'.start := ht.lower

theorem Touches.stop_le (h : f.Touches t e) (ht : t ∈ f.tree.children) : e.stop ≤ f.text.length :=
  Nat.le_trans h.upper (widenOn_le_of_visible (Bytes.visibleAt_length _) (f.nodes_placed.bounds ht).2.2)

theorem mem_statements_iff : t ∈ f.statements ↔
    t ∈ f.tree.children ∧ t.kind.isNamed = true ∧ t.is .comment = false := by
  unfold statements
  rw [List.mem_filter, mem_named_iff, Bool.not_eq_true', and_assoc]

/-- A batch whose edits lie in the text and apart. -/
structure Fits (f : SourceFile) (es : List Edit) : Prop where
  bounds : ∀ e ∈ es, e.start ≤ e.stop ∧ e.stop ≤ f.text.length
  apart : es.Pairwise Edit.Apart

theorem Fits.accepts (h : f.Fits es) : f.Accepts es := by
  have hranges : ∀ e ∈ es, e.start ≤ e.stop := fun e he => (h.bounds e he).1
  obtain ⟨g, hg⟩ := (exists_edited_iff hranges).mpr ⟨fun e he => (h.bounds e he).2, h.apart⟩
  exact accepts_of_edited hranges hg

/-- Edits of different statements lie apart, in whatever order they are listed. -/
theorem fits_of_touches (h : f.Filled) {ts : List Tree} (hts : ts.Nodup) (hmem : ∀ t ∈ ts, t ∈ f.statements)
    (htouch : List.Forall₂ f.Touches ts es) : f.Fits es := by
  have hnode : ∀ t ∈ ts, t ∈ f.tree.children ∧ t.is .comment = false := fun t ht =>
    ⟨(mem_statements_iff.mp (hmem t ht)).1, (mem_statements_iff.mp (hmem t ht)).2.2⟩
  constructor
  · intro e he
    obtain ⟨t, ht, hte⟩ := exists_mem_of_forall₂ htouch e he
    exact ⟨hte.ordered, hte.stop_le (hnode t ht).1⟩
  · refine pairwise_of_forall₂ htouch hts fun s hs t ht hne e e' hse hte => ?_
    obtain ⟨hs, hskind⟩ := hnode s hs
    obtain ⟨ht, htkind⟩ := hnode t ht
    rcases (f.nodes_placed.apart hs ht).resolve_left hne with hst | hts
    · exact .inl (hse.stop_le_start hte h hs ht hskind hst)
    · exact .inr (hte.stop_le_start hse h ht hs htkind hts)

theorem selectM_sublist {ε α : Type} {p : α → Except ε Bool} {l r : List α} (h : selectM p l = .ok r) :
    r.Sublist l := by
  induction l generalizing r with
  | nil =>
    cases h
    exact .slnil
  | cons a rest ih =>
    obtain ⟨keep, -, h⟩ := Except.bind_eq_ok h
    obtain ⟨more, hmore, h⟩ := Except.bind_eq_ok h
    cases h
    cases keep with
    | true => exact (ih hmore).cons_cons a
    | false => exact (ih hmore).cons a

/-- No statement stands in the list twice. -/
theorem Filled.nodup (h : f.Filled) : f.statements.Nodup := by
  refine ((f.nodes_placed.sublist f.statements_sublist).pairwise).imp_of_mem fun hs _ hst => ?_
  rintro rfl
  have hlt := (h.exists_first (f.statements_sublist.mem hs)).1
  omega

end SourceFile

/-! ### Edits for a default export -/

namespace NamedExport

open SourceFile

variable {f : SourceFile} {d : DefaultExport} {name : String} {es : List Edit}

theorem identifierEdits_fit (h : f.Filled) (hd : d.statement ∈ f.statements)
    (hexport : d.statement.is .exportStatement = true) (hedits : identifierEdits f d = .ok (name, es)) :
    f.Fits es := by
  obtain ⟨own, -, hedits⟩ := Except.bind_eq_ok hedits
  obtain ⟨definitions, hdefinitions, hedits⟩ := Except.bind_eq_ok hedits
  split at hedits
  · cases hedits
  · obtain ⟨exported, hexported, hedits⟩ := Except.bind_eq_ok hedits
    cases hedits
    have hsub : (definitions.filter fun t => !t.is .exportStatement).Sublist f.statements :=
      List.filter_sublist.trans (selectM_sublist hdefinitions)
    have hall := Except.forall₂_of_mapM_eq_ok hexported
    -- The statement of the export is none of the definitions that are exported.
    let touched := definitions.filter (fun t => !t.is .exportStatement) ++ [d.statement]
    refine fits_of_touches h (show touched.Nodup from ?_) ?_
      (List.rel_append ?_ (.cons (touches_removeStatement (f.statements_sublist.mem hd)) .nil))
    · refine List.nodup_append.mpr ⟨h.nodup.sublist hsub, List.nodup_singleton _, fun t ht u hu => ?_⟩
      obtain rfl := List.mem_singleton.mp hu
      rintro rfl
      have hno := (List.mem_filter.mp ht).2
      rw [hexport] at hno
      cases hno
    · exact List.forall_mem_append.mpr ⟨fun t ht => hsub.mem ht, List.forall_mem_singleton.mpr hd⟩
    · have hnodes : ∀ t ∈ definitions.filter (fun t => !t.is .exportStatement), t ∈ f.tree.children :=
        fun t ht => f.statements_sublist.mem (hsub.mem ht)
      refine ((List.forall₂_and_left _ _).mpr ⟨hnodes, hall⟩).imp fun t e hedit => ?_
      obtain ⟨text, -, hreplace⟩ := Except.bind_eq_ok hedit.2
      exact touches_replaceStatement hedit.1 hreplace

theorem declarationEdits_fit (hd : d.statement ∈ f.statements) (hedits : declarationEdits f d = .ok (name, es)) :
    f.Fits es := by
  unfold declarationEdits at hedits
  split at hedits
  · cases hedits
  · obtain ⟨own, -, hedits⟩ := Except.bind_eq_ok hedits
    cases hedits
    cases hword : d.statement.childOfKind? .defaultWord with
    | none => exact ⟨fun _ he => absurd he List.not_mem_nil, .nil⟩
    | some word =>
      obtain ⟨hmem, -⟩ := childOfKind?_eq_some hword
      obtain ⟨-, hstatement, hlength⟩ := f.nodes_placed.bounds (f.statements_sublist.mem hd)
      obtain ⟨-, hplaced, hstop⟩ := hstatement.children.bounds hmem
      have hle := hplaced.start_le
      have hskip : word.stop ≤ skipSpaces f.text word.stop := Nat.le_add_right ..
      have hbound := skipSpaces_le_of_visible (Bytes.visibleAt_length _) (Nat.le_trans hstop hlength)
      refine ⟨List.forall_mem_singleton.mpr ⟨Nat.le_trans hle hskip, hbound⟩, List.pairwise_singleton _ _⟩

theorem expressionEdits_fit (h : f.Filled) (hd : d.statement ∈ f.statements)
    (hedits : expressionEdits f d = .ok (name, es)) : f.Fits es := by
  unfold expressionEdits at hedits
  dsimp only at hedits
  split at hedits
  · obtain ⟨value, -, hedits⟩ := Except.bind_eq_ok hedits
    obtain ⟨edit, hedit, hedits⟩ := Except.bind_eq_ok hedits
    obtain ⟨-, rfl⟩ := Prod.mk.inj (Except.ok.inj hedits)
    exact fits_of_touches h (List.nodup_singleton _) (List.forall_mem_singleton.mpr hd)
      (.cons (touches_replaceStatement (f.statements_sublist.mem hd) hedit) .nil)
  · cases hedits

/-- The edits for a default export can be applied together. -/
theorem edits_fit (h : f.Filled) (hd : d.statement ∈ f.statements)
    (hexport : d.statement.is .exportStatement = true) (hedits : edits f d = .ok (name, es)) : f.Fits es := by
  unfold edits at hedits
  split at hedits
  · exact identifierEdits_fit h hd hexport hedits
  · exact declarationEdits_fit hd hedits
  · exact expressionEdits_fit h hd hedits

end NamedExport

/-! ### Edits of specifiers -/

namespace RootedImport

open SourceFile Journaled

variable {f : SourceFile} {resolve : String → Except Fault (Option Path)} {marker : String} {root : Path}
  {j j' : Journal} {es : List Edit}

/-- The edits for references, in their order, take the places of specifiers. -/
theorem plansOf_places {rs : List ModuleReference} (h : plansOf f resolve marker root rs j = (.ok es, j')) :
    ∃ rs' : List ModuleReference, rs'.Sublist rs ∧
      rs'.Forall₂ (fun r e => e.start = r.source.start ∧ e.stop = r.source.stop) es := by
  induction rs generalizing es j j' with
  | nil =>
    cases h
    exact ⟨[], .slnil, .nil⟩
  | cons r rest ih =>
    obtain ⟨first, j₁, hfirst, hrun⟩ := bind_eq_ok h
    obtain ⟨more, j₂, hmore, hrest⟩ := bind_eq_ok hrun
    cases hrest
    obtain ⟨rs', hsub, hplaces⟩ := ih hmore
    cases first with
    | none => exact ⟨rs', hsub.cons r, hplaces⟩
    | some e =>
      obtain ⟨_, _, _, _, -, -, -, -, -, rfl⟩ := referencePlan_eq_some hfirst
      exact ⟨r :: rs', hsub.cons_cons r, .cons ⟨rfl, rfl⟩ hplaces⟩

/-- The edits for the specifiers of a file can be applied together. -/
theorem plan_fits (h : plan f resolve marker root j = (.ok es, j')) : f.Fits es := by
  obtain ⟨rs, hsub, hplaces⟩ := plansOf_places h
  have hbounds : ∀ r ∈ rs, r.statement.start ≤ r.source.start ∧ r.source.start ≤ r.source.stop ∧
      r.source.stop ≤ r.statement.stop ∧ r.statement.stop ≤ f.text.length := by
    intro r hr
    have hr := hsub.mem hr
    have hnode := f.statements_sublist.mem (f.reference_statements_sublist.mem (List.mem_map_of_mem hr))
    obtain ⟨-, hstatement, hlength⟩ := f.nodes_placed.bounds hnode
    obtain ⟨hlo, hplaced, hhi⟩ :=
      hstatement.children.bounds (List.mem_of_find?_eq_some (reference_source hr).1)
    exact ⟨hlo, hplaced.start_le, hhi, hlength⟩
  have horder : rs.Pairwise fun r r' => r.statement.stop ≤ r'.statement.start := by
    refine List.pairwise_map.mp (f.nodes_placed.sublist ?_).pairwise
    exact ((hsub.map _).trans f.reference_statements_sublist).trans f.statements_sublist
  refine ⟨fun e he => ?_, pairwise_of_forall₂ hplaces horder fun r hr r' hr' hrr' e e' he he' => ?_⟩
  · obtain ⟨r, hr, hstart, hstop⟩ := exists_mem_of_forall₂ hplaces e he
    have := hbounds r hr
    omega
  · have := hbounds r hr
    have := hbounds r' hr'
    exact .inl (by omega)

end RootedImport

/-! ### Edits of imports and of mentions -/

namespace NamedImport

open SourceFile Journaled

variable {f : SourceFile} {resolve : Resolver} {names : Keyed Path String} {d d' : ModuleReference}
  {old old' new new' : String} {e e' : Edit} {es es' : List Edit} {plans : List (List Edit)}

/-- A mention is replaced where a name with its text occurs. -/
theorem exists_of_mem_referenceEdits (he : e ∈ referenceEdits f old new) :
    ∃ o ∈ f.tree.occurrences [], isName o.1 = true ∧ o.1.text f.text = Bytes.ofString old ∧
      e.start = o.1.start ∧ e.stop = o.1.stop := by
  obtain ⟨o, ho, he⟩ := List.mem_filterMap.mp he
  split at he
  case isFalse => cases he
  case isTrue hsought =>
    obtain ⟨text, -, rfl⟩ := Option.map_eq_some_iff.mp he
    simp only [Bool.and_eq_true, decide_eq_true_eq] at hsought
    exact ⟨o, ho, hsought.1.1, hsought.1.2, rfl, rfl⟩

theorem occurrences_pairwise (f : SourceFile) : (f.tree.occurrences []).Pairwise NamesApart :=
  names_pairwise f.tree_placed (parse_namesBare f.dialect f.text)

/-- Of two leaves one ends before the other begins. -/
theorem leaves_apart {o o' : Tree × List Tree} (ho : o ∈ f.tree.occurrences []) (ho' : o' ∈ f.tree.occurrences [])
    (hleaf : o.1.children = []) (hleaf' : o'.1.children = []) :
    o = o' ∨ o.1.stop ≤ o'.1.start ∨ o'.1.stop ≤ o.1.start := by
  let Between (o o' : Tree × List Tree) : Prop := o.1.children = [] → o'.1.children = [] →
    o.1.stop ≤ o'.1.start ∨ o'.1.stop ≤ o.1.start
  have hsymm : Std.Symm Between := ⟨fun _ _ h hleaf hleaf' => (h hleaf' hleaf).symm⟩
  have hbetween : (f.tree.occurrences []).Pairwise Between :=
    (leaves_pairwise f.tree_placed).imp fun h hleaf hleaf' => .inl (h hleaf hleaf')
  rw [or_iff_not_imp_left]
  exact fun hdiffer => hbetween.forall ho ho' hdiffer hleaf hleaf'

/-- The mentions of one local name lie apart. -/
theorem mentions_pairwise (f : SourceFile) (old new : String) : (referenceEdits f old new).Pairwise Edit.Apart := by
  unfold referenceEdits
  dsimp only
  refine (occurrences_pairwise f).filterMap _ fun o o' hoo' e he e' he' => ?_
  have key : ∀ {o : Tree × List Tree} {e : Edit}, (if isName o.1 && o.1.text f.text = Bytes.ofString old &&
      !(f.imports.map (·.statement)).any (·.encloses o.1) then
        (replacement? old new o.1 o.2).map (SourceFile.replaceEdit o.1) else none) = some e →
      isName o.1 = true ∧ e.start = o.1.start ∧ e.stop = o.1.stop := by
    intro o e he
    split at he
    case isFalse => cases he
    case isTrue hsought =>
      obtain ⟨text, -, rfl⟩ := Option.map_eq_some_iff.mp he
      simp only [Bool.and_eq_true] at hsought
      exact ⟨hsought.1.1, rfl, rfl⟩
  obtain ⟨hname, -, hstop⟩ := key he
  obtain ⟨hname', hstart, -⟩ := key he'
  have := hoo' hname hname'
  exact .inl (by omega)

/-- Mentions of different local names lie apart. -/
theorem mentions_apart (hne : old ≠ old') (he : e ∈ referenceEdits f old new)
    (he' : e' ∈ referenceEdits f old' new') : e.Apart e' := by
  obtain ⟨o, ho, hname, htext, hstart, hstop⟩ := exists_of_mem_referenceEdits he
  obtain ⟨o', ho', hname', htext', hstart', hstop'⟩ := exists_of_mem_referenceEdits he'
  have hdiffer : o ≠ o' := by
    rintro rfl
    exact hne (Bytes.ofString_injective (htext.symm.trans htext'))
  have hbare := parse_namesBare f.dialect f.text
  have happart := (leaves_apart ho ho' (hbare.leaf ho hname) (hbare.leaf ho' hname')).resolve_left hdiffer
  unfold Edit.Apart
  rw [hstart, hstop, hstart', hstop']
  exact happart

/-- What is planned for an import that is given a name: mentions of its local name, and an edit within its
statement. -/
structure Planned (f : SourceFile) (given : ModuleReference → Option String) (d : ModuleReference)
    (es : List Edit) : Prop where
  parts : ∃ name bound old own, given d = some name ∧ d.defaultName? = some bound ∧ f.textOf bound = .ok old ∧
    d.statement.start ≤ own.start ∧ own.start < own.stop ∧ own.stop ≤ d.statement.stop ∧
    es = (if old = name then [] else referenceEdits f old name) ++ [own]

theorem planned_of_importPlan (hd : d ∈ f.imports) (h : (importPlan f resolve names d).outcome = .ok (some es)) :
    Planned f (newName? f resolve names) d es := by
  have hspec := importPlan_eq_ok h
  cases hname : newName? f resolve names d with
  | none => rw [hname] at hspec; cases hspec
  | some name =>
    rw [hname] at hspec
    obtain ⟨bound, old, own, hbound, hold, hown, hes⟩ := hspec
    obtain ⟨edit, rfl, hstart, hpos, hstop, -⟩ := importEdits_eq_ok hd hbound hown
    exact ⟨name, bound, old, edit, hname, hbound, hold, hstart, hpos, hstop, Option.some.inj hes⟩

/-- What is planned for the imports of a file is planned for some of them, in their order. -/
theorem plansOf_planned {ds : List ModuleReference} (hds : ∀ d ∈ ds, d ∈ f.imports)
    (h : (plansOf f resolve names ds).outcome = .ok plans) :
    ∃ ds' : List ModuleReference, ds'.Sublist ds ∧ ds'.Forall₂ (Planned f (newName? f resolve names)) plans := by
  induction ds generalizing plans with
  | nil =>
    cases h
    exact ⟨[], .slnil, .nil⟩
  | cons d rest ih =>
    rw [plansOf_cons_outcome] at h
    obtain ⟨first, hfirst, h⟩ := Except.bind_eq_ok h
    obtain ⟨more, hmore, h⟩ := Except.bind_eq_ok h
    cases h
    obtain ⟨ds', hsub, hplanned⟩ := ih (fun d hd => hds d (List.mem_cons_of_mem _ hd)) hmore
    cases first with
    | none => exact ⟨ds', hsub.cons d, hplanned⟩
    | some es =>
      exact ⟨d :: ds', hsub.cons_cons d, .cons (planned_of_importPlan (hds d (List.mem_cons_self ..)) hfirst) hplanned⟩

/-- The bytes of the local name that an import binds by default. -/
def localName? (f : SourceFile) (d : ModuleReference) : Option Bytes :=
  d.defaultName?.map (·.text f.text)

variable {given : ModuleReference → Option String}

/-- An edit that is planned for an import lies within its statement, or replaces a mention of its local
name. -/
theorem Planned.own_or_mention (h : Planned f given d es) (he : e ∈ es) :
    (d.statement.start ≤ e.start ∧ e.start < e.stop ∧ e.stop ≤ d.statement.stop) ∨
      ∃ name bound old, given d = some name ∧ d.defaultName? = some bound ∧ f.textOf bound = .ok old ∧
        old ≠ name ∧ e ∈ referenceEdits f old name := by
  obtain ⟨name, bound, old, own, hname, hbound, hold, hstart, hpos, hstop, rfl⟩ := h.parts
  rcases List.mem_append.mp he with he | he
  · split at he
    case isTrue => cases he
    case isFalse hne => exact .inr ⟨name, bound, old, hname, hbound, hold, hne, he⟩
  · obtain rfl := List.mem_singleton.mp he
    exact .inl ⟨hstart, hpos, hstop⟩

theorem Planned.bounds (h : Planned f given d es) (hd : d ∈ f.imports) (he : e ∈ es) :
    e.start ≤ e.stop ∧ e.stop ≤ f.text.length := by
  rcases h.own_or_mention he with ⟨-, hpos, hstop⟩ | ⟨_, _, _, -, -, -, -, he⟩
  · exact ⟨Nat.le_of_lt hpos, Nat.le_trans hstop (import_placed hd).2⟩
  · obtain ⟨o, ho, -, -, hstart, hstop⟩ := exists_of_mem_referenceEdits he
    obtain ⟨-, hplaced, hend⟩ := f.tree_placed.bounds_of_occurrence ho
    rw [hstart, hstop]
    exact ⟨hplaced.start_le, hend⟩

/-- The edits that are planned for one import lie apart. -/
theorem Planned.pairwise (h : Planned f given d es) (hd : d ∈ f.imports) : es.Pairwise Edit.Apart := by
  obtain ⟨name, bound, old, own, hname, hbound, hold, hstart, -, hstop, rfl⟩ := h.parts
  split
  case isTrue => exact List.pairwise_singleton _ _
  case isFalse hne =>
    refine List.pairwise_append.mpr ⟨mentions_pairwise f old name, List.pairwise_singleton _ _, ?_⟩
    intro e he own' hown
    obtain rfl := List.mem_singleton.mp hown
    have hmention : EditsMention f given e := ⟨d, hd, name, bound, old, hname, hbound, hold, hne, he⟩
    exact ((editsMention_apart hmention).2 d hd).imp (fun h => Nat.le_trans h hstart) (Nat.le_trans hstop)

/-- The edits that are planned for two imports with different local names lie apart. -/
theorem Planned.apart (h : Planned f given d es) (h' : Planned f given d' es') (hd : d ∈ f.imports)
    (hd' : d' ∈ f.imports) (hbefore : d.statement.stop ≤ d'.statement.start)
    (hnames : localName? f d ≠ localName? f d') (he : e ∈ es) (he' : e' ∈ es') : e.Apart e' := by
  rcases h.own_or_mention he with ⟨hstart, -, hstop⟩ | ⟨name, bound, old, hname, hbound, hold, hne, he⟩
  · rcases h'.own_or_mention he' with ⟨hstart', -, hstop'⟩ | ⟨name', bound', old', hname', hbound', hold', hne', he'⟩
    · exact .inl (by omega)
    · have hmention : EditsMention f given e' := ⟨d', hd', name', bound', old', hname', hbound', hold', hne', he'⟩
      rcases (editsMention_apart hmention).2 d hd with hlow | hhigh
      · exact .inr (Nat.le_trans hlow hstart)
      · exact .inl (Nat.le_trans hstop hhigh)
  · have hmention : EditsMention f given e := ⟨d, hd, name, bound, old, hname, hbound, hold, hne, he⟩
    rcases h'.own_or_mention he' with ⟨hstart', -, hstop'⟩ | ⟨name', bound', old', hname', hbound', hold', hne', he'⟩
    · exact ((editsMention_apart hmention).2 d' hd').imp (fun h => Nat.le_trans h hstart') (Nat.le_trans hstop')
    · refine mentions_apart ?_ he he'
      rintro rfl
      apply hnames
      unfold localName?
      rw [hbound, hbound', Option.map_some, Option.map_some, ← ofString_of_textOf hold,
        ← ofString_of_textOf hold']

/-- The edits for the imports of a file can be applied together, when those that are given names bind
different local names. -/
theorem plan_fits (h : (plan f resolve names).outcome = .ok plans)
    (hnames : ((f.imports.filter fun d => (newName? f resolve names d).isSome).map (localName? f)).Nodup) :
    f.Fits plans.flatten := by
  obtain ⟨ds, hsub, hplanned⟩ := plansOf_planned (fun d hd => hd) h
  have hgiven : ∀ d ∈ ds, (newName? f resolve names d).isSome = true := by
    intro d hd
    have hflip : plans.Forall₂ (fun es d => Planned f (newName? f resolve names) d es) ds := hplanned.flip
    obtain ⟨es, -, hplan⟩ := exists_mem_of_forall₂ hflip d hd
    obtain ⟨_, _, _, _, hname, -⟩ := hplan.parts
    rw [hname]
    rfl
  have hlocal : ds.Pairwise fun d d' => localName? f d ≠ localName? f d' := by
    have hfiltered := hsub.filter fun d => (newName? f resolve names d).isSome
    rw [List.filter_eq_self.mpr hgiven] at hfiltered
    exact List.pairwise_map.mp (hnames.sublist (hfiltered.map _))
  have horder : ds.Pairwise fun d d' => d.statement.stop ≤ d'.statement.start :=
    List.pairwise_map.mp (f.nodes_placed.sublist ((hsub.map _).trans f.import_statements_sublist)).pairwise
  refine ⟨fun e he => ?_, List.pairwise_flatten.mpr ⟨fun es hes => ?_, ?_⟩⟩
  · obtain ⟨es, hes, he⟩ := List.mem_flatten.mp he
    obtain ⟨d, hd, hplan⟩ := exists_mem_of_forall₂ hplanned es hes
    exact hplan.bounds (hsub.mem hd) he
  · obtain ⟨d, hd, hplan⟩ := exists_mem_of_forall₂ hplanned es hes
    exact hplan.pairwise (hsub.mem hd)
  · refine pairwise_of_forall₂ hplanned (horder.and hlocal) ?_
    intro d hd d' hd' hdd' es es' hes hes' e he e' he'
    exact hes.apart hes' (hsub.mem hd) (hsub.mem hd') hdd'.1 hdd'.2 he he'

end NamedImport

/-! ### All batches -/

/-- Every batch that is planned for a file is accepted: the edits for any of its default exports, those for
its specifiers, the removals of any different statements, and the edits for its imports, when those that are
given names bind different local names. -/
theorem SourceFile.Filled.planned_edits_fit {f : SourceFile} (h : f.Filled) :
    (∀ j j' ds d name es, f.defaultExports j = (.ok ds, j') → d ∈ ds →
      NamedExport.edits f d = .ok (name, es) → f.Accepts es) ∧
    (∀ resolve marker root j j' es, RootedImport.plan f resolve marker root j = (.ok es, j') →
      f.Accepts es) ∧
    (∀ ts : List Tree, ts.Nodup → (∀ t ∈ ts, t ∈ f.statements) →
      f.Accepts (ts.map f.removeStatement)) ∧
    ∀ resolve names j j' plans, NamedImport.plan f resolve names j = (.ok plans, j') →
      ((f.imports.filter fun d => (NamedImport.newName? f resolve names d).isSome).map
        (NamedImport.localName? f)).Nodup →
      f.Accepts plans.flatten := by
  refine ⟨?_, ?_, ?_, ?_⟩
  · intro j j' ds d name es hds hd hedits
    obtain ⟨hmem, hdefault⟩ := List.mem_filter.mp (NamedExport.defaultExportsOf_statement hds d hd)
    have hexport := (Bool.and_eq_true_iff.mp hdefault).1
    exact (NamedExport.edits_fit h hmem hexport hedits).accepts
  · intro resolve marker root j j' es hplan
    exact (RootedImport.plan_fits hplan).accepts
  · intro ts hts hmem
    refine (fits_of_touches h hts hmem ?_).accepts
    refine List.forall₂_map_right_iff.mpr (List.forall₂_same.mpr fun t ht => ?_)
    exact touches_removeStatement (f.statements_sublist.mem (hmem t ht))
  · intro resolve names j j' plans hplan hnames
    refine (NamedImport.plan_fits ?_ hnames).accepts
    rw [← (NamedImport.plan_steady f resolve names).fst j, hplan]

/-- A file with comments above and beside its statements, some of which share a line. -/
def crowded : SourceFile :=
  ⟨.ofString "/p/a.ts", .typescript, Bytes.ofString
    ("import b, * as c from \"./b\"; // b\n// x\n  const x = b; // x\nexport default x; let y = b;\n" ++
      "/* z */ let z = y;\n"), false⟩

/-- Its statements can be removed together, its default export gets a name, and its import another one. -/
theorem crowded_edits_fit :
    (∃ g, crowded.edited (crowded.statements.reverse.map crowded.removeStatement) = .ok g) ∧
    (∃ d name es g, NamedExport.edits crowded d = .ok (name, es) ∧ es.length = 2 ∧ crowded.edited es = .ok g) ∧
    ∃ plans j g, NamedImport.plan crowded (fun _ => .ok (some (.ofString "/p/b.ts")))
        [(.ofString "/p/b.ts", "w")] [] = (.ok plans, j) ∧ plans.flatten.length = 3 ∧
      crowded.edited plans.flatten = .ok g := by
  have hfilled : crowded.Filled := by decide +kernel
  obtain ⟨hexports, -, hremovals, himports⟩ := hfilled.planned_edits_fit
  refine ⟨?_, ?_, ?_⟩
  · exact (hremovals _ (List.nodup_reverse.mpr hfilled.nodup) fun t ht => List.mem_reverse.mp ht).1
  · have hone : ((crowded.defaultExports []).1.toOption.any fun ds => ds.any fun d =>
        (NamedExport.edits crowded d).toOption.any fun r => r.2.length = 2) = true := by decide +kernel
    obtain ⟨ds, hds, hone⟩ := (Option.any_eq_true _ _).mp hone
    obtain ⟨d, hd, hone⟩ := List.any_eq_true.mp hone
    obtain ⟨⟨name, es⟩, hes, hlength⟩ := (Option.any_eq_true _ _).mp hone
    obtain ⟨j', hds⟩ := Journaled.exists_run_of_toOption hds
    cases hedits : NamedExport.edits crowded d with
    | error e => rw [hedits] at hes; cases hes
    | ok r =>
      rw [hedits] at hes
      cases hes
      obtain ⟨⟨g, hg⟩, -⟩ := hexports [] j' ds d name es hds hd hedits
      exact ⟨d, name, es, g, hedits, of_decide_eq_true hlength, hg⟩
  · have hsome : ((NamedImport.plan crowded (fun _ => .ok (some (.ofString "/p/b.ts")))
        [(.ofString "/p/b.ts", "w")] []).1.toOption.any fun plans => plans.flatten.length = 3) = true := by
      decide +kernel
    obtain ⟨plans, hplans, hlength⟩ := (Option.any_eq_true _ _).mp hsome
    obtain ⟨j', hplan⟩ := Journaled.exists_run_of_toOption hplans
    obtain ⟨⟨g, hg⟩, -⟩ := himports _ _ [] j' plans hplan (by decide +kernel)
    exact ⟨plans, j', g, hplan, of_decide_eq_true hlength, hg⟩

end Codemod
