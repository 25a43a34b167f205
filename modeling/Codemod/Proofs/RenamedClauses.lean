import Codemod.Proofs.RenamedSpecifiers
import Codemod.Proofs.Watches

/-!
# Export clauses whose names are replaced

After the edits each row of an export clause is a row for a specifier that exports what the old one did, and the marks
between the rows stay. So the clause is read again, whatever follows it, as one that exports the same names.

Main statements:

* `exists_renamedRow` and `exists_renamedTail` say what a row of a list and the rest of the list become;
* `exists_renamedClause` says that a clause exports the same names after the edits.
-/

namespace Codemod

open Syntax Syntax.Tree Pattern Grammar

namespace Syntax

/-- Before what is visible at once there is no gap. -/
theorem gap_nil {s : Reading} {g y : Bytes} (hvisible : s.skip.rest = s.rest) (hg : Gap g) (hy : Visible y)
    (hs : s.rest = g ++ y) : g = [] := by
  have hskip := (Reading.skip_gap hg hy hs).2
  rw [hvisible, hs] at hskip
  exact List.append_left_eq_self.mp hskip

theorem leavesAt_gap {o : Nat} {g v : Bytes} {cs : List Chunk} {kinds : List (Kind × Option Role)} :
    leavesAt o (⟨g, v⟩ :: cs) kinds = leavesAt (o + g.length) (⟨[], v⟩ :: cs) kinds := by
  cases kinds with
  | nil => rfl
  | cons kind kinds => simp [leavesAt, leafAt, Chunk.text, Nat.add_assoc]

/-- The names that a part of an export exports: those of its specifiers, or the name of a whole module. -/
def Tree.exportedNames (source : Bytes) (t : Tree) : List (Option Bytes) :=
  match t.kind with
  | .exportClause =>
    (t.children.filter (·.is .exportSpecifier)).map fun c => (c.specified? source).map Specified.exported
  | .namespaceExport => [t.wholeName? source]
  | _ => []

/-- The mark of a list stands before what follows it. -/
theorem sameMark_comma {g y y' : Bytes} (hg : Gap g) : SameMark (g ++ code ',' :: y) (g ++ code ',' :: y') :=
  ⟨g, code ',', y, y', hg, rfl, rfl, rfl⟩

theorem sameMark_brace {g y y' : Bytes} (hg : Gap g) : SameMark (g ++ code '\x7d' :: y) (g ++ code '\x7d' :: y') :=
  ⟨g, code '\x7d', y, y', hg, rfl, rfl, rfl⟩

end Syntax

namespace NamedImport

variable {f : SourceFile} {old new : String} {above ts us : List Tree} {rules : Rule → Phrase} {around : Surroundings}
  {s s' done : Reading} {xs xs' : List Specified} {cs : List Chunk} {more : List (Bytes × List Chunk)} {last : Bytes}

variable (old new above) in
/-- A sign stays. -/
theorem becomes_sign {m : UInt8} {g : Bytes} {o : Nat} {z : Bytes} (hsource : Reached f.text o (g ++ m :: z)) :
    Becomes f old new above [leafAt o ⟨g, [m]⟩ (.symbol, none)] o (o + g.length + 1) (g ++ [m]) := by
  have hlength : o + g.length + 1 = o + (g ++ [m]).length := by simp [Nat.add_assoc]
  rw [hlength]
  refine .unchanged ?_ (z := z) (by simpa using hsource)
  rw [mentionsIn_leaf, mention?_symbol]
  rfl

/-! ### Lists of specifiers -/

/-- What a row of a list becomes: one that exports the same. -/
structure RenamedRow (f : SourceFile) (old new : String) (above : List Tree) (s s' : Reading) (ts : List Tree)
    (xs xs' : List Specified) (cs : List Chunk) : Prop where
  rest : ∃ v, s.rest = v ++ s'.rest ∧ s'.offset = s.offset + v.length
  adds : Reading.Adds ts s s'
  meant : Says f.text .exportSpecifier ts xs
  holds : Holds .exported cs xs'
  spelled : ∀ z, SameMark s'.rest z → Spelled cs z
  exported : xs'.map Specified.exported = xs.map Specified.exported
  becomes : Becomes f old new above ts s.offset s'.offset (rowText cs)

variable (old above) in
theorem exists_renamedRow (hnew : Bindable (Bytes.ofString new))
    (h : Ran rules around (opt (.node .exportSpecifier Style.exported.forms)) s s')
    (hsource : Reached f.text s.offset s.rest) :
    ∃ ts xs xs' cs, RenamedRow f old new above s s' ts xs xs' cs := by
  rcases h.either with h | h
  · obtain ⟨done, hdone, rfl⟩ := h.node
    have hform := form_specifier Style.exported.isName Style.exported.isOuter Style.exported.isInner
    obtain ⟨cs, kinds, hs, -, hspelled, hrow, hmay⟩ := exists_row hform hdone
    obtain ⟨x, hallowed, hwords, rfl⟩ :=
      exists_specified Style.exported.isName Style.exported.isOuter Style.exported.isInner hmay
    have hx : Writes .exported x cs := ⟨hallowed, hwords⟩
    obtain ⟨⟨g₀, v⟩, cs, rfl⟩ := List.exists_cons_of_ne_nil (show cs ≠ [] by
      rintro rfl
      obtain ⟨_ | w, n, _ | a⟩ := x <;> exact absurd hwords (by simp [Specified.words]))
    -- the node begins with its first word
    have hs₀ : s.skip.inner.rest = g₀ ++ (v ++ (rowText cs ++ done.rest)) := by
      rw [hs, rowText_cons, Chunk.text]
      simp
    obtain rfl : g₀ = [] := gap_nil (s := s.skip.inner) (trivia_again _ s.offset s.rest) hspelled.1 hspelled.2.1.visible hs₀
    have hskip : (trivia s.offset s.rest).rest = v ++ (rowText cs ++ done.rest) := hs₀
    obtain ⟨g, hg, hrest, hoffset⟩ := exists_gap (hskip ▸ hspelled.2.1.visible)
    have hoffset : s.skip.inner.offset = s.offset + g.length := hoffset
    have hrest : s.rest = rowText (⟨g, v⟩ :: cs) ++ done.rest := by
      rw [hrest, hskip, rowText_cons, Chunk.text]
      simp
    have hdoneOffset : done.offset = s.offset + (rowText (⟨g, v⟩ :: cs)).length := by
      rw [hrow.offset, hoffset]
      simp [Chunk.text, Nat.add_assoc]
    obtain ⟨hparts, hplain⟩ := hrow.adds.parts rfl
      (t := .node .exportSpecifier none s.skip.offset done.offset done.found.reverse) rfl
    rw [hoffset, ← leavesAt_gap] at hparts
    rw [hrest] at hsource
    obtain ⟨x', cs', hsettled, hexported, hbecomes⟩ := exists_renamed old above hnew rfl hparts
      hplain (x := x) ⟨hx.allowed, hx.words⟩ ⟨hg, hspelled.2⟩ hsource
    refine ⟨_, [x], [x'], cs', ⟨_, hrest, hdoneOffset⟩, (Reading.adds_skip s).trans (Reading.adds_close (fun h => by cases h) _ _), ?_,
      .one hsettled.writes, hsettled.spelled, by simp [hexported], ?_⟩
    · have hsaid := Tree.specified?_eq hparts hplain hx.words hsource
      simp [Says, Tree.is, Tree.kind]
      exact hsaid
    · rw [← hdoneOffset] at hbecomes
      exact hbecomes
  · obtain rfl := h.nothing
    exact ⟨[], [], [], [], ⟨[], rfl, rfl⟩, .refl _, rfl, .nothing, fun _ _ => trivial, rfl,
      by simpa using Becomes.unchanged (v := []) (mentionsIn_nil ..) hsource⟩

/-- What the rest of a list becomes: one that exports the same. -/
structure RenamedTail (f : SourceFile) (old new : String) (above : List Tree) (s s' : Reading) (ts : List Tree)
    (xs xs' : List Specified) (more : List (Bytes × List Chunk)) (last : Bytes) : Prop where
  rest : ∃ v, s.rest = v ++ s'.rest ∧ s'.offset = s.offset + v.length
  adds : Reading.Adds ts s s'
  meant : Says f.text .exportSpecifier ts xs
  mark : ∀ z, SameMark s.rest (listTail more last ++ z)
  listed : ∀ z, Listed .exported z more last xs'
  gap : Gap last
  exported : xs'.map Specified.exported = xs.map Specified.exported
  becomes : Becomes f old new above ts s.offset s'.offset (listTail more last)

variable (old above) in
theorem exists_renamedTail (hnew : Bindable (Bytes.ofString new))
    (h : Ran rules around (.many (.both (sign ",") (opt (.node .exportSpecifier Style.exported.forms)))) s s')
    (hclose : Ran rules around (sign "\x7d") s' done) (hsource : Reached f.text s.offset s.rest) :
    ∃ ts xs xs' more last, RenamedTail f old new above s done ts xs xs' more last := by
  refine h.many (P := fun s s' => Ran rules around (sign "\x7d") s' done → Reached f.text s.offset s.rest →
    ∃ ts xs xs' more last, RenamedTail f old new above s done ts xs xs' more last) ?_ ?_ hclose hsource
  · intro s hclose hsource
    obtain ⟨g, hs, hg, hoffset, hadds⟩ := exists_sign (m := code '\x7d') "\x7d" rfl rfl hclose
    refine ⟨_, [], [], [], g, ⟨g ++ [code '\x7d'], by simp [hs], by simp [hoffset, Nat.add_assoc]⟩, hadds,
      says_symbol rfl (fun h => by cases h), fun z => ?_, fun z => .nil hg, hg, rfl, ?_⟩
    · rw [hs, listTail, List.append_assoc]
      exact sameMark_brace hg
    · rw [hs] at hsource
      rw [hoffset]
      exact becomes_sign old new above hsource
  · intro s m s' hone ih hclose hsource
    obtain ⟨s₁, hcomma, hrow⟩ := hone.both
    obtain ⟨g, hs, hg, hoffset, hadds⟩ := exists_sign (m := code ',') "," rfl rfl hcomma
    have hsource' := hsource
    rw [hs] at hsource'
    have hsource₁ : Reached f.text s₁.offset s₁.rest := by
      rw [hoffset]
      rw [List.append_cons] at hsource'
      simpa [Nat.add_assoc] using hsource'.append
    obtain ⟨ts₁, xs₁, xs₁', cs, hrenamed⟩ := exists_renamedRow old above hnew hrow hsource₁
    obtain ⟨v₁, hv₁, hoffset₁⟩ := hrenamed.rest
    have hsource₂ : Reached f.text m.offset m.rest := by
      rw [hv₁] at hsource₁
      rw [hoffset₁]
      exact hsource₁.append
    obtain ⟨ts₂, xs₂, xs₂', more, last, htail⟩ := ih hclose hsource₂
    obtain ⟨v₂, hv₂, hoffset₂⟩ := htail.rest
    have hcommaBecomes := becomes_sign old new above hsource'
    rw [← hoffset] at hcommaBecomes
    refine ⟨_, _, _, (g, cs) :: more, last, ⟨g ++ code ',' :: (v₁ ++ v₂), by simp [hs, hv₁, hv₂], ?_⟩,
      (hadds.trans hrenamed.adds).trans htail.adds, ((says_symbol rfl (fun h => by cases h)).append hrenamed.meant).append htail.meant,
      fun z => ?_, fun z => .cons hg hrenamed.holds (hrenamed.spelled _ (htail.mark z)) (htail.listed z), htail.gap, ?_, ?_⟩
    · rw [hoffset₂, hoffset₁, hoffset]
      simp only [List.length_append, List.length_cons]
      omega
    · rw [hs, listTail, List.append_assoc, List.cons_append]
      exact sameMark_comma hg
    · simp [hrenamed.exported, htail.exported]
    · have hall := (hcommaBecomes.append hrenamed.becomes).append htail.becomes
      rw [listTail]
      simpa using hall

/-! ### Export clauses -/

/-- Whether a text, whatever follows it, is read by a pattern as a node that exports these names. -/
def ExportsNames (p : Phrase) (k : Kind) (text z : Bytes) (names : List Bytes) : Prop :=
  ∀ (rules : Rule → Phrase) (around : Surroundings) (source : Bytes) (s : Reading),
    Reached source s.offset s.rest → s.rest = text ++ z →
    ∃ t s', Reads rules around p s s' ∧ s'.rest = z ∧ Reading.Adds [t] s s' ∧ t.kind = k ∧
      t.exportedNames source = names.map some

variable {t : Tree} {k : Kind} {z : Bytes}

theorem exportedNames_of_meant {source : Bytes} {ts : List Tree} (hkind : t.kind = .exportClause)
    (hparts : t.children.filter (fun c => !c.is .comment) = ts) (hmeant : Says source .exportSpecifier ts xs) :
    t.exportedNames source = (xs.map Specified.exported).map some := by
  subst hparts
  have hfilter : (t.children.filter fun c => !c.is .comment).filter (·.is .exportSpecifier) =
      t.children.filter (·.is .exportSpecifier) := by
    rw [List.filter_filter]
    refine List.filter_congr fun c _ => ?_
    cases hspecifier : c.is .exportSpecifier with
    | false => rfl
    | true =>
      rw [Tree.is, of_decide_eq_true hspecifier]
      rfl
  unfold Tree.exportedNames
  rw [hkind]
  show (t.children.filter (·.is .exportSpecifier)).map ((Option.map Specified.exported) ∘ Tree.specified? source) = _
  rw [← hfilter, ← List.map_map, hmeant, List.map_map, List.map_map]
  rfl

variable (old above) in
/-- An export clause exports the same after the edits. -/
theorem exists_renamedClause (hnew : Bindable (Bytes.ofString new))
    (h : ReadFrom rules f.text (Style.exported.list .exportSpecifier) t around s done) (hkind : t.kind = .exportClause) :
    ∃ names inner, t.exportedNames f.text = names.map some ∧
      Becomes f old new above [t] t.start t.stop (code '\x7b' :: inner) ∧
      ∀ z, ExportsNames exportClause .exportClause (code '\x7b' :: inner) z names := by
  obtain ⟨s₁, hopen, hinner⟩ := h.ran.both
  obtain ⟨s₂, hlist, hclose⟩ := hinner.inside.both
  obtain ⟨m, hrow, hmany⟩ := hlist.both
  obtain ⟨g, hs, hg, hoffset, hadds⟩ := exists_sign (m := code '\x7b') "\x7b" rfl rfl hopen
  obtain rfl := gap_nil h.visible hg (visible_mark rfl _) hs
  have hsource := h.reached
  rw [hs] at hsource
  have hsource₁ : Reached f.text s₁.offset s₁.rest := by
    rw [hoffset]
    exact hsource.tail
  obtain ⟨ts₁, xs₁, xs₁', cs, hrenamed⟩ := exists_renamedRow old (t :: above) hnew hrow hsource₁
  obtain ⟨v₁, hv₁, hoffset₁⟩ := hrenamed.rest
  have hsource₂ : Reached f.text m.offset m.rest := by
    rw [hv₁] at hsource₁
    rw [hoffset₁]
    exact hsource₁.append
  obtain ⟨ts₂, xs₂, xs₂', more, last, htail⟩ :=
    exists_renamedTail old (t :: above) hnew hmany hclose hsource₂
  have hopening := becomes_sign old new (t :: above) hsource
  rw [← hoffset] at hopening
  have hbecomes := (hopening.append hrenamed.becomes).append htail.becomes
  obtain ⟨hparts, hplain⟩ := ((hadds.trans hrenamed.adds).trans htail.adds).parts h.fresh h.children
  have hbrace : Says f.text .exportSpecifier [leafAt s.offset ⟨[], [code '\x7b']⟩ (.symbol, none)] [] :=
    says_symbol rfl fun h => by cases h
  have hmeant := (hbrace.append hrenamed.meant).append htail.meant
  have hname : isName t = false := by
    simp [isName, Tree.is, hkind]
  have hmentions : mentionsIn f old new above [t] = mentionsIn f old new (t :: above) t.children := mentionsIn_node hname
  rw [← mentionsIn_parts hplain, hparts] at hmentions
  refine ⟨_, rowText cs ++ listTail more last, exportedNames_of_meant hkind hparts hmeant, ?_, ?_⟩
  · rw [h.start, h.stop] at hbecomes
    exact ⟨hmentions ▸ hbecomes.inOrder, hmentions ▸ hbecomes.text⟩
  · intro z rules around source s' hsource' hs'
    rw [hs'] at hsource'
    have hvisible : Visible (code '\x7b' :: (rowText cs ++ listTail more last) ++ z) := visible_mark rfl _
    have hs'' : code '\x7b' :: (rowText cs ++ listTail more last) ++ z =
        code '\x7b' :: (rowText cs ++ (listTail more last ++ z)) := by simp
    obtain ⟨s₃, ts, hreads, hrest, -, hadds', hmeant'⟩ := reads_list rules around (z := z)
      (s := ⟨s'.offset, code '\x7b' :: (rowText cs ++ listTail more last) ++ z, []⟩) (k := .exportSpecifier)
      hrenamed.holds (hrenamed.spelled _ (htail.mark z)) (htail.listed z) htail.gap (fun h => by cases h)
      (fun h => by cases h) hsource' hs''
    obtain ⟨u, s₄, hnode, hread⟩ := reads_node (k := .exportClause) (s := s') (fun h => by cases h) Gap.nil hvisible hs'
      hreads hadds'
    refine ⟨u, s₄, hnode, hread.rest.trans hrest, hread.adds, hread.kind, ?_⟩
    rw [exportedNames_of_meant hread.kind hread.parts hmeant', List.map_append, hrenamed.exported, htail.exported]
    simp

end NamedImport
end Codemod
