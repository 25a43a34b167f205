import Codemod.Proofs.Mentions
import Codemod.Proofs.NamespaceNames

/-!
# Specifiers of exports whose names are replaced

Of a specifier of an export only the name can be replaced, and only where it is no text between quotes. If the
specifier gives another name, that one is kept; if it gives none, the old name is written behind the new one as the
name that is given. Either way the row of words is again one of a specifier, which exports what the old one did.

Main statements:

* `mention?_name` says what is put in the place of the name of a specifier;
* `exists_renamed` says that a specifier exports the same after the edits.
-/

namespace Codemod

open Syntax Syntax.Tree Pattern Grammar

/-! ### Rows in parts -/

namespace Syntax

variable {a b : List Chunk} {ka kb : List (Kind × Option Role)} {o : Nat} {z : Bytes}

theorem rowText_append (a b : List Chunk) : rowText (a ++ b) = rowText a ++ rowText b :=
  List.flatMap_append

theorem spelled_append : Spelled (a ++ b) z ↔ Spelled a (rowText b ++ z) ∧ Spelled b z := by
  induction a with
  | nil => simp [Spelled]
  | cons c a ih => simp [Spelled, ih, rowText_append, and_assoc]

theorem leavesAt_append (h : a.length = ka.length) :
    leavesAt o (a ++ b) (ka ++ kb) = leavesAt o a ka ++ leavesAt (o + (rowText a).length) b kb := by
  induction a generalizing o ka with
  | nil =>
    obtain rfl := List.length_eq_zero_iff.mp h.symm
    rfl
  | cons c a ih =>
    obtain ⟨kind, ka, rfl⟩ := List.exists_cons_of_length_eq_add_one h.symm
    rw [List.cons_append, List.cons_append, leavesAt, ih (Nat.succ.inj h), leavesAt, rowText_cons, List.length_append,
      Nat.add_assoc]
    rfl

/-! ### The words of a specifier -/

namespace Specified

/-- The name that a specifier exports. -/
def exported (x : Specified) : Bytes := x.other.getD x.name

/-- The words behind the name of a specifier. -/
def otherWords (x : Specified) : List Bytes :=
  match x.other with
  | none => []
  | some w => [Bytes.ofString "as", w]

/-- The nodes of these words. -/
def otherKinds (x : Specified) : List (Kind × Option Role) :=
  match x.other with
  | none => []
  | some w => [(.symbol, none), (nameKind w, some .alias)]

theorem words_eq (x : Specified) : x.words = x.typeWord.toList ++ x.name :: x.otherWords := by
  obtain ⟨_ | w, n, _ | a⟩ := x <;> rfl

theorem kinds_eq (x : Specified) : x.kinds = (x.typeWord.toList.map fun _ => (Kind.symbol, none)) ++
    ([(nameKind x.name, some .name)] ++ x.otherKinds) := by
  obtain ⟨_ | w, n, _ | a⟩ := x <;> rfl

end Specified

/-- The row of a specifier: perhaps a word for a type, the name, and perhaps another name. -/
theorem Writes.split {y : Style} {x : Specified} {cs : List Chunk} (h : Writes y x cs) : ∃ ty c more,
    cs = ty ++ c :: more ∧ ty.map (·.word) = x.typeWord.toList ∧ c.word = x.name ∧ more.map (·.word) = x.otherWords := by
  have hwords := h.words
  rw [Specified.words_eq] at hwords
  obtain ⟨ty, rest, rfl, hty, hrest⟩ := List.map_eq_append_iff.mp hwords
  obtain ⟨c, more, rfl, hc, hmore⟩ := List.map_eq_cons_iff.mp hrest
  exact ⟨ty, c, more, rfl, hty, hc, hmore⟩

/-- A name stands before the words that give it another one where a name stood before them. -/
theorem Bindable.before_as {n v a : Bytes} {more : List Chunk} {z' : Bytes} (h : Bindable n)
    (hends : Bytes.EndsCharacter n) (hv : isQuoted v = false) (hmore : more.map (·.word) = [Bytes.ofString "as", a])
    (hword : Word (rowText more ++ z) v) (hspelled : Spelled more z) : Word (rowText more ++ z') n := by
  obtain ⟨c, rest, rfl, hc, -⟩ := List.map_eq_cons_iff.mp hmore
  obtain ⟨hg, hw, -⟩ := hspelled
  have hunquoted : isQuoted c.word = false := by
    rw [hc]
    decide +kernel
  rw [rowText_cons, Chunk.text, List.append_assoc, List.append_assoc] at hword
  obtain ⟨b, g, heq⟩ := List.exists_cons_of_ne_nil (hword.gap_ne_nil hw hv hunquoted)
  have hbefore := h.before_gap hends (heq ▸ hg) (c.word ++ (rowText rest ++ z'))
  simpa [Chunk.text, heq] using hbefore

end Syntax

namespace NamedImport

variable {f : SourceFile} {old new : String} {above ts us : List Tree} {t : Tree} {lo c hi o : Nat}
  {u v w z : Bytes} {p : Patch}

/-! ### What nodes become -/

/-- Whether the text between two offsets becomes another one by the edits of the mentions at and below nodes. -/
structure Becomes (f : SourceFile) (old new : String) (above ts : List Tree) (lo hi : Nat) (v : Bytes) : Prop where
  inOrder : Patch.InOrder lo hi (mentionsIn f old new above ts)
  text : Patch.patched f.text lo hi (mentionsIn f old new above ts) = v

namespace Becomes

theorem append (h : Becomes f old new above ts lo c v) (h' : Becomes f old new above us c hi w) :
    Becomes f old new above (ts ++ us) lo hi (v ++ w) := by
  refine ⟨?_, ?_⟩
  · rw [mentionsIn_append]
    exact h.inOrder.append h'.inOrder
  · rw [mentionsIn_append, Patch.patched_append h.inOrder h'.inOrder, h.text, h'.text]

/-- Where nothing is replaced, the text stays. -/
theorem unchanged (h : mentionsIn f old new above ts = []) (hsource : Reached f.text o (v ++ z)) :
    Becomes f old new above ts o (o + v.length) v := by
  refine ⟨?_, ?_⟩
  · rw [h]
    exact Nat.le_add_right _ _
  · rw [h, Patch.patched_nil, hsource.slice]

theorem one (h : mentionsIn f old new above ts = [p]) (hsource : Reached f.text o (u ++ (v ++ (w ++ z))))
    (hstart : p.start = o + u.length) (hstop : p.stop = p.start + v.length) :
    Becomes f old new above ts o (o + (u ++ (v ++ w)).length) (u ++ (p.bytes ++ w)) := by
  have hv := hsource.append
  have hw := hv.append
  have hhi : o + (u ++ (v ++ w)).length = p.stop + w.length := by
    simp only [List.length_append]
    omega
  refine ⟨?_, ?_⟩
  · rw [h]
    exact ⟨by omega, by omega, by rw [hhi]; exact Nat.le_add_right _ _⟩
  · rw [h, hhi]
    simp only [Patch.patched]
    rw [hstart, hsource.slice, hstop, hstart, hw.slice, List.append_assoc]

end Becomes

/-! ### The names of a specifier -/

variable {source : Tree} {x : Specified} {cs : List Chunk} {rest : List Tree}

theorem mentionsIn_leaf {o : Nat} {d : Chunk} {kind : Kind × Option Role} :
    mentionsIn f old new above (leafAt o d kind :: ts) =
      (mention? f old new (leafAt o d kind, above)).toList ++ mentionsIn f old new above ts := by
  rw [mentionsIn_cons]
  rfl

/-- A symbol mentions nothing. -/
theorem mention?_symbol {o : Nat} {d : Chunk} {r : Option Role} :
    mention? f old new (leafAt o d (.symbol, r), above) = none :=
  mention?_of_not_isName rfl

theorem isQuoted_of_isName {o : Nat} {d : Chunk} {r : Option Role}
    (h : isName (leafAt o d (Specified.nameKind d.word, r)) = true) : isQuoted d.word = false := by
  cases hquoted : isQuoted d.word with
  | false => rfl
  | true =>
    unfold leafAt Specified.nameKind at h
    rw [hquoted] at h
    cases h

/-- How the name of a specifier stands in it. -/
theorem standing_name {rest : List Tree} (ht : t.is .exportSpecifier = true) {u : Tree}
    (hu : u.is .shorthandProperty = false) (hrole : u.role = some .name) :
    Standing.ofName u (t :: rest) =
      if isReexport rest then .foreign else if (t.child? .alias).isNone then .exported else .plain := by
  unfold Standing.ofName
  rw [hu]
  dsimp only
  rw [ht, hrole]
  cases t.child? .alias <;> rfl

/-- How the other name that a specifier gives stands in it. -/
theorem standing_alias {rest : List Tree} (ht : t.is .exportSpecifier = true) (halias : (t.child? .alias).isSome = true)
    {u : Tree} (hu : u.is .shorthandProperty = false) (hrole : u.role = some .alias) :
    Standing.ofName u (t :: rest) = .foreign := by
  obtain ⟨a, ha⟩ := Option.isSome_iff_exists.mp halias
  unfold Standing.ofName
  rw [hu]
  dsimp only
  rw [ht, hrole, ha]
  cases isReexport rest <;> rfl

theorem not_shorthand {o : Nat} {d : Chunk} {r : Option Role} :
    (leafAt o d (Specified.nameKind d.word, r)).is .shorthandProperty = false := by
  refine decide_eq_false ?_
  show ¬ Specified.nameKind d.word = _
  unfold Specified.nameKind
  split <;> simp

/-- The other name that a specifier gives stays. -/
theorem mention?_alias {o : Nat} {d : Chunk} (ht : t.is .exportSpecifier = true)
    (halias : (t.child? .alias).isSome = true) :
    mention? f old new (leafAt o d (Specified.nameKind d.word, some .alias), t :: above) = none := by
  refine Option.eq_none_iff_forall_not_mem.mpr fun p hp => ?_
  obtain ⟨-, -, -, -, hbytes⟩ := mention?_eq_some hp
  rw [standing_alias ht halias not_shorthand rfl] at hbytes
  cases hbytes

/-- The name of a specifier is replaced, and kept behind the new one if it is exported by itself. -/
theorem mention?_name {o : Nat} {d : Chunk} (ht : t.is .exportSpecifier = true)
    (h : mention? f old new (leafAt o d (Specified.nameKind d.word, some .name), t :: above) = some p)
    (hsource : Reached f.text o (d.text ++ z)) :
    isQuoted d.word = false ∧ d.word = Bytes.ofString old ∧ p.start = o + d.gap.length ∧
      p.stop = p.start + d.word.length ∧
      p.bytes = if (t.child? .alias).isNone then Bytes.ofString new ++ Bytes.ofString " as " ++ Bytes.ofString old
        else Bytes.ofString new := by
  obtain ⟨hname, htext, hstart, hstop, hbytes⟩ := mention?_eq_some h
  rw [text_leafAt hsource] at htext
  refine ⟨isQuoted_of_isName hname, htext, hstart, ?_, ?_⟩
  · rw [hstop, hstart, leafAt, Tree.stop, Tree.start, Chunk.text, List.length_append, Nat.add_assoc]
  · rw [standing_name ht not_shorthand rfl] at hbytes
    cases hreexport : isReexport above with
    | true =>
      rw [hreexport] at hbytes
      cases hbytes
    | false =>
      rw [hreexport] at hbytes
      cases halias : (t.child? .alias).isNone with
      | true =>
        rw [halias] at hbytes
        exact (Option.some.inj hbytes).symm
      | false =>
        rw [halias] at hbytes
        exact (Option.some.inj hbytes).symm

/-- The nodes of a word for a type mention nothing. -/
theorem mentionsIn_typeWord {w? : Option Bytes} {o : Nat} (h : cs.map (·.word) = w?.toList) :
    mentionsIn f old new above (leavesAt o cs (w?.toList.map fun _ => (Kind.symbol, none))) = [] := by
  cases w? with
  | none =>
    obtain rfl := List.map_eq_nil_iff.mp h
    rfl
  | some w =>
    obtain ⟨c, rest, rfl, -, hrest⟩ := List.map_eq_cons_iff.mp h
    obtain rfl := List.map_eq_nil_iff.mp hrest
    exact mentionsIn_leaf.trans (by rw [mention?_symbol]; rfl)

/-- The nodes of another name mention nothing that is replaced. -/
theorem mentionsIn_other {o : Nat} (ht : t.is .exportSpecifier = true)
    (halias : x.other.isSome = true → (t.child? .alias).isSome = true) (h : cs.map (·.word) = x.otherWords) :
    mentionsIn f old new (t :: above) (leavesAt o cs x.otherKinds) = [] := by
  obtain ⟨type?, n, other?⟩ := x
  cases other? with
  | none =>
    obtain rfl := List.map_eq_nil_iff.mp h
    rfl
  | some a =>
    obtain ⟨c, _, rfl, -, hrest⟩ := List.map_eq_cons_iff.mp h
    obtain ⟨d, _, rfl, hd, hrest⟩ := List.map_eq_cons_iff.mp hrest
    obtain rfl := List.map_eq_nil_iff.mp hrest
    obtain rfl : a = d.word := hd.symm
    refine mentionsIn_leaf.trans ?_
    rw [mention?_symbol]
    refine mentionsIn_leaf.trans ?_
    rw [mention?_alias ht (halias rfl)]
    rfl

/-! ### A specifier whose name is replaced -/

/-- Whether a row stands for a specifier wherever the mark follows that follows it in a text. -/
structure Settled (x : Specified) (cs : List Chunk) (z : Bytes) : Prop where
  writes : Writes .exported x cs
  spelled : ∀ z', SameMark z z' → Spelled cs z'

/-- What is exported is a name for the pattern of exported names. -/
theorem mayTake_exportedName {n : Bytes} (h : isQuoted n = false) : ∃ kind, exportedName.MayTake n kind := by
  refine ⟨_, .inl ⟨?_, rfl⟩⟩
  simp [Lexeme.takes, h]

/-- A word for a type stays a word before another name. -/
theorem spelled_typeWord {ty more more' : List Chunk} {c d : Chunk} {w? : Option Bytes} {z' : Bytes}
    (hty : ty.map (·.word) = w?.toList) (hquoted : ∀ w, w? = some w → isQuoted w = false)
    (hc : isQuoted c.word = false) (hgap : d.gap = c.gap) (hspelled : Spelled (ty ++ c :: more) z) :
    Spelled ty (rowText (d :: more') ++ z') := by
  cases w? with
  | none =>
    obtain rfl := List.map_eq_nil_iff.mp hty
    trivial
  | some w =>
    obtain ⟨e, rest, rfl, he, hrest⟩ := List.map_eq_cons_iff.mp hty
    obtain rfl := List.map_eq_nil_iff.mp hrest
    obtain ⟨heg, hew, hcg, hcw, -⟩ := hspelled
    have hew : Word (c.gap ++ (c.word ++ (rowText more ++ z))) e.word := by simpa [Chunk.text] using hew
    have hne := hew.gap_ne_nil hcw (he ▸ hquoted w rfl) hc
    obtain ⟨a, g, heq⟩ := List.exists_cons_of_ne_nil hne
    rw [heq, List.cons_append] at hew
    refine ⟨heg, ?_, trivial⟩
    have hword := hew.before_gap (heq ▸ hcg) (d.word ++ (rowText more' ++ z'))
    simpa [Chunk.text, hgap, heq] using hword

theorem typeWord_unquoted {name outer inner : Phrase} (h : x.Allowed name outer inner) (w : Bytes)
    (hw : x.typeWord = some w) : isQuoted w = false := by
  rcases h.typeWord w hw with rfl | rfl
  · decide +kernel
  · decide +kernel

theorem bindable_as : Bindable (Bytes.ofString "as") := by decide +kernel

variable (old above) in
/-- After the edits a specifier of an export exports what it did, under whatever name the file has it. -/
theorem exists_renamed (hnew : Bindable (Bytes.ofString new)) (ht : t.is .exportSpecifier = true)
    (hparts : t.children.filter (fun c => !c.is .comment) = leavesAt o cs x.kinds)
    (hplain : PlainComments t.children) (hx : Writes .exported x cs) (hspelled : Spelled cs z)
    (hsource : Reached f.text o (rowText cs ++ z)) : ∃ x' cs', Settled x' cs' z ∧ x'.exported = x.exported ∧
      Becomes f old new above [t] o (o + (rowText cs).length) (rowText cs') := by
  have hsaid := Tree.specified?_eq hparts hplain hx.words hsource
  obtain ⟨n, -, hsaid⟩ := Option.map_eq_some_iff.mp hsaid
  have halias : x.other.isSome = (t.child? .alias).isSome := by
    rw [← hsaid]
    exact Option.isSome_map
  obtain ⟨ty, c, more, rfl, hty, hname, hother⟩ := hx.split
  have hmentions : mentionsIn f old new above [t] =
      (mention? f old new (leafAt (o + (rowText ty).length) c (Specified.nameKind c.word, some .name), t :: above)).toList := by
    have hnode : isName t = false := by
      simp [isName, Tree.is, of_decide_eq_true ht]
    have hkinds : x.kinds = (x.typeWord.toList.map fun _ => (Kind.symbol, none)) ++
        ([(Specified.nameKind c.word, some .name)] ++ x.otherKinds) := by
      rw [hname]
      exact x.kinds_eq
    have hcs : ty ++ c :: more = ty ++ ([c] ++ more) := rfl
    rw [mentionsIn_node hnode, ← mentionsIn_parts hplain, hparts, hkinds, hcs,
      leavesAt_append (by rw [← List.length_map (·.word), hty, List.length_map]), leavesAt_append rfl,
      mentionsIn_append, mentionsIn_append, mentionsIn_typeWord hty,
      mentionsIn_other ht (fun h => halias ▸ h) hother]
    simp only [leavesAt, List.nil_append, List.append_nil]
    exact mentionsIn_leaf.trans (List.append_nil _)
  cases hmention : mention? f old new
      (leafAt (o + (rowText ty).length) c (Specified.nameKind c.word, some .name), t :: above) with
  | none =>
    rw [hmention] at hmentions
    exact ⟨x, _, ⟨hx, fun z' hz' => hspelled.congr fun last _ hword => hword.same_mark hz'⟩, rfl,
      .unchanged hmentions hsource⟩
  | some p =>
    rw [hmention] at hmentions
    have hrow : rowText (ty ++ c :: more) = (rowText ty ++ c.gap) ++ (c.word ++ rowText more) := by
      rw [rowText_append, rowText_cons, Chunk.text]
      simp
    have hreached : Reached f.text o ((rowText ty ++ c.gap) ++ (c.word ++ (rowText more ++ z))) := by
      simpa [hrow] using hsource
    obtain ⟨hunquoted, hold, hstart, hstop, hbytes⟩ := mention?_name (z := rowText more ++ z) ht hmention (by
      have := hsource
      rw [rowText_append, rowText_cons, List.append_assoc] at this
      simpa using this.append)
    have hbecomes := Becomes.one hmentions hreached (by rw [hstart, List.length_append, Nat.add_assoc]) hstop
    rw [← hrow] at hbecomes
    obtain ⟨hspelledTy, hgap, hword, hmore⟩ := spelled_append.mp hspelled
    have htypes := typeWord_unquoted hx.allowed
    cases hx' : x.other with
    | none =>
      rw [hx'] at halias
      have hnone : (t.child? .alias).isNone = true := by simpa using halias.symm
      rw [if_pos hnone] at hbytes
      obtain rfl : more = [] := by
        rw [Specified.otherWords, hx'] at hother
        exact List.map_eq_nil_iff.mp hother
      refine ⟨⟨x.typeWord, Bytes.ofString new, some (Bytes.ofString old)⟩,
        ty ++ [⟨c.gap, Bytes.ofString new⟩, ⟨[code ' '], Bytes.ofString "as"⟩, ⟨[code ' '], Bytes.ofString old⟩],
        ⟨⟨⟨hx.allowed.typeWord, fun h => ?_, fun w hw => ?_⟩, ?_⟩, fun z' hz' => ?_⟩, ?_, ?_⟩
      · cases h
      · cases hw
        exact ⟨mayTake_exportedName hnew.not_isQuoted, mayTake_exportedName (hold ▸ hunquoted)⟩
      · rw [List.map_append, hty]
        rfl
      · refine spelled_append.mpr ⟨spelled_typeWord hty htypes hunquoted rfl hspelled, hgap, ?_, Gap.nil.space, ?_,
          Gap.nil.space, ?_, trivial⟩
        · exact hnew.before_space _
        · exact bindable_as.before_space _
        · rw [← hold]
          exact hword.same_mark hz'
      · show Bytes.ofString old = x.other.getD x.name
        rw [hx', ← hold]
        exact hname
      · rw [hbytes] at hbecomes
        refine cast (congrArg _ ?_) hbecomes
        simp [rowText_append, Chunk.text]
        rfl
    | some a =>
      rw [hx'] at halias
      have hsome : ¬ (t.child? .alias).isNone = true := fun hnone => by
        rw [Option.isNone_iff_eq_none.mp hnone] at halias
        cases halias
      rw [if_neg hsome] at hbytes
      obtain ⟨-, hother'⟩ := hx.allowed.both a hx'
      refine ⟨⟨x.typeWord, Bytes.ofString new, some a⟩, ty ++ ⟨c.gap, Bytes.ofString new⟩ :: more,
        ⟨⟨⟨hx.allowed.typeWord, fun h => ?_, fun w hw => ?_⟩, ?_⟩, fun z' hz' => ?_⟩, ?_, ?_⟩
      · cases h
      · cases hw
        exact ⟨mayTake_exportedName hnew.not_isQuoted, hother'⟩
      · rw [List.map_append, hty, List.map_cons, hother, Specified.words_eq, Specified.otherWords, hx']
        rfl
      · refine spelled_append.mpr ⟨spelled_typeWord hty htypes hunquoted rfl hspelled, hgap, ?_,
          hmore.congr fun last _ hword => hword.same_mark hz'⟩
        rw [Specified.otherWords, hx'] at hother
        exact hnew.before_as (Bytes.endsCharacter_ofString new) hunquoted hother hword hmore
      · show a = x.other.getD x.name
        rw [hx']
        rfl
      · rw [hbytes] at hbecomes
        refine cast (congrArg _ ?_) hbecomes
        simp [rowText_append, Chunk.text]

end NamedImport
end Codemod
