import Codemod.Proofs.Substitution
import Codemod.Proofs.WordRows

/-!
# Mentions in the order of the tree

The edits that replace the mentions of a name are found by going through the tree. Names lie in order and apart, and
so do the patches that the edits make; those of the nodes of a list lie where the nodes do. So the text after the
edits can be taken apart along the tree: before a node, in its place, and behind it.

Main statements:

* `edited_mentions` says that the edits can be applied, and make their patches in the order of the tree;
* `mentionsIn_inOrder` says where the patches of nodes lie;
* `exists_around` takes the patches of a file apart around a part of a statement.
-/

namespace Codemod

open Syntax Syntax.Tree

namespace Patch

variable {t : Bytes} {lo c d hi : Nat} {p : Patch} {l l' a m b : List Patch}

theorem InOrder.mono (h : InOrder c hi l) (hlo : lo ≤ c) : InOrder lo hi l := by
  cases l with
  | nil => exact Nat.le_trans hlo h
  | cons p rest => exact ⟨Nat.le_trans hlo h.1, h.2⟩

/-- Patches that follow one another between two offsets lie in order. -/
theorem inOrder_of_pairwise (h : l.Pairwise fun p q => p.stop ≤ q.start) (hle : lo ≤ hi)
    (hbounds : ∀ p ∈ l, lo ≤ p.start ∧ p.start ≤ p.stop ∧ p.stop ≤ hi) : InOrder lo hi l := by
  induction l generalizing lo with
  | nil => exact hle
  | cons p rest ih =>
    obtain ⟨hfirst, hrest⟩ := List.pairwise_cons.mp h
    obtain ⟨hp, hbounds⟩ := List.forall_mem_cons.mp hbounds
    exact ⟨hp.1, hp.2.1, ih hrest hp.2.2 fun q hq => ⟨hfirst q hq, (hbounds q hq).2⟩⟩

theorem InOrder.follow (h : InOrder lo hi l) : l.Pairwise fun p q => p.stop ≤ q.start := by
  induction l generalizing lo with
  | nil => exact .nil
  | cons p rest ih =>
    obtain ⟨-, -, hrest⟩ := h
    exact List.pairwise_cons.mpr ⟨fun q hq => (hrest.bounds hq).1, ih hrest⟩

/-- Patches that cover something have one order. -/
theorem InOrder.eq_of_mem_iff {lo' hi' : Nat} (h : InOrder lo hi l) (h' : InOrder lo' hi' l')
    (hl : ∀ p ∈ l, p.start < p.stop) (hmem : ∀ p, p ∈ l ↔ p ∈ l') : l = l' := by
  have hl' : ∀ p ∈ l', p.start < p.stop := fun p hp => hl p ((hmem p).mpr hp)
  have hperm : l.Perm l' := (List.perm_ext_iff_of_nodup (nodup_of_pairwise h.pairwise hl)
    (nodup_of_pairwise h'.pairwise hl')).mpr hmem
  refine hperm.eq_of_pairwise (fun p q hp hq hpq hqp => ?_) h.follow h'.follow
  have := hl p hp
  have := hl' q hq
  omega

/-- The patches of a list that lie between two offsets. -/
def between (lo hi : Nat) (l : List Patch) : List Patch :=
  l.filter fun p => lo ≤ p.start && p.stop ≤ hi

theorem between_middle (ha : InOrder lo c a) (hm : InOrder c d m) (hb : InOrder d hi b)
    (hcovers : ∀ p ∈ a ++ (m ++ b), p.start < p.stop) : between c d (a ++ (m ++ b)) = m := by
  have hfirst : between c d a = [] := by
    refine List.filter_eq_nil_iff.mpr fun p hp => ?_
    have := (ha.bounds hp).2.2
    have := hcovers p (List.mem_append_left _ hp)
    simp only [Bool.and_eq_true, decide_eq_true_eq]
    omega
  have hmiddle : between c d m = m := by
    refine List.filter_eq_self.mpr fun p hp => ?_
    obtain ⟨hlo, -, hhi⟩ := hm.bounds hp
    simp only [Bool.and_eq_true, decide_eq_true_eq]
    exact ⟨hlo, hhi⟩
  have hlast : between c d b = [] := by
    refine List.filter_eq_nil_iff.mpr fun p hp => ?_
    have := (hb.bounds hp).1
    have := hcovers p (List.mem_append_right _ (List.mem_append_right _ hp))
    simp only [Bool.and_eq_true, decide_eq_true_eq]
    omega
  unfold between at *
  rw [List.filter_append, List.filter_append, hfirst, hmiddle, hlast, List.nil_append, List.append_nil]

/-- What patches make of the text between two offsets. -/
def textBetween (t : Bytes) (l : List Patch) (lo hi : Nat) : Bytes :=
  patched t lo hi (between lo hi l)

/-- A patched text falls apart where its patches do. -/
theorem patched_pieces (ha : InOrder lo c a) (hm : InOrder c d m) (hb : InOrder d hi b)
    (hcovers : ∀ p ∈ a ++ (m ++ b), p.start < p.stop) :
    patched t lo hi (a ++ (m ++ b)) = textBetween t (a ++ (m ++ b)) lo c ++
        (textBetween t (a ++ (m ++ b)) c d ++ textBetween t (a ++ (m ++ b)) d hi) ∧
      textBetween t (a ++ (m ++ b)) c d = patched t c d m ∧ textBetween t (a ++ (m ++ b)) d hi = patched t d hi b := by
  have hfirst : between lo c (a ++ (m ++ b)) = a :=
    between_middle (a := []) (Nat.le_refl lo) ha (hm.append hb) hcovers
  have hmiddle : between c d (a ++ (m ++ b)) = m := between_middle ha hm hb hcovers
  have hlast : between d hi (a ++ (m ++ b)) = b := by
    have hsplit : a ++ (m ++ b) = (a ++ m) ++ (b ++ []) := by simp
    rw [hsplit] at hcovers ⊢
    exact between_middle (ha.append hm) hb (Nat.le_refl hi) hcovers
  unfold textBetween
  rw [hfirst, hmiddle, hlast, patched_append ha (hm.append hb), patched_append hm hb]
  exact ⟨rfl, rfl, rfl⟩

end Patch

namespace NamedImport

variable {f : SourceFile} {old new : String} {o : Tree × List Tree} {p : Patch} {t : Tree} {above l l' : List Tree}
  {lo hi : Nat}

/-- What is put in the place of a name when the mentions of `old` are replaced, if it is one of them. -/
def mention? (f : SourceFile) (old new : String) (o : Tree × List Tree) : Option Patch :=
  if isName o.1 && o.1.text f.text = Bytes.ofString old &&
      !(f.imports.map (·.statement)).any (·.encloses o.1) then
    (replacement? old new o.1 o.2).map fun text => ⟨o.1.start, o.1.stop, Bytes.ofString text⟩
  else none

theorem mention?_eq_some (h : mention? f old new o = some p) :
    isName o.1 = true ∧ o.1.text f.text = Bytes.ofString old ∧ p.start = o.1.start ∧ p.stop = o.1.stop ∧
      (Standing.ofName o.1 o.2).renamed (Bytes.ofString old) (Bytes.ofString new) = some p.bytes := by
  unfold mention? at h
  split at h
  case isFalse => cases h
  case isTrue hsought =>
    obtain ⟨text, htext, rfl⟩ := Option.map_eq_some_iff.mp h
    simp only [Bool.and_eq_true, decide_eq_true_eq] at hsought
    refine ⟨hsought.1.1, hsought.1.2, rfl, rfl, ?_⟩
    rw [← replacement?_eq, htext]
    rfl

theorem mention?_of_not_isName (h : isName o.1 = false) : mention? f old new o = none := by
  unfold mention?
  rw [h]
  rfl

/-- The patches of the mentions at and below nodes, in the order of the tree. -/
def mentionsIn (f : SourceFile) (old new : String) (above l : List Tree) : List Patch :=
  (occurrencesIn above l).filterMap (mention? f old new)

@[simp] theorem mentionsIn_nil : mentionsIn f old new above [] = [] := rfl

theorem mentionsIn_cons : mentionsIn f old new above (t :: l) =
    (mention? f old new (t, above)).toList ++
      (mentionsIn f old new (t :: above) t.children ++ mentionsIn f old new above l) := by
  unfold mentionsIn
  rw [occurrencesIn, occurrences_eq, List.cons_append, List.filterMap_cons, List.filterMap_append]
  cases mention? f old new (t, above) <;> rfl

theorem mentionsIn_append :
    mentionsIn f old new above (l ++ l') = mentionsIn f old new above l ++ mentionsIn f old new above l' := by
  induction l with
  | nil => rfl
  | cons t rest ih => rw [List.cons_append, mentionsIn_cons, mentionsIn_cons, ih]; simp

/-- A node that is no name is not replaced itself. -/
theorem mentionsIn_node (h : isName t = false) :
    mentionsIn f old new above [t] = mentionsIn f old new (t :: above) t.children := by
  rw [mentionsIn_cons, mention?_of_not_isName h]
  simp

/-- Nothing is replaced in comments. -/
theorem mentionsIn_parts (h : PlainComments l) :
    mentionsIn f old new above (l.filter fun c => !c.is .comment) = mentionsIn f old new above l := by
  induction l with
  | nil => rfl
  | cons t rest ih =>
    obtain ⟨ht, hrest⟩ := List.forall_mem_cons.mp h
    cases hcomment : t.is .comment with
    | false => rw [List.filter_cons_of_pos (by simp [hcomment]), mentionsIn_cons, mentionsIn_cons, ih hrest]
    | true =>
      have hname : isName t = false := by
        simp [isName, Tree.is, of_decide_eq_true hcomment]
      rw [List.filter_cons_of_neg (by simp [hcomment]), ih hrest, mentionsIn_cons, mention?_of_not_isName hname,
        (ht hcomment).2]
      rfl

theorem exists_of_mem_mentionsIn (h : p ∈ mentionsIn f old new above l) : ∃ o ∈ occurrencesIn above l,
    isName o.1 = true ∧ o.1.text f.text = Bytes.ofString old ∧ p.start = o.1.start ∧ p.stop = o.1.stop := by
  obtain ⟨o, ho, hp⟩ := List.mem_filterMap.mp h
  obtain ⟨hname, htext, hstart, hstop, -⟩ := mention?_eq_some hp
  exact ⟨o, ho, hname, htext, hstart, hstop⟩

/-- What has a text covers something. -/
theorem start_lt_stop (hold : old ≠ "") (htext : t.text f.text = Bytes.ofString old) : t.start < t.stop := by
  have hpos : 0 < (Bytes.ofString old).length := by
    refine List.length_pos_iff.mpr fun hnil => hold (Bytes.ofString_injective ?_)
    rw [hnil]
    rfl
  rw [← htext, Tree.text, Bytes.slice, List.length_drop, List.length_take] at hpos
  omega

/-- A mention covers the name. -/
theorem covers_of_mem_mentionsIn (hold : old ≠ "") (h : p ∈ mentionsIn f old new above l) : p.start < p.stop := by
  obtain ⟨o, -, -, htext, hstart, hstop⟩ := exists_of_mem_mentionsIn h
  rw [hstart, hstop]
  exact start_lt_stop hold htext

/-- The mentions at and below nodes lie in order, where the nodes do. -/
theorem mentionsIn_inOrder (h : PlacedIn f.text lo hi l) (hbare : ∀ t ∈ l, t.NamesBare) :
    Patch.InOrder lo hi (mentionsIn f old new above l) := by
  refine Patch.inOrder_of_pairwise ?_ h.le fun p hp => ?_
  · refine (namesIn_pairwise h hbare).filterMap _ fun o o' hoo' p hp q hq => ?_
    obtain ⟨hname, -, -, hstop, -⟩ := mention?_eq_some hp
    obtain ⟨hname', -, hstart, -, -⟩ := mention?_eq_some hq
    rw [hstop, hstart]
    exact hoo' hname hname'
  · obtain ⟨o, ho, -, -, hstart, hstop⟩ := exists_of_mem_mentionsIn hp
    obtain ⟨c, hc, hlo, hplaced, hhi⟩ := h.exists_of_occurrence ho
    obtain ⟨hlo', -, hhi'⟩ := h.bounds hc
    rw [hstart, hstop]
    exact ⟨Nat.le_trans hlo' hlo, hplaced.start_le, Nat.le_trans hhi hhi'⟩

/-! ### The mentions of a file -/

/-- The patches of all mentions of a file. -/
def mentions (f : SourceFile) (old new : String) : List Patch :=
  mentionsIn f old new [f.tree] f.tree.children

/-- The mentions of a file are found in its tree. -/
theorem mentions_eq_filterMap (f : SourceFile) (old new : String) :
    mentions f old new = (f.tree.occurrences []).filterMap (mention? f old new) := by
  have hroot : isName f.tree = false := by
    have hkind : f.tree.kind = .program := parse_kind f.dialect f.text
    simp [isName, Tree.is, hkind]
  rw [occurrences_eq, List.filterMap_cons, mention?_of_not_isName hroot]
  rfl

theorem map_patch_referenceEdits (f : SourceFile) (old new : String) :
    (referenceEdits f old new).map Edit.patch = mentions f old new := by
  have hpatch : ∀ o : Tree × List Tree, (if isName o.1 && o.1.text f.text = Bytes.ofString old &&
      !(f.imports.map (·.statement)).any (·.encloses o.1) then
        (replacement? old new o.1 o.2).map (SourceFile.replaceEdit o.1) else none).map Edit.patch =
      mention? f old new o := by
    intro o
    unfold mention?
    split
    · rw [Option.map_map]
      rfl
    · rfl
  rw [mentions_eq_filterMap]
  unfold referenceEdits
  dsimp only
  rw [List.map_filterMap, funext hpatch]

/-- The edits are those of the mentions in the tree. -/
theorem exists_edit_iff (f : SourceFile) (old new : String) (p : Patch) :
    (∃ e ∈ referenceEdits f old new, e.patch = p) ↔ ∃ o ∈ f.tree.occurrences [], mention? f old new o = some p := by
  rw [← List.mem_map, map_patch_referenceEdits, mentions_eq_filterMap, List.mem_filterMap]

theorem nodes_namesBare (f : SourceFile) : ∀ t ∈ f.tree.children, t.NamesBare :=
  (namesBare_iff.mp (parse_namesBare f.dialect f.text)).2

theorem mentions_inOrder (f : SourceFile) (old new : String) :
    Patch.InOrder 0 f.text.length (mentions f old new) :=
  mentionsIn_inOrder f.nodes_placed (nodes_namesBare f)

/-- The edits of mentions can be applied, and make their patches in the order of the tree. -/
theorem edited_mentions (new : String) (hold : old ≠ "") : ∃ g, f.edited (referenceEdits f old new) = .ok g ∧
    g.text = Patch.patched f.text 0 f.text.length (mentions f old new) := by
  have hmem : ∀ p, (∃ e ∈ referenceEdits f old new, p = e.patch) ↔ p ∈ mentions f old new := by
    intro p
    rw [← map_patch_referenceEdits, List.mem_map]
    exact exists_congr fun e => and_congr_right fun _ => eq_comm
  have hbounds : ∀ e ∈ referenceEdits f old new, e.start ≤ e.stop ∧ e.stop ≤ f.text.length := fun e he =>
    ((mentions_inOrder f old new).bounds ((hmem e.patch).mp ⟨e, he, rfl⟩)).2
  have hfits : f.Fits (referenceEdits f old new) := ⟨hbounds, mentions_pairwise f old new⟩
  obtain ⟨g, hg⟩ := hfits.accepts.1
  refine ⟨g, hg, ?_⟩
  unfold SourceFile.edited at hg
  split at hg
  case isTrue hempty =>
    cases hg
    rw [← map_patch_referenceEdits, List.isEmpty_iff.mp hempty]
    simp [Bytes.slice]
  case isFalse =>
    split at hg
    case h_2 => cases hg
    case h_1 text happlied =>
      cases hg
      obtain ⟨patches, horder, htext, hpatches⟩ := Edit.applyAll_eq_patched happlied fun e he => (hbounds e he).1
      have hsame : ∀ p, p ∈ patches ↔ p ∈ mentions f old new := fun p => (hpatches p).trans (hmem p)
      have heq : patches = mentions f old new := horder.eq_of_mem_iff (mentions_inOrder f old new)
        (fun p hp => covers_of_mem_mentionsIn hold ((hsame p).mp hp)) hsame
      exact htext.trans (by rw [heq])

/-! ### The text after the edits -/

/-- The text between two offsets after the edits of mentions that lie there. -/
def renamedText (f : SourceFile) (old new : String) (lo hi : Nat) : Bytes :=
  Patch.textBetween f.text ((referenceEdits f old new).map Edit.patch) lo hi

variable {statement : Tree} {before behind : List Tree}

/-- The text after the edits falls apart around a part of a statement. -/
theorem exists_around (new : String) (hold : old ≠ "") (hstatement : statement ∈ f.tree.children)
    (hname : isName statement = false) (hparts : statement.children = before ++ t :: behind) :
    Patch.patched f.text 0 f.text.length (mentions f old new) =
        renamedText f old new 0 t.start ++
          (renamedText f old new t.start t.stop ++ renamedText f old new t.stop f.text.length) ∧
      renamedText f old new t.start t.stop =
        Patch.patched f.text t.start t.stop (mentionsIn f old new [statement, f.tree] [t]) ∧
      ∃ w, renamedText f old new t.stop f.text.length =
        Patch.patched f.text t.stop statement.stop (mentionsIn f old new [statement, f.tree] behind) ++ w := by
  obtain ⟨front, back, hnodes⟩ := List.append_of_mem hstatement
  have hbare := nodes_namesBare f
  have hplaced := f.nodes_placed
  rw [hnodes] at hplaced hbare
  obtain ⟨mid, hfront, hrest⟩ := hplaced.exists_split
  obtain ⟨hlo, hstatementPlaced, hback⟩ := hrest.uncons
  obtain ⟨hbareFront, hbareRest⟩ := List.forall_mem_append.mp hbare
  obtain ⟨hbareStatement, hbareBack⟩ := List.forall_mem_cons.mp hbareRest
  have hchildren := hstatementPlaced.children
  have hbareChildren := (namesBare_iff.mp hbareStatement).2
  rw [hparts] at hchildren hbareChildren
  obtain ⟨mid', hbefore, htail⟩ := hchildren.exists_split
  obtain ⟨hlo', ht, hbehind⟩ := htail.uncons
  obtain ⟨hbareBefore, hbareTail⟩ := List.forall_mem_append.mp hbareChildren
  obtain ⟨hbareT, hbareBehind⟩ := List.forall_mem_cons.mp hbareTail
  -- the mentions before the part, within it, behind it in the statement, and behind that
  have h₁ : Patch.InOrder 0 t.start (mentionsIn f old new [f.tree] front ++
      mentionsIn f old new [statement, f.tree] before) :=
    (mentionsIn_inOrder (hfront.mono hlo) hbareFront).append (mentionsIn_inOrder (hbefore.mono hlo') hbareBefore)
  have h₂ : Patch.InOrder t.start t.stop (mentionsIn f old new [statement, f.tree] [t]) :=
    mentionsIn_inOrder (.singleton (Nat.le_refl _) ht (Nat.le_refl _)) (List.forall_mem_singleton.mpr hbareT)
  have h₃ : Patch.InOrder t.stop statement.stop (mentionsIn f old new [statement, f.tree] behind) :=
    mentionsIn_inOrder hbehind hbareBehind
  have h₄ : Patch.InOrder statement.stop f.text.length (mentionsIn f old new [f.tree] back) :=
    mentionsIn_inOrder hback hbareBack
  have hall : mentions f old new = (mentionsIn f old new [f.tree] front ++
      mentionsIn f old new [statement, f.tree] before) ++ (mentionsIn f old new [statement, f.tree] [t] ++
      (mentionsIn f old new [statement, f.tree] behind ++ mentionsIn f old new [f.tree] back)) := by
    have hsplit : f.tree.children = front ++ ([statement] ++ back) := hnodes
    have hsplit' : statement.children = before ++ ([t] ++ behind) := hparts
    rw [mentions, hsplit, mentionsIn_append, mentionsIn_append, mentionsIn_node hname, hsplit', mentionsIn_append,
      mentionsIn_append]
    simp
  have hcovers : ∀ p ∈ mentions f old new, p.start < p.stop := fun p hp => covers_of_mem_mentionsIn hold hp
  have hrest : Patch.InOrder t.stop f.text.length (mentionsIn f old new [statement, f.tree] behind ++
      mentionsIn f old new [f.tree] back) := h₃.append h₄
  rw [hall] at hcovers
  obtain ⟨hpieces, hmiddle, hlast⟩ := Patch.patched_pieces (t := f.text) h₁ h₂ hrest hcovers
  unfold renamedText
  rw [map_patch_referenceEdits, hall]
  exact ⟨hpieces, hmiddle, _, hlast.trans (Patch.patched_append h₃ h₄)⟩

end NamedImport
end Codemod
