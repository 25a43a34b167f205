import Mathlib.Data.List.Perm.Basic
import Codemod.Proofs.Batch

/-!
# Batches with any texts

A batch that is asked for from outside can hold texts with surrogates, which cannot be written as bytes. It is refused
when a text is one of these, and otherwise just when its ranges do not fit, as for a batch in characters. The ranges
of an edit are looked at before its text is written; so where both are at fault, the order decides what is reported.

Main statements:

* `Edit.misfit?_of_refused` says that a batch is refused for its ranges only where these do not fit;
* `Edit.exists_applyTexts_error` says that a text with a surrogate is never applied;
* `SourceFile.applied_characters_iff` says that a batch in characters is applied as what is planned for a file;
* `SourceFile.accepts_of_edited` says that what is planned and can be applied is never refused for its ranges;
* `SourceFile.applied_at_once` says what a batch does to a file.
-/

namespace Codemod

namespace Edit

variable {texts l : List (Edit CodePoints)} {edits : List Edit} {t u : Bytes} {limit n : Nat} {x : Refusal}

/-! ### Texts that cannot be written -/

theorem encode_eq_error {s : CodePoints} (h : encode s = .error x) :
    x = .unencodable ∧ CodePoints.encode? s = none := by
  unfold encode at h
  split at h
  · cases h
  · cases h
    exact ⟨rfl, ‹_›⟩

/-- A batch is refused for the ranges of its edits or for a text. -/
theorem applyOrderedBy_eq_error (h : applyOrderedBy encode .overlapping limit t l = .error x) :
    (∃ start, x = .overlapping start ∧ misfit? limit l = some start) ∨
      x = .unencodable ∧ ∃ e ∈ l, CodePoints.encode? e.text = none := by
  induction l generalizing limit t with
  | nil => cases h
  | cons e rest ih =>
    unfold applyOrderedBy at h
    unfold misfit?
    split at h
    case isTrue hlimit =>
      cases h
      exact .inl ⟨e.start, rfl, if_pos hlimit⟩
    case isFalse hlimit =>
      rw [if_neg hlimit]
      split at h
      case h_1 hencode =>
        cases h
        obtain ⟨rfl, hnone⟩ := encode_eq_error hencode
        exact .inr ⟨rfl, e, List.mem_cons_self .., hnone⟩
      case h_2 =>
        rcases ih h with hmisfit | ⟨hx, f, hf, hnone⟩
        · exact .inl hmisfit
        · exact .inr ⟨hx, f, List.mem_cons_of_mem _ hf, hnone⟩

/-- A batch that is refused for its ranges has an edit that does not fit. -/
theorem misfit?_of_refused (h : applyTexts texts t = .error (.overlapping n)) :
    misfit? t.length (ordered texts) = some n := by
  rcases applyOrderedBy_eq_error h with ⟨start, hstart, hmisfit⟩ | ⟨hx, -⟩
  · cases hstart
    exact hmisfit
  · cases hx

/-- No batch is applied that holds a text with a surrogate. -/
theorem exists_applyTexts_error {e : Edit CodePoints} (he : e ∈ texts) (hnone : CodePoints.encode? e.text = none)
    (t : Bytes) : ∃ x, applyTexts texts t = .error x := by
  have hsome : ∀ (l : List (Edit CodePoints)) (limit : Nat) (t : Bytes), e ∈ l →
      ∃ x, applyOrderedBy encode .overlapping limit t l = .error x := by
    intro l
    induction l with
    | nil => intro _ _ he; cases he
    | cons f rest ih =>
      intro limit t he
      unfold applyOrderedBy
      split
      · exact ⟨_, rfl⟩
      · split
        · exact ⟨_, rfl⟩
        case h_2 hencode =>
          rcases List.mem_cons.mp he with rfl | he
          · rw [encode, hnone] at hencode
            cases hencode
          · exact ih _ _ he
  exact hsome _ _ _ (mem_ordered_iff.mpr he)

/-! ### Batches in characters -/

/-- A batch all texts of which can be written is one in characters. -/
theorem exists_ofCharacters (h : ∀ e ∈ texts, CodePoints.encode? e.text ≠ none) :
    ∃ edits : List Edit, texts = edits.map ofCharacters := by
  induction texts with
  | nil => exact ⟨[], rfl⟩
  | cons e rest ih =>
    obtain ⟨hfirst, hrest⟩ := List.forall_mem_cons.mp h
    obtain ⟨s, hs⟩ := CodePoints.exists_ofString hfirst
    obtain ⟨edits, rfl⟩ := ih hrest
    refine ⟨⟨e.start, e.stop, s⟩ :: edits, ?_⟩
    rw [List.map_cons, ofCharacters, ← hs]

theorem ofCharacters_injective : Function.Injective ofCharacters := by
  rintro ⟨start, stop, s⟩ ⟨start', stop', s'⟩ h
  have htext : CodePoints.ofString s = CodePoints.ofString s' := congrArg Edit.text h
  have hchars : s.toList = s'.toList := by
    have hsame := CodePoints.characters?_eq_some_iff.mpr htext
    rw [CodePoints.characters?_eq_some_iff.mpr (show CodePoints.ofString s = _ from rfl)] at hsame
    exact Option.some.inj hsame
  obtain rfl := String.toList_injective hchars
  cases h
  rfl

theorem insertionsAt_ofCharacters (edits : List Edit) (i : Nat) :
    insertionsAt (edits.map ofCharacters) i = (insertionsAt edits i).map ofCharacters := by
  unfold insertionsAt
  rw [List.filter_map]
  rfl

end Edit

namespace SourceFile

variable {f g : SourceFile} {texts : List (Edit CodePoints)} {edits : List Edit} {x : Edit.Refusal}

/-- A batch in characters is applied as what is planned for a file. -/
theorem applied_characters_iff : f.applied (edits.map .ofCharacters) = .ok g ↔ f.edited edits = .ok g := by
  unfold applied edited
  rw [List.isEmpty_map, Edit.applyTexts_ofCharacters]
  split
  · rw [Except.ok.injEq, Except.ok.injEq]
  · cases Edit.applyAll edits f.text with
    | ok t => simp [Except.mapError]
    | error n => simp [Except.mapError]

theorem applied_eq_error (h : f.applied texts = .error x) : Edit.applyTexts texts f.text = .error x := by
  unfold applied at h
  split at h
  · cases h
  · split at h
    · cases h
    · cases h
      assumption

/-- What is refused is refused for the range of one of the edits or for a text. -/
theorem applied_error_cases (h : f.applied texts = .error x) : (∃ e ∈ texts, x = .overlapping e.start) ∨
    x = .unencodable ∧ ∃ e ∈ texts, CodePoints.encode? e.text = none := by
  rcases Edit.applyOrderedBy_eq_error (applied_eq_error h) with ⟨start, rfl, hmisfit⟩ | ⟨rfl, e, he, hnone⟩
  · obtain ⟨e, he, rfl⟩ := Edit.exists_of_misfit? hmisfit
    exact .inl ⟨e, Edit.mem_ordered_iff.mp he, rfl⟩
  · exact .inr ⟨rfl, e, Edit.mem_ordered_iff.mp he, hnone⟩

/-- A text with a surrogate is never applied. -/
theorem exists_applied_error {e : Edit CodePoints} (he : e ∈ texts) (hnone : CodePoints.encode? e.text = none) :
    ∃ x, f.applied texts = .error x := by
  obtain ⟨x, hx⟩ := Edit.exists_applyTexts_error he hnone f.text
  refine ⟨x, ?_⟩
  unfold applied
  rw [if_neg (by simpa using List.ne_nil_of_mem he), hx]

/-- Whether a batch is accepted: it can be applied, and no batch of the same ranges is refused for these, whatever
texts it puts there. -/
def Accepts (f : SourceFile) (edits : List Edit) : Prop :=
  (∃ g, f.edited edits = .ok g) ∧
    ∀ texts : List (Edit CodePoints), texts.map Edit.range = edits.map Edit.range →
      ∀ start, f.applied texts ≠ .error (.overlapping start)

/-- A batch in characters that can be applied is accepted. -/
theorem accepts_of_edited (h : ∀ e ∈ edits, e.start ≤ e.stop) (hg : f.edited edits = .ok g) : f.Accepts edits := by
  have hfits := (Edit.misfit?_ordered_eq_none_iff h).mpr ((exists_edited_iff h).mp ⟨g, hg⟩)
  refine ⟨⟨g, hg⟩, fun texts hranges start hrefused => ?_⟩
  have hmisfit := Edit.misfit?_of_refused (applied_eq_error hrefused)
  rw [Edit.misfit?_congr (Edit.ordered_ranges_congr (.of_eq hranges)), hfits] at hmisfit
  cases hmisfit

/-- A batch is applied just when its edits end within the text, none overlaps another and all texts can be written. -/
theorem exists_applied_iff (h : ∀ e ∈ texts, e.start ≤ e.stop) : (∃ g, f.applied texts = .ok g) ↔
    (∀ e ∈ texts, e.stop ≤ f.text.length) ∧ texts.Pairwise Edit.Apart ∧
      ∀ e ∈ texts, CodePoints.encode? e.text ≠ none := by
  by_cases hall : ∀ e ∈ texts, CodePoints.encode? e.text ≠ none
  · obtain ⟨edits, rfl⟩ := Edit.exists_ofCharacters hall
    have hedits : ∀ e ∈ edits, e.start ≤ e.stop := fun e he => h _ (List.mem_map_of_mem he)
    have hcharacters : (∃ g, f.applied (edits.map .ofCharacters) = .ok g) ↔ ∃ g, f.edited edits = .ok g :=
      exists_congr fun _ => applied_characters_iff
    rw [hcharacters, exists_edited_iff hedits, and_iff_left hall, List.forall_mem_map, List.pairwise_map]
    exact Iff.rfl
  · rw [iff_false_intro hall, and_false, and_false, iff_false]
    rintro ⟨g, hg⟩
    simp only [not_forall, not_not] at hall
    obtain ⟨e, he, hnone⟩ := hall
    obtain ⟨x, hx⟩ := exists_applied_error (f := f) he hnone
    rw [hg] at hx
    cases hx

/-- A batch is refused exactly when an edit ends behind the text, two edits overlap or a text holds a surrogate, which
no bytes stand for, and then nothing is changed. Otherwise all its edits are made at once, and the order of the batch
bears on that through nothing but insertions at one place. -/
theorem applied_at_once (f : SourceFile) (edits : List (Edit CodePoints)) (h : ∀ e ∈ edits, e.start ≤ e.stop) :
    ((∃ x, f.applied edits = .error x) ↔ (∃ e ∈ edits, f.text.length < e.stop) ∨ ¬ edits.Pairwise Edit.Apart ∨
      ∃ e ∈ edits, CodePoints.encode? e.text = none) ∧
    (∀ x, f.applied edits = .error x →
      ((∃ e ∈ edits, x = .overlapping e.start) ∨ x = .unencodable ∧ ∃ e ∈ edits, CodePoints.encode? e.text = none) ∧
      ∀ w : Workspace, w.apply f edits = (.error x, w)) ∧
    (∀ g, f.applied edits = .ok g → ∃ characters : List Edit, edits = characters.map .ofCharacters ∧
      g = { f with text := Edit.replacedAtOnce f.text characters, dirty := !edits.isEmpty || f.dirty } ∧
      ∀ w : Workspace, w.apply f edits = (.ok g, w.setFile g)) ∧
    ∀ edits', edits.Perm edits' → (∀ i, Edit.insertionsAt edits i = Edit.insertionsAt edits' i) →
      (f.applied edits').toOption = (f.applied edits).toOption := by
  refine ⟨?_, fun x hx => ⟨applied_error_cases hx, fun w => ?_⟩, fun g hg => ?_, fun edits' hperm hinsertions => ?_⟩
  · have hnot : (∃ x, f.applied edits = .error x) ↔ ¬ ∃ g, f.applied edits = .ok g := by
      cases f.applied edits with
      | ok g => simp
      | error x => simp
    rw [hnot, exists_applied_iff h, not_and_or, not_and_or]
    simp only [not_forall, Nat.not_le, exists_prop, not_not]
  · unfold Workspace.apply
    rw [hx]
  · obtain ⟨-, -, hall⟩ := (exists_applied_iff h).mp ⟨g, hg⟩
    obtain ⟨characters, rfl⟩ := Edit.exists_ofCharacters hall
    have hranges : ∀ e ∈ characters, e.start ≤ e.stop := fun e he => h _ (List.mem_map_of_mem he)
    obtain ⟨-, -, hmade, -⟩ := f.edited_at_once characters hranges
    refine ⟨characters, rfl, ?_, fun w => ?_⟩
    · rw [List.isEmpty_map]
      exact (hmade g (applied_characters_iff.mp hg)).1
    · unfold Workspace.apply
      rw [hg]
  · by_cases hall : ∀ e ∈ edits, CodePoints.encode? e.text ≠ none
    · -- In characters the batches are planned ones.
      obtain ⟨es, rfl⟩ := Edit.exists_ofCharacters hall
      obtain ⟨es', rfl⟩ := Edit.exists_ofCharacters fun e he => hall e (hperm.mem_iff.mpr he)
      have hranges : ∀ e ∈ es, e.start ≤ e.stop := fun e he => h _ (List.mem_map_of_mem he)
      have hes : es.Perm es' := (List.map_perm_map_iff Edit.ofCharacters_injective).mp hperm
      obtain ⟨-, -, -, horder⟩ := f.edited_at_once es hranges
      have hsame : f.edited es' = f.edited es := by
        refine horder es' hes fun i => ?_
        have hi := hinsertions i
        rw [Edit.insertionsAt_ofCharacters, Edit.insertionsAt_ofCharacters] at hi
        exact List.map_injective_iff.mpr Edit.ofCharacters_injective hi
      apply Option.ext
      intro g
      have htoOption : ∀ {r : Except Edit.Refusal SourceFile}, g ∈ r.toOption ↔ r = .ok g := by
        intro r
        cases r <;> simp [Except.toOption]
      rw [← Option.mem_def, ← Option.mem_def, htoOption, htoOption, applied_characters_iff, applied_characters_iff,
        hsame]
    · simp only [not_forall, not_not] at hall
      obtain ⟨e, he, hnone⟩ := hall
      obtain ⟨x, hx⟩ := exists_applied_error (f := f) he hnone
      obtain ⟨x', hx'⟩ := exists_applied_error (f := f) (hperm.mem_iff.mp he) hnone
      rw [hx, hx']
      rfl

end SourceFile

/-- A file of four letters. -/
def letters : SourceFile :=
  ⟨.ofString "/p/a.ts", .typescript, Bytes.ofString "abcd", false⟩

/-- A range is replaced between what is inserted before it, the later in the batch first, and behind it; an
insertion within the range is refused, and so is a text with a surrogate. -/
theorem letters_applied :
    (∃ g, letters.applied ([⟨1, 1, "x"⟩, ⟨1, 3, "y"⟩, ⟨1, 1, "z"⟩, ⟨3, 3, "u"⟩].map Edit.ofCharacters) = .ok g ∧
      g.text = Bytes.ofString "azxyud" ∧ g.dirty = true) ∧
    (∃ x, letters.applied ([⟨1, 3, "y"⟩, ⟨2, 2, "x"⟩].map Edit.ofCharacters) = .error x) ∧
    ∃ x, letters.applied [⟨1, 3, CodePoints.ofString "y"⟩, ⟨3, 4, [.surrogate 0]⟩] = .error x := by
  refine ⟨?_, ?_, ?_⟩
  · obtain ⟨-, -, hmade, -⟩ := letters.applied_at_once
      ([⟨1, 1, "x"⟩, ⟨1, 3, "y"⟩, ⟨1, 1, "z"⟩, ⟨3, 3, "u"⟩].map Edit.ofCharacters) (by decide)
    obtain ⟨g, hg⟩ : ∃ g, letters.applied
        ([⟨1, 1, "x"⟩, ⟨1, 3, "y"⟩, ⟨1, 1, "z"⟩, ⟨3, 3, "u"⟩].map Edit.ofCharacters) = .ok g := ⟨_, rfl⟩
    obtain ⟨characters, hsame, hchanged, -⟩ := hmade g hg
    obtain rfl := List.map_injective_iff.mpr Edit.ofCharacters_injective hsame
    refine ⟨g, hg, ?_, ?_⟩
    · rw [hchanged]
      decide +kernel
    · rw [hchanged]
      rfl
  · obtain ⟨hrefused, -⟩ := letters.applied_at_once ([⟨1, 3, "y"⟩, ⟨2, 2, "x"⟩].map Edit.ofCharacters) (by decide)
    exact hrefused.mpr (.inr (.inl (by decide)))
  · obtain ⟨hrefused, -⟩ := letters.applied_at_once [⟨1, 3, CodePoints.ofString "y"⟩, ⟨3, 4, [.surrogate 0]⟩] (by decide)
    exact hrefused.mpr (.inr (.inr ⟨_, List.mem_cons_of_mem _ (List.mem_singleton_self _), rfl⟩))

/-- An edit that ends within the text and overlaps none is refused all the same when its text is a surrogate. -/
theorem letters_refuse_surrogate : ∃ edits : List (Edit CodePoints),
    (∀ e ∈ edits, e.start ≤ e.stop ∧ e.stop ≤ letters.text.length) ∧ edits.Pairwise Edit.Apart ∧
      letters.applied edits = .error .unencodable :=
  ⟨[⟨0, 0, [.surrogate 0]⟩], by decide, by decide, rfl⟩

end Codemod
