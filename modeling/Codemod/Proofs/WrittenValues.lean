import Codemod.Proofs.DocumentReading
import Codemod.Proofs.ShortenedLiterals
import Codemod.Proofs.WrittenNumbers

/-!
# Values are read as they were written

A value is written as one line of visible ASCII characters, which holds no comments and has the tokens of a tree with
just this value. So the line is read as the value again. That takes numbers which are finite, whole numbers with no more
digits than are read, and objects without repeated keys.

Main statements:

* `literal?_printString` says that a written string stands for itself;
* `Value.exists_doc` says that a written value has the tokens of a tree with this value;
* `read_print` and `visible_of_mem_print` say this of whole lines.
-/

namespace Codemod.Json

open Decimal (Binary64)

/-! ### Strings -/

section

variable {c e : Char} {body cs : List Char} {n : Nat}

theorem hexValue?_hexDigit : ∀ n < 16, hexValue? (Text.hexDigit n) = some n := by
  decide

theorem exists_hexDigits (hn : n < 0x10000) :
    ∃ x y z w, unitEscape n = ['\\', 'u', x, y, z, w] ∧ hexFour? x y z w = some n := by
  refine ⟨_, _, _, _, rfl, ?_⟩
  simp only [hexFour?, hexValue?_hexDigit _ (Nat.mod_lt _ (by decide : 0 < 16)), Option.bind_eq_bind, Option.bind_some,
    Option.some.injEq]
  omega

/-- No character is half a pair. -/
theorem not_half (c : Char) : isHighHalf c.toNat = false ∧ isLowHalf c.toNat = false := by
  have hvalid : c.toNat < 0xD800 ∨ 0xDFFF < c.toNat ∧ c.toNat < 0x110000 := c.valid
  simp only [isHighHalf, isLowHalf, Bool.and_eq_false_iff, decide_eq_false_iff_not]
  omega

theorem escapeLetter?_shortEscape? (h : shortEscape? c = some e) : escapeLetter? e = some c := by
  unfold shortEscape? at h
  split at h <;> cases h <;> rfl

/-- A written character spells itself. -/
theorem spells_printChar (c : Char) (h : Spells body cs) : Spells (printChar c ++ body) (c :: cs) := by
  unfold printChar
  split
  case h_1 e he => exact .letter (escapeLetter?_shortEscape? he) h
  case h_2 hnone =>
    split_ifs with hvisible hsmall
    · have hcode : ¬ c.toNat < 32 := by
        simp only [Text.isVisible, Bool.and_eq_true, decide_eq_true_eq] at hvisible
        omega
      refine .plain ?_ ?_ hcode h <;>
      · rintro rfl
        cases hnone
    · obtain ⟨x, y, z, w, hescape, hn⟩ := exists_hexDigits hsmall
      obtain ⟨hhigh, hlow⟩ := not_half c
      have halone : ¬ PairsWith c.toNat body := fun hpair => Bool.false_ne_true (hhigh.symm.trans hpair.1)
      have hspells := Spells.unit hn halone h
      have hchar : unitChar c.toNat = c := by simp [unitChar, hhigh, hlow]
      rw [hchar] at hspells
      rw [hescape]
      exact hspells
    · -- The two halves of the pair hold the digits of the code behind the first plane.
      have hvalid : c.toNat < 0xD800 ∨ 0xDFFF < c.toNat ∧ c.toNat < 0x110000 := c.valid
      obtain ⟨k, hk⟩ : ∃ k, c.toNat = 0x10000 + k := ⟨c.toNat - 0x10000, by omega⟩
      have hcode : c.toNat - 0x10000 = k := by omega
      obtain ⟨x, y, z, w, hfirst, hn⟩ := exists_hexDigits (n := 0xD800 + k / 0x400) (by omega)
      obtain ⟨a, b, d, e, hsecond, hm⟩ := exists_hexDigits (n := 0xDC00 + k % 0x400) (by omega)
      have hspells := Spells.pair hn (by simp [isHighHalf]; omega) hm (by simp [isLowHalf]; omega) h
      have hchar : pairChar (0xD800 + k / 0x400) (0xDC00 + k % 0x400) = c := by
        have hsum : 0x10000 + (0xD800 + k / 0x400 - 0xD800) * 0x400 + (0xDC00 + k % 0x400 - 0xDC00) = c.toNat := by
          omega
        rw [pairChar, hsum, Char.ofNat_toNat]
      rw [hchar] at hspells
      dsimp only
      rw [hcode, hfirst, hsecond]
      exact hspells

/-- A written string stands for itself. -/
theorem literal?_printString (s : String) : literal? (s.toList.flatMap printChar) = some s := by
  have hspells : ∀ cs : List Char, Spells (cs.flatMap printChar) cs := by
    intro cs
    induction cs with
    | nil => exact .nil
    | cons c cs ih => exact spells_printChar c ih
  exact literal?_eq_some_iff.mpr ⟨s.toList, hspells _, String.ofList_toList.symm⟩

end

/-! ### Lines with tokens -/

/-- Whether a text consists of visible characters and has the given tokens, with no comments among them. -/
structure IsLine (cs : List Char) (ts : List Token) : Prop where
  visible : ∀ c ∈ cs, Text.isVisible c = true
  tokens : ∃ ps, written ps = cs ∧ (∀ p ∈ ps, p.isComment = false) ∧ Json.tokens ps = ts

section

variable {cs ds : List Char} {ts us : List Token} {c o k : Char} {v : Value}

theorem isVisible_of_isScalarChar (h : isScalarChar c = true) : Text.isVisible c = true := by
  simp only [isScalarChar, isDigit, Bool.or_eq_true, Bool.and_eq_true, decide_eq_true_eq, beq_iff_eq, Char.le_def,
    UInt32.le_iff_toNat_le] at h
  rw [Text.isVisible, Bool.and_eq_true, decide_eq_true_eq, decide_eq_true_eq]
  show 32 ≤ c.val.toNat ∧ c.val.toNat < 127
  rcases h with ((((h | h) | h) | rfl) | rfl) | rfl
  · have hlow : ('0' : Char).val.toNat = 48 := rfl
    have hhigh : ('9' : Char).val.toNat = 57 := rfl
    omega
  · have hlow : ('a' : Char).val.toNat = 97 := rfl
    have hhigh : ('z' : Char).val.toNat = 122 := rfl
    omega
  · have hlow : ('A' : Char).val.toNat = 65 := rfl
    have hhigh : ('Z' : Char).val.toNat = 90 := rfl
    omega
  · decide
  · decide
  · decide

theorem isVisible_of_isMark (h : isMark c = true) : Text.isVisible c = true := by
  simp only [isMark, Bool.or_eq_true, beq_iff_eq] at h
  rcases h with ((((rfl | rfl) | rfl) | rfl) | rfl) | rfl <;> decide

theorem IsLine.nil : IsLine [] [] :=
  ⟨by simp, [], rfl, by simp, rfl⟩

/-- A text that is a value on its own is a word. -/
theorem IsLine.word (h : scalar? cs = some v) : IsLine cs [.word cs] := by
  have hchars := isScalarChar_of_scalar? h
  have hne : cs ≠ [] := by
    rintro rfl
    cases h
  refine ⟨fun c hc => isVisible_of_isScalarChar (hchars c hc), cs.map .char, Token.text_word cs, ?_, ?_⟩
  · simp [Piece.isComment]
  · exact tokens_word hne fun c hc => (isWordChar_of_isScalarChar (hchars c hc)).1

theorem IsLine.literal (s : String) : IsLine (printString s) [.literal (s.toList.flatMap printChar)] := by
  refine ⟨fun c hc => visible_of_mem_printString hc, [.literal (s.toList.flatMap printChar)], ?_, ?_, rfl⟩
  · simp [printString, Piece.text]
  · simp [Piece.isComment]

/-- Brackets around a line. -/
theorem IsLine.enclosed (h : IsLine cs ts) (ho : isMark o = true) (hk : isMark k = true) :
    IsLine (o :: cs ++ [k]) (.mark o :: (ts ++ [.mark k])) := by
  obtain ⟨hvisible, ps, rfl, hplain, hps⟩ := h
  refine ⟨?_, .char o :: (ps ++ [.char k]), by simp [Piece.text], ?_, ?_⟩
  · simp only [List.cons_append, List.forall_mem_cons, List.forall_mem_append]
    exact ⟨isVisible_of_isMark ho, hvisible, isVisible_of_isMark hk, by simp⟩
  · simp only [List.forall_mem_cons, List.forall_mem_append]
    exact ⟨rfl, hplain, rfl, by simp⟩
  · have hends : startsInWord [.char k] = false := by simp [startsInWord, Piece.inWord, isWordChar, hk]
    rw [tokens_mark ho, tokens_append hends, hps, tokens_mark hk]
    rfl

/-- A mark and a blank between two lines. -/
theorem IsLine.separated (h : IsLine cs ts) (hmore : IsLine ds us) (hc : isMark c = true) :
    IsLine (cs ++ c :: ' ' :: ds) (ts ++ .mark c :: us) := by
  obtain ⟨hvisible, ps, rfl, hplain, hps⟩ := h
  obtain ⟨hvisible', qs, rfl, hplain', hqs⟩ := hmore
  refine ⟨?_, ps ++ .char c :: .char ' ' :: qs, by simp [Piece.text], ?_, ?_⟩
  · simp only [List.forall_mem_cons, List.forall_mem_append]
    exact ⟨hvisible, isVisible_of_isMark hc, by decide, hvisible'⟩
  · simp only [List.forall_mem_cons, List.forall_mem_append]
    exact ⟨hplain, rfl, rfl, hplain'⟩
  · have hends : startsInWord (.char c :: .char ' ' :: qs) = false := by
      simp [startsInWord, Piece.inWord, isWordChar, hc]
    rw [tokens_append hends, hps, tokens_mark hc, tokens_gap (p := .char ' ') rfl, hqs]

end

/-! ### Values -/

mutual

/-- Whether a value can be written so that all of it can be read again: its numbers are finite, its whole numbers have
no more digits than are read, and its objects do not repeat keys. -/
def Value.Serialisable : Value → Prop
  | .null | .bool _ | .text _ => True
  | .int i => (Decimal.digits i.natAbs).length ≤ Text.digitLimit
  | .real x => x.IsFinite
  | .list vs => ItemsSerialisable vs
  | .object ms => (Keyed.keys ms).Nodup ∧ MembersSerialisable ms

/-- Whether all items of a list can be written. -/
def ItemsSerialisable : List Value → Prop
  | [] => True
  | v :: vs => v.Serialisable ∧ ItemsSerialisable vs

/-- Whether all members of an object can be written. -/
def MembersSerialisable : List (String × Value) → Prop
  | [] => True
  | m :: ms => m.2.Serialisable ∧ MembersSerialisable ms

end

theorem membersSerialisable_iff {ms : List (String × Value)} :
    MembersSerialisable ms ↔ ∀ m ∈ ms, m.2.Serialisable := by
  induction ms with
  | nil => simp [MembersSerialisable]
  | cons m ms ih => rw [MembersSerialisable, ih, List.forall_mem_cons]

mutual

/-- A written value has the tokens of a tree with this value. -/
theorem Value.exists_doc : ∀ v : Value, v.Serialisable → ∃ d : Doc, IsLine (printChars v) d.tokens ∧ d.value? = some v
  | .null, _ => ⟨.word "null".toList, .word (v := .null) rfl, rfl⟩
  | .bool true, _ => ⟨.word "true".toList, .word (v := .bool true) rfl, rfl⟩
  | .bool false, _ => ⟨.word "false".toList, .word (v := .bool false) rfl, rfl⟩
  | .int i, h => ⟨.word (toString i).toList, .word (scalar?_int h), scalar?_int h⟩
  | .real (.finite s m q), h => ⟨.word _, .word (scalar?_real h _ _), scalar?_real h _ _⟩
  | .text s, _ => ⟨.literal _, .literal s, by simp [Doc.value?, literal?_printString]⟩
  | .list vs, h => by
    obtain ⟨ds, hline, hvs⟩ := exists_docs vs h
    exact ⟨.list ds, hline.enclosed rfl rfl, by simp [Doc.value?, hvs]⟩
  | .object ms, h => by
    obtain ⟨es, hline, hms⟩ := exists_entries ms h.2
    exact ⟨.object es, hline.enclosed rfl rfl, by simp [Doc.value?, hms, Members.ofList_eq_self h.1]⟩

theorem exists_docs : ∀ vs : List Value, ItemsSerialisable vs →
    ∃ ds : Docs, IsLine (commaSeparated (printItems vs)) ds.tokens ∧ ds.values? = some vs
  | [], _ => ⟨.nil, .nil, rfl⟩
  | [v], h => by
    obtain ⟨d, hline, hv⟩ := v.exists_doc h.1
    exact ⟨.cons d .nil, hline, by simp [Docs.values?, hv]⟩
  | v :: w :: ws, h => by
    obtain ⟨d, hline, hv⟩ := v.exists_doc h.1
    obtain ⟨ds, hmore, hws⟩ := exists_docs (w :: ws) h.2
    cases ds with
    | nil => cases hws
    | cons e es => exact ⟨.cons d (.cons e es), hline.separated hmore rfl, Docs.values?_cons.mpr ⟨v, _, hv, hws, rfl⟩⟩

theorem exists_entries : ∀ ms : List (String × Value), MembersSerialisable ms →
    ∃ es : Entries, IsLine (commaSeparated (printMembers ms)) es.tokens ∧ es.values? = some ms
  | [], _ => ⟨.nil, .nil, rfl⟩
  | [m], h => by
    obtain ⟨d, hline, hv⟩ := m.2.exists_doc h.1
    refine ⟨.cons _ d .nil, (IsLine.literal m.1).separated hline rfl, ?_⟩
    simp [Entries.values?, hv, literal?_printString]
  | m :: m' :: ms, h => by
    obtain ⟨d, hline, hv⟩ := m.2.exists_doc h.1
    obtain ⟨es, hmore, hms⟩ := exists_entries (m' :: ms) h.2
    cases es with
    | nil => cases hms
    | cons key e es =>
      have hmember := ((IsLine.literal m.1).separated hline (c := ':') rfl).separated hmore (c := ',') rfl
      refine ⟨.cons (m.1.toList.flatMap printChar) d (.cons key e es), ?_, ?_⟩
      · simpa [Entries.tokens, printMembers, commaSeparated] using hmember
      · exact Entries.values?_cons.mpr ⟨m.1, m.2, _, literal?_printString m.1, hv, hms, rfl⟩

end

/-- A value is read as it was written. -/
theorem read_print {v : Value} (h : v.Serialisable) : read (print v) = .ok v := by
  obtain ⟨d, ⟨-, ps, hps, hplain, htokens⟩, hv⟩ := v.exists_doc h
  rw [read, print, String.toList_ofList, ← hps]
  exact readChars_written hplain htokens hv

/-- A written value is one line of visible characters. -/
theorem visible_of_mem_print {v : Value} (h : v.Serialisable) : ∀ c ∈ (print v).toList, Text.isVisible c = true := by
  obtain ⟨d, hline, -⟩ := v.exists_doc h
  rw [print, String.toList_ofList]
  exact hline.visible

end Codemod.Json
