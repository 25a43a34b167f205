import Codemod.Proofs.Origins
import Codemod.Proofs.StringLiterals
import Codemod.Proofs.Utf8Bytes

/-!
# Texts between quotes

Some kinds of nodes are made of single lexemes. The nodes of quoted texts are: each begins and ends with the same
quotation mark, and so does the source of every reference to another module.

Main statements:

* `Pattern.run_lexed` says that the nodes of such a kind are read as lexemes of the classes that a grammar has for it;
* `parse_quoted` says so of the texts between quotes.
-/

namespace Codemod

open Syntax Syntax.Tree

namespace Syntax

/-- Whether a node, if it is of a kind, is what a lexeme of one of some classes takes where the node begins. -/
def LexemeOf (source : Bytes) (k : Kind) (ls : List Lexeme) (t : Tree) : Prop :=
  t.kind = k → ∃ l ∈ ls, ∃ n, l.length? (source.drop t.start) = some n ∧ t.stop = t.start + n

section

variable {source : Bytes} {k : Kind} {ls : List Lexeme} {t : Tree}

theorem LexemeOf.of_ne (h : t.kind ≠ k) : LexemeOf source k ls t :=
  fun heq => absurd heq h

theorem everywhere_lexemeOf_withRole (h : t.Everywhere (LexemeOf source k ls)) (r : Role) :
    (t.withRole r).Everywhere (LexemeOf source k ls) := by
  obtain ⟨ht, hbelow⟩ := everywhere_iff.mp h
  refine everywhere_iff.mpr ⟨?_, fun c hc => hbelow c ?_⟩
  · cases t
    exact ht
  · rwa [withRole_children] at hc

namespace Reading

/-- Whether all that was built of a kind was read as such lexemes. -/
def Lexed (source : Bytes) (k : Kind) (ls : List Lexeme) (s : Reading) : Prop :=
  ∀ t ∈ s.found, t.Everywhere (LexemeOf source k ls)

variable {s done : Reading} {k' : Kind} {l : Lexeme}

theorem lexed_inner (s : Reading) : s.inner.Lexed source k ls :=
  fun _ ht => absurd ht List.not_mem_nil

theorem Lexed.after (h : s.Lexed source k ls) (hk : k ≠ .comment) (t : Trivia) :
    (s.after t).Lexed source k ls := by
  intro u hu
  rcases List.mem_append.mp hu with hu | hu
  · obtain ⟨span, -, rfl⟩ := List.mem_map.mp hu
    exact everywhere_leaf (.of_ne hk.symm)
  · exact h u hu

theorem Lexed.take (h : s.Lexed source k ls) (hs : Reached source s.offset s.rest)
    (hl : k' = k → l ∈ ls) (hdone : s.take l k' = some done) : done.Lexed source k ls := by
  unfold Reading.take at hdone
  split at hdone
  · cases hdone
  · rename_i n hn
    cases hdone
    refine List.forall_mem_cons.mpr ⟨everywhere_leaf fun hkind => ⟨l, hl hkind, n, ?_, rfl⟩, h⟩
    change l.length? (source.drop s.offset) = some n
    rw [← hs.rest, hn]

theorem Lexed.close (h : s.Lexed source k ls) (hdone : done.Lexed source k ls) (hk : k' ≠ k) :
    (s.close k' done).Lexed source k ls :=
  List.forall_mem_cons.mpr
    ⟨everywhere_iff.mpr ⟨.of_ne hk, fun c hc => hdone c (List.mem_reverse.mp hc)⟩, h⟩

theorem Lexed.closeGroup (h : s.Lexed source k ls) (hdone : done.Lexed source k ls) (hk : k' ≠ k) :
    (s.closeGroup k' done).Lexed source k ls := by
  unfold Reading.closeGroup
  split
  · exact List.forall_mem_append.mpr ⟨hdone, h⟩
  · exact h.close hdone hk

theorem Lexed.closePart (h : s.Lexed source k ls) (hdone : done.Lexed source k ls) (r : Role) :
    (s.closePart r done).Lexed source k ls := by
  refine List.forall_mem_append.mpr ⟨fun t ht => ?_, h⟩
  obtain ⟨u, hu, rfl⟩ := List.mem_map.mp ht
  split
  · exact hdone u hu
  · exact everywhere_lexemeOf_withRole (hdone u hu) r

end Reading

namespace Pattern

variable {ρ : Type} {rules : ρ → Pattern ρ} {p : Pattern ρ} {fuel : Nat} {around : Surroundings}
  {s s' : Reading} {lo : Nat}

/-- Whether a pattern makes nodes of a kind only of lexemes of some classes. -/
def lexes (k : Kind) (ls : List Lexeme) : Pattern ρ → Bool
  | both p q | either p q => p.lexes k ls && q.lexes k ls
  | many p | part _ p | inside _ p => p.lexes k ls
  | node k' p | group k' p => k' != k && p.lexes k ls
  | token l k' | glued l k' => k' != k || ls.contains l
  | nothing | never | rule _ | ahead _ | absent _ | ending _ | amid _ | blanks | finish => true

/-- What is built of a kind was read as a lexeme of one of the classes that the patterns have for it. -/
theorem run_lexed (hwell : ∀ r, (rules r).wellBuilt = true) (hrules : ∀ r, (rules r).lexes k ls = true)
    (hk : k ≠ .comment) (hwellp : p.wellBuilt = true) (hp : p.lexes k ls = true) (hs : s.Sound source lo)
    (hlexed : s.Lexed source k ls) (h : run rules fuel around p s = some s') : s'.Lexed source k ls := by
  induction fuel generalizing around p s s' lo with
  | zero => cases h
  | succ fuel ih =>
    have hskip := hlexed.after hk (trivia s.offset s.rest)
    have hclass : ∀ {l : Lexeme} {k' : Kind}, (k' != k || ls.contains l) = true → k' = k → l ∈ ls := by
      rintro l _ hl rfl
      simpa using hl
    cases p with
    | nothing => cases h; exact hlexed
    | never => cases h
    | token l k' => exact Reading.Lexed.take hskip hs.skip.reached (hclass hp) h
    | glued l k' => exact hlexed.take hs.reached (hclass hp) h
    | both p q =>
      obtain ⟨hwp, hwq⟩ := Bool.and_eq_true_iff.mp hwellp
      obtain ⟨hp, hq⟩ := Bool.and_eq_true_iff.mp hp
      rw [run_both] at h
      obtain ⟨middle, hrun, hrun'⟩ := Option.bind_eq_some_iff.mp h
      exact ih hwq hq (run_sound hwell hwp hs hrun).1 (ih hwp hp hs hlexed hrun) hrun'
    | either p q =>
      obtain ⟨hwp, hwq⟩ := Bool.and_eq_true_iff.mp hwellp
      obtain ⟨hp, hq⟩ := Bool.and_eq_true_iff.mp hp
      rw [run_either] at h
      cases hrun : run rules fuel around p s with
      | none => rw [hrun] at h; exact ih hwq hq hs hlexed h
      | some done => rw [hrun] at h; cases h; exact ih hwp hp hs hlexed hrun
    | many p =>
      rw [run_many] at h
      cases hrun : run rules fuel around p s with
      | none => rw [hrun] at h; cases h; exact hlexed
      | some middle =>
        have hfirst := ih (p := p) hwellp hp hs hlexed hrun
        rw [hrun] at h
        dsimp only at h
        split at h
        · cases h; exact hfirst
        · exact ih (p := many p) hwellp hp (run_sound (p := p) hwell hwellp hs hrun).1 hfirst h
    | node k' p =>
      have hwp : p.wellBuilt = true := (Bool.and_eq_true_iff.mp hwellp).2
      obtain ⟨hkind, hp⟩ := Bool.and_eq_true_iff.mp hp
      obtain ⟨done, hdone, rfl⟩ := Option.map_eq_some_iff.mp h
      exact Reading.Lexed.close hskip (ih hwp hp hs.skip.inner (Reading.lexed_inner _) hdone)
        (by simpa using hkind)
    | group k' p =>
      have hwp : p.wellBuilt = true := (Bool.and_eq_true_iff.mp hwellp).2
      obtain ⟨hkind, hp⟩ := Bool.and_eq_true_iff.mp hp
      obtain ⟨done, hdone, rfl⟩ := Option.map_eq_some_iff.mp h
      exact Reading.Lexed.closeGroup hskip (ih hwp hp hs.skip.inner (Reading.lexed_inner _) hdone)
        (by simpa using hkind)
    | part r p =>
      obtain ⟨done, hdone, rfl⟩ := Option.map_eq_some_iff.mp h
      exact Reading.Lexed.closePart hskip
        (ih (p := p) hwellp hp hs.skip.inner (Reading.lexed_inner _) hdone) r
    | rule r => exact ih (hwell r) (hrules r) hs hlexed h
    | ahead p =>
      obtain ⟨_, -, rfl⟩ := Option.map_eq_some_iff.mp h
      exact hlexed
    | absent p =>
      rw [run_absent] at h
      split at h
      · cases h; exact hlexed
      · cases h
    | ending e =>
      obtain ⟨t, -, rfl⟩ := Option.map_eq_some_iff.mp h
      exact hlexed.after hk t
    | inside around' p => exact ih (p := p) hwellp hp hs hlexed h
    | amid around' =>
      change (if around = around' then some s else none) = some s' at h
      split at h
      · cases h; exact hlexed
      · cases h
    | blanks => cases h; exact hskip
    | finish =>
      change (if s.rest.isEmpty then some s else none) = some s' at h
      split at h
      · cases h; exact hlexed
      · cases h

end Pattern

end

/-- The classes of lexemes that are texts between quotes. -/
def Lexeme.ofQuoted : List Lexeme :=
  [.quoted, .markupQuoted]

theorem Grammar.rules_quote (d : Dialect) (r : Rule) : (Grammar.rules d r).lexes .string Lexeme.ofQuoted = true := by
  cases d <;> cases r <;> decide +kernel

theorem parse_quoted (d : Dialect) (source : Bytes) :
    (parse d source).Everywhere (LexemeOf source .string Lexeme.ofQuoted) := by
  have hread : (readProgram d source).Lexed source .string Lexeme.ofQuoted := by
    have hstart : Reading.Lexed source .string Lexeme.ofQuoted ⟨0, source, []⟩ :=
      fun _ ht => absurd ht List.not_mem_nil
    have hsound : Reading.Sound source 0 ⟨0, source, []⟩ :=
      ⟨⟨rfl, Nat.zero_le _⟩, PlacedIn.nil (Nat.le_refl _)⟩
    unfold readProgram
    dsimp only
    cases hrun : Pattern.run (Grammar.rules d) (stepsPerByte * (source.length + 1)) .statement
        Grammar.program ⟨0, source, []⟩ with
    | none => exact hstart
    | some r =>
      exact Pattern.run_lexed (Grammar.rules_wellBuilt d) (Grammar.rules_quote d) (by decide)
        Grammar.program_wellBuilt (by decide +kernel) hsound hstart hrun
  unfold parse
  refine everywhere_iff.mpr ⟨.of_ne (fun h => by cases h), ?_⟩
  refine List.forall_mem_append.mpr ⟨fun t ht => hread t (List.mem_reverse.mp ht), ?_⟩
  split
  · exact fun _ ht => absurd ht List.not_mem_nil
  · exact List.forall_mem_singleton.mpr (everywhere_leaf (.of_ne fun h => by cases h))

/-- A text between quotes begins and ends with the same mark. -/
theorem Lexeme.exists_between {l : Lexeme} {t : Bytes} {n : Nat} (hl : l ∈ Lexeme.ofQuoted)
    (h : l.length? t = some n) :
    ∃ q body, t.take n = q :: (body ++ [q]) ∧ (q = code '"' ∨ q = code '\'') := by
  have hmarks : ∀ {a : UInt8}, (a == code '"' || a == code '\'') = true → a = code '"' ∨ a = code '\'' :=
    fun ha => by simpa using ha
  have hends : ∀ {a : UInt8} {rest : Bytes} {k : Nat}, rest[k]? = some a →
      (a :: rest).take (k + 1 + 1) = a :: (rest.take k ++ [a]) := by
    intro a rest k hk
    rw [List.take_succ_cons, List.take_add_one, hk, Option.toList_some]
  simp only [ofQuoted, List.mem_cons, List.not_mem_nil, or_false] at hl
  rcases hl with rfl | rfl
  · simp only [length?] at h
    unfold quotedLength? at h
    split at h
    · rename_i a rest
      split at h
      · rename_i ha
        obtain ⟨m, hm, rfl⟩ := Option.map_eq_some_iff.mp h
        obtain ⟨k, rfl, hk⟩ := closingLength?_ends hm
        exact ⟨a, _, hends hk, hmarks ha⟩
      · cases h
    · cases h
  · simp only [length?] at h
    unfold markupQuotedLength? at h
    split at h
    · rename_i a rest
      split at h
      · rename_i ha
        dsimp only at h
        split at h
        · cases h
        · rename_i hclosed
          cases h
          obtain ⟨rest', hrest, hfirst⟩ := Bytes.exists_takeWhile_append (· != a) rest
          refine ⟨a, _, hends (k := (rest.takeWhile (· != a)).length) ?_, hmarks ha⟩
          generalize rest.takeWhile (· != a) = taken at hrest hclosed ⊢
          subst hrest
          rw [List.drop_left] at hclosed
          rw [List.getElem?_append_right (Nat.le_refl _), Nat.sub_self, ← List.head?_eq_getElem?]
          cases rest' with
          | nil => exact absurd rfl hclosed
          | cons b more =>
            have hb : b = a := by simpa using hfirst b rfl
            rw [hb]
            rfl
      · cases h
    · cases h

end Syntax

/-! ### Characters between quotes -/

namespace Utf8

/-- A character of ASCII is written as one byte, and any other ends with a byte that is none of ASCII. -/
theorem exists_last_byte (c : Char) : ∃ v b, String.utf8EncodeChar c = v ++ [b] ∧
    (v = [] ∧ b.toNat = c.toNat ∨ 0x80 ≤ b.toNat) := by
  obtain ⟨n, hn, rfl⟩ : ∃ n : Nat, n.isValidChar ∧ c = Char.ofNat n :=
    ⟨c.toNat, c.valid, (Char.ofNat_toNat c).symm⟩
  have hbyte : ∀ {m : Nat}, m < 256 → (UInt8.ofNat m).toNat = m := fun h => UInt8.toNat_ofNat_of_lt' h
  have htop : n < 0x110000 := by
    unfold Nat.isValidChar at hn
    omega
  have hc : (Char.ofNat n).toNat = n := toNat_ofNat hn
  rw [hc]
  by_cases h₁ : n < 0x80
  · exact ⟨[], _, encode_one h₁, .inl ⟨rfl, hbyte (by omega)⟩⟩
  have hlast : 0x80 ≤ (UInt8.ofNat (n % 64 + 0x80)).toNat := by
    rw [hbyte (by omega)]
    omega
  by_cases h₂ : n < 0x800
  · exact ⟨[_], _, encode_two (by omega) h₂, .inr hlast⟩
  by_cases h₃ : n < 0x10000
  · exact ⟨[_, _], _, encode_three (by omega) h₃ hn, .inr hlast⟩
  · exact ⟨[_, _, _], _, encode_four (by omega) htop, .inr hlast⟩

/-- The characters of a text that begins and ends with the same mark of ASCII do so too. -/
theorem exists_between {s : String} {q : UInt8} {body : Bytes} (hq : q.toNat < 0x80)
    (h : Bytes.ofString s = q :: (body ++ [q])) :
    ∃ cs, s.toList = Char.ofNat q.toNat :: (cs ++ [Char.ofNat q.toNat]) := by
  have hchar : ∀ {c : Char}, q.toNat = c.toNat → c = Char.ofNat q.toNat := fun heq => by
    rw [heq, Char.ofNat_toNat]
  rw [Bytes.ofString_eq_flatMap] at h
  cases hlist : s.toList with
  | nil => rw [hlist] at h; cases h
  | cons c more =>
    rw [hlist, List.flatMap_cons] at h
    obtain ⟨b, rest, hencode, hfirst⟩ := exists_first_byte c
    rw [hencode, List.cons_append] at h
    obtain ⟨rfl, h⟩ := List.cons.inj h
    obtain ⟨hb, -⟩ : b.toNat = c.toNat ∧ c.toNat < 0x80 := hfirst.resolve_right fun hlarge => by omega
    have hone : rest = [] := by
      have hascii := encode_one (n := c.toNat) (by omega)
      rw [Char.ofNat_toNat, hencode] at hascii
      exact (List.cons.inj hascii).2
    obtain rfl := hchar hb
    rw [hone, List.nil_append] at h
    rcases List.eq_nil_or_concat more with rfl | ⟨cs, last, rfl⟩
    · simp at h
    · rw [List.concat_eq_append, List.flatMap_append, List.flatMap_singleton] at h
      obtain ⟨v, b', hencode', hlast⟩ := exists_last_byte last
      rw [hencode', ← List.append_assoc] at h
      obtain ⟨-, heq⟩ := List.append_inj' h rfl
      obtain rfl := (List.cons.inj heq).1
      obtain ⟨-, hlast⟩ := hlast.resolve_right fun hlarge => by omega
      exact ⟨cs, by rw [hchar hlast, List.concat_eq_append]⟩

end Utf8

end Codemod
