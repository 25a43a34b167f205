/-!
# Beginnings and ends of texts

Main statements:

* `dropSuffix?_eq_some_iff` says that taking an end off a text undoes writing it there.
-/

namespace Codemod.Text

/-- Whether a text begins with another. -/
def hasPrefix (start s : String) : Bool :=
  start.toList.isPrefixOf s.toList

/-- Whether a text ends with another. -/
def hasSuffix (tail s : String) : Bool :=
  tail.toList.isSuffixOf s.toList

/-- A text without the given end, if it ends so. -/
def dropSuffix? (tail s : String) : Option String :=
  if hasSuffix tail s then some (String.ofList (s.toList.take (s.length - tail.length))) else none

/-- Taking an end off a text undoes writing it there. -/
theorem dropSuffix?_eq_some_iff {tail s r : String} : dropSuffix? tail s = some r ↔ s = r ++ tail := by
  unfold dropSuffix? hasSuffix
  constructor
  · intro h
    split at h
    case isFalse => cases h
    case isTrue hs =>
      obtain ⟨l, hl⟩ := List.isSuffixOf_iff_suffix.mp hs
      have hr := Option.some.inj h
      have hlen : s.length - tail.length = l.length := by
        rw [← String.length_toList, ← String.length_toList, ← hl]
        simp
      rw [hlen, ← hl, List.take_left] at hr
      rw [← String.toList_inj, ← hl, ← hr]
      simp
  · rintro rfl
    have hs : tail.toList.isSuffixOf (r ++ tail).toList = true := by
      rw [List.isSuffixOf_iff_suffix, String.toList_append]
      exact List.suffix_append _ _
    have hlen : (r ++ tail).length - tail.length = r.toList.length := by
      rw [String.length_append, Nat.add_sub_cancel, String.length_toList]
    rw [if_pos hs, hlen, String.toList_append, List.take_left, String.ofList_toList]

end Codemod.Text
