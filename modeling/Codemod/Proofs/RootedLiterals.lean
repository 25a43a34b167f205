import Codemod.Proofs.QuotedTexts
import Codemod.Proofs.SecondRooting

/-!
# The literals of rooted specifiers

A rooting run puts the rooted specifier of a target between the quotes that the author chose, and escapes nothing.
The specifier is made of the names from the root marker to the target, and the names of files and directories may hold
quotes, backslashes and line ends. What is written stands for the specifier exactly where none of them does.

Main statements:

* `ModuleReference.source_quoted` says in which quotes the source of a reference stands;
* `RootedSpecifier.forall_ofParts` compares the characters of a specifier with those of the names that it is made of;
* `rooted_specifier_literal_iff` says which of the written specifiers stand for the rooted specifier.
-/

namespace Codemod

open Resolution Syntax Literal

/-! ### The source of a reference -/

theorem Syntax.Tree.text_eq_of_drop {t : Tree} {b taken : Bytes} {n : Nat} (h : (b.drop t.start).take n = taken)
    (hstop : t.stop = t.start + n) : t.text b = taken := by
  rw [Tree.text, Bytes.slice, hstop, List.drop_take, Nat.add_sub_cancel_left, h]

/-- The source of a reference is its specifier between two quotation marks of one kind. -/
theorem ModuleReference.source_quoted {f : SourceFile} {r : ModuleReference} (hr : r ∈ f.references) {s : String}
    (h : f.textOf r.source = .ok s) :
    ∃ q cs, (q = '"' ∨ q = '\'') ∧ s.toList = q :: (cs ++ [q]) := by
  obtain ⟨hsource, hstring⟩ := SourceFile.reference_source hr
  have hstatement : (parse f.dialect f.text).Everywhere (LexemeOf f.text .string Lexeme.ofQuoted) :=
    parse_quoted f.dialect f.text
  obtain ⟨t, ht, href⟩ := List.mem_filterMap.mp hr
  obtain ⟨rfl, -, -⟩ := SourceFile.reference?_eq_some href
  have hnode := (Tree.everywhere_iff.mp hstatement).2 _ (f.statements_sublist.mem ht)
  have hbelow := (Tree.everywhere_iff.mp hnode).2 _ (List.mem_of_find?_eq_some hsource)
  obtain ⟨l, hl, n, hlength, hstop⟩ := (Tree.everywhere_iff.mp hbelow).1 (by simpa [Tree.is] using hstring)
  obtain ⟨q, body, htake, hq⟩ := Lexeme.exists_between hl hlength
  have htext := SourceFile.ofString_of_textOf h
  rw [Tree.text_eq_of_drop htake hstop] at htext
  have hascii : q.toNat < 0x80 := by
    rcases hq with rfl | rfl <;> decide
  obtain ⟨cs, hcs⟩ := Utf8.exists_between hascii htext
  refine ⟨_, cs, ?_, hcs⟩
  rcases hq with rfl | rfl
  · exact .inl (by decide)
  · exact .inr (by decide)

/-! ### The characters of a rooted specifier -/

namespace RootedSpecifier

variable {P : Char → Prop}

theorem forall_intercalate (hslash : P '/') (ps : List String) :
    (∀ c ∈ ("/".intercalate ps).toList, P c) ↔ ∀ name ∈ ps, ∀ c ∈ name.toList, P c := by
  induction ps with
  | nil => simp
  | cons name rest ih =>
    cases rest with
    | nil => rw [String.intercalate_singleton, List.forall_mem_singleton]
    | cons next more =>
      have hsep : ∀ c ∈ "/".toList, P c := fun c hc => by
        obtain rfl : c = '/' := by simpa using hc
        exact hslash
      rw [String.intercalate_cons_cons, String.toList_append, String.toList_append, List.forall_mem_append,
        List.forall_mem_append, ih, List.forall_mem_cons (a := name)]
      exact ⟨fun ⟨⟨hname, _⟩, hrest⟩ => ⟨hname, hrest⟩, fun ⟨hname, hrest⟩ => ⟨⟨hname, hsep⟩, hrest⟩⟩

theorem forall_dropFirstSuffix {ends : List String} (hends : ∀ e ∈ ends, ∀ c ∈ e.toList, P c) (s : String) :
    (∀ c ∈ (dropFirstSuffix s ends).toList, P c) ↔ ∀ c ∈ s.toList, P c := by
  refine ⟨fun h => ?_, fun h c hc => h c (toList_dropFirstSuffix_subset s ends c hc)⟩
  by_cases hend : ∃ e ∈ ends, ∃ r, s = r ++ e
  · obtain ⟨e, he, heq⟩ := exists_dropped hend
    rw [heq, String.toList_append]
    exact List.forall_mem_append.mpr ⟨h, hends e he⟩
  · have hnone : ∀ e ∈ ends, Text.dropSuffix? e s = none := fun e he =>
      Option.eq_none_iff_forall_ne_some.mpr fun r hr => hend ⟨e, he, r, Text.dropSuffix?_eq_some_iff.mp hr⟩
    rwa [dropFirstSuffix_nil hnone] at h

/-- What is left out of a specifier are an extension and a final index. So if a property holds of their characters and
of the slash, it holds of the characters of a specifier exactly when it holds of those of its names. -/
theorem forall_ofParts (hslash : P '/') (hends : ∀ e ∈ droppedExtensions, ∀ c ∈ e.toList, P c)
    (hindex : ∀ c ∈ indexName.toList, P c) (ps : List String) :
    (∀ c ∈ (ofParts ps).toList, P c) ↔ ∀ name ∈ ps, ∀ c ∈ name.toList, P c := by
  rw [← forall_intercalate hslash, ← forall_dropFirstSuffix hends ("/".intercalate ps)]
  unfold ofParts
  dsimp only
  generalize dropFirstSuffix ("/".intercalate ps) droppedExtensions = s
  cases hd : Text.dropSuffix? ("/" ++ indexName) s with
  | none => rw [Option.getD_none]
  | some r =>
    have htail : ∀ c ∈ ("/" ++ indexName).toList, P c := by
      rw [String.toList_append]
      refine List.forall_mem_append.mpr ⟨fun c hc => ?_, hindex⟩
      obtain rfl : c = '/' := by simpa using hc
      exact hslash
    rw [Option.getD_some, Text.dropSuffix?_eq_some_iff.mp hd, String.toList_append, List.forall_mem_append]
    exact ⟨fun h => ⟨h, htail⟩, And.left⟩

/-- No quote, backslash or line end is left out of a specifier. -/
theorem plain_ofParts {q : Char} (hq : q = '"' ∨ q = '\'') (ps : List String) :
    (∀ c ∈ (ofParts ps).toList, Plain q c) ↔ ∀ name ∈ ps, ∀ c ∈ name.toList, Plain q c := by
  refine forall_ofParts ?_ ?_ ?_ ps <;> rcases hq with rfl | rfl <;> simp [Plain, droppedExtensions, indexName]

end RootedSpecifier

/-! ### What a rooting run writes -/

/-- A text between two quotation marks. -/
def between (q : Char) (s : String) : String :=
  String.ofList [q] ++ s ++ String.ofList [q]

theorem toList_between (q : Char) (s : String) : (between q s).toList = q :: (s.toList ++ [q]) := by
  rw [between, String.toList_append, String.toList_append, String.toList_ofList, List.singleton_append,
    List.cons_append]

/-- A reference whose specifier and quote can be read has its specifier between two such quotes. -/
theorem ModuleReference.textOf_source {f : SourceFile} {r : ModuleReference} (hr : r ∈ f.references)
    {spec quote : String} (hspec : r.specifier f = .ok spec) (hquote : r.quote f = .ok quote) :
    ∃ q, (q = '"' ∨ q = '\'') ∧ quote = String.ofList [q] ∧ f.textOf r.source = .ok (between q spec) := by
  obtain ⟨s, hs, hspec⟩ := Except.bind_eq_ok hspec
  obtain ⟨s', hs', hquote⟩ := Except.bind_eq_ok hquote
  obtain rfl : s = s' := Except.ok.inj (hs.symm.trans hs')
  obtain ⟨q, cs, hq, hlist⟩ := source_quoted hr hs
  rw [hlist] at hspec hquote
  cases hspec
  cases hquote
  refine ⟨q, hq, rfl, hs.trans (congrArg Except.ok (String.toList_inj.mp (hlist.trans ?_)))⟩
  rw [toList_between, String.toList_ofList, List.drop_succ_cons, List.drop_zero, List.dropLast_concat]

open RootedSpecifier RootedImport in
/-- What a rooting run writes for a reference is the rooted specifier of the target, between the quotation marks in
which the specifier stood before. It is a string literal with the rooted specifier as its value exactly when none of
the names from the marker to the target holds that mark, a backslash or a line end. -/
theorem rooted_specifier_literal_iff {w : Workspace} {f : SourceFile} {marker : String} {edits : List Edit}
    (hplan : (plan f (w.resolve f.path) marker w.config.root).outcome = .ok edits) {e : Edit} (he : e ∈ edits) :
    ∃ r ∈ f.references, ∃ q spec t names, (q = '"' ∨ q = '\'') ∧
      f.textOf r.source = .ok (between q spec) ∧ isRelative spec = true ∧
      w.resolve f.path spec = .ok (some t) ∧
      fromMarker? marker (searched t (some w.config.root)) = some names ∧
      rootedSpecifier t marker (some w.config.root) = .ok (ofParts names) ∧
      e = SourceFile.replaceEdit r.source (between q (ofParts names)) ∧
      (literalValue? (between q (ofParts names)).toList = some (unitsOf (ofParts names).toList) ↔
        ∀ name ∈ names, ∀ c ∈ name.toList, Plain q c) := by
  obtain ⟨j, hrun⟩ := Journaled.exists_run hplan
  obtain ⟨r, hr, j₁, j₂, hreference⟩ := mem_plansOf hrun he
  obtain ⟨spec, t, s, quote, hspec, hrel, hresolve, hs, hquote, rfl⟩ := referencePlan_eq_some hreference
  obtain ⟨q, hq, rfl, htext⟩ := ModuleReference.textOf_source hr hspec hquote
  cases hmarker : fromMarker? marker (searched t (some w.config.root)) with
  | none =>
    unfold rootedSpecifier at hs
    rw [hmarker] at hs
    cases hs
  | some names =>
    have hrooted : rootedSpecifier t marker (some w.config.root) = .ok (ofParts names) := by
      unfold rootedSpecifier
      rw [hmarker]
    obtain rfl : ofParts names = s := Except.ok.inj (hrooted.symm.trans hs)
    refine ⟨r, hr, q, spec, t, names, hq, htext, hrel, hresolve, hmarker, hrooted, rfl, ?_⟩
    rw [toList_between, literalValue?_eq_iff hq, plain_ofParts hq]

/-! ### Folders with ordinary names and with quotes in them -/

/-- A place below the marker, in a folder of a given name. -/
def folderPath (folder name : String) : Path :=
  ⟨.root, ["p", "src", folder, name]⟩

/-- A module that imports its neighbour. -/
def neighbour (folder : String) : SourceFile :=
  ⟨folderPath folder "main.ts", .typescript, Bytes.ofString "import \x7b x \x7d from \"./x\";\n", false⟩

/-- The project of the module and its neighbour. -/
def folderProject (folder : String) : Workspace :=
  { disk := .empty
    config := ⟨⟨.root, ["p", "tsconfig.json"]⟩, none, [], none, false, ["**/*"], [], [], none⟩
    files := [neighbour folder,
      ⟨folderPath folder "x.ts", .typescript, Bytes.ofString "export const x = 1;\n", false⟩] }

/-- What the run does to the module. -/
def folderPlan (folder : String) : Except Fault (List Edit) :=
  (RootedImport.plan (neighbour folder) ((folderProject folder).resolve (neighbour folder).path) "src"
    (folderProject folder).config.root).outcome

/-- The rooted specifier of the neighbour. -/
def folderSpecifier (folder : String) : Except Fault String :=
  rootedSpecifier (folderPath folder "x.ts") "src" (some (folderProject folder).config.root)

open RootedSpecifier in
/-- In a folder with an ordinary name the written text is a literal of the right value. -/
theorem folder_literal : folderPlan "lib" = .ok [⟨18, 23, "\"src/lib/x\""⟩] ∧
    literalValue? "\"src/lib/x\"".toList = some (unitsOf "src/lib/x".toList) := by
  have hplan : folderPlan "lib" = .ok [⟨18, 23, "\"src/lib/x\""⟩] := by decide +kernel
  refine ⟨hplan, ?_⟩
  obtain ⟨r, hr, q, spec, t, names, hq, htext, -, hresolve, hmarker, -, hedit, hiff⟩ :=
    rooted_specifier_literal_iff hplan (List.mem_singleton_self _)
  have htexts : (between q (ofParts names)).toList = "\"src/lib/x\"".toList := congrArg (·.text.toList) hedit.symm
  rw [toList_between] at htexts
  obtain ⟨rfl, hrest⟩ := List.cons.inj htexts
  have hvalue : (ofParts names).toList = "src/lib/x".toList := List.append_inj_left' hrest rfl
  have hplain : ∀ c ∈ (ofParts names).toList, Plain '"' c := by
    rw [hvalue]
    simp [Plain]
  have hliteral := hiff.mpr ((plain_ofParts hq names).mp hplain)
  rwa [hvalue, toList_between, hvalue] at hliteral

/-- A quote in the name of a folder ends the written text too early. -/
theorem quote_in_folder_ends_literal : folderSpecifier "a\"b" = .ok "src/a\"b/x" ∧
    folderPlan "a\"b" = .ok [⟨18, 23, "\"src/a\"b/x\""⟩] ∧
    literalValue? "\"src/a\"b/x\"".toList = none := by
  decide +kernel

end Codemod
