import Codemod.Proofs.FoundDefinitions
import Codemod.Proofs.SecondRooting

/-!
# The names that values are bound to

A value that is exported by default is bound to a name that comes from the path of its file, where any text can stand.
The name is checked from its first character, but not to its last: a line feed may stand at its end, and before that
even a reserved word. Two more names are let through although no module binds them.

Main statements:

* `isIdentifier_iff` says which texts are let through as names;
* `moduleBinds_iff` says which of them a module can bind;
* `exportJob_of_value` says how the work on a file ends whose default export is a value;
* `exported_value_is_bound` says when that work fails, and to which name the value is bound.
-/

namespace Codemod

/-! ### Names that a module can bind -/

/-- Whether a text is an identifier from its first character to its last: a letter, `_` or `$`, and then such
characters and digits. -/
def IsAsciiIdentifier (s : String) : Prop :=
  ∃ c cs, s.toList = c :: cs ∧ (c.isAlpha = true ∨ c = '_' ∨ c = '$') ∧
    ∀ d ∈ cs, d.isAlphanum = true ∨ d = '_' ∨ d = '$'

/-- The words that are reserved in every program. -/
def keywords : List String := [
  "break", "case", "catch", "class", "const", "continue", "debugger", "default", "delete", "do", "else", "enum",
  "export", "extends", "false", "finally", "for", "function", "if", "import", "in", "instanceof", "new", "null",
  "return", "super", "switch", "this", "throw", "true", "try", "typeof", "var", "void", "while", "with"]

/-- The words that are reserved in modules as well, as their code is strict and may wait. -/
def moduleWords : List String := [
  "await", "implements", "interface", "let", "package", "private", "protected", "public", "static", "yield"]

/-- Whether a module must not use a text as a name. -/
def IsReserved (s : String) : Prop := s ∈ keywords ∨ s ∈ moduleWords

/-- The names that strict code may use and not bind. -/
def protectedNames : List String := ["arguments", "eval"]

/-- Whether a module can bind a text as the name of a constant. -/
structure ModuleBinds (s : String) : Prop where
  identifier : IsAsciiIdentifier s
  not_reserved : ¬ IsReserved s
  not_protected : s ∉ protectedNames

/-- The list of reserved words holds those of modules, and no others. -/
theorem mem_reservedWords_iff {s : String} : s ∈ reservedWords ↔ IsReserved s := by
  have hsound : ∀ word ∈ reservedWords, word ∈ keywords ∨ word ∈ moduleWords := by decide
  have hcomplete : ∀ word ∈ keywords ++ moduleWords, word ∈ reservedWords := by decide
  constructor
  · exact hsound s
  · intro h
    exact hcomplete s (List.mem_append.mpr h)

/-! ### What is let through as a name -/

theorem isIdentifierStart_iff {c : Char} :
    isIdentifierStart c = true ↔ c.isAlpha = true ∨ c = '_' ∨ c = '$' := by
  have hletter : c.isAlpha = (decide ('A' ≤ c ∧ c ≤ 'Z') || ('a' ≤ c && c ≤ 'z')) := rfl
  simp only [isIdentifierStart, hletter, Bool.or_eq_true, Bool.and_eq_true, decide_eq_true_eq, beq_iff_eq]
  tauto

theorem isIdentifierPart_iff {c : Char} :
    isIdentifierPart c = true ↔ c.isAlphanum = true ∨ c = '_' ∨ c = '$' := by
  have hdigit : ('0' ≤ c && c ≤ '9') = c.isDigit := by
    simp [Char.isDigit, Char.le_def]
  rw [isIdentifierPart, hdigit, Bool.or_eq_true, isIdentifierStart_iff, Char.isAlphanum, Bool.or_eq_true]
  tauto

theorem isAsciiIdentifier_iff {s : String} : IsAsciiIdentifier s ↔
    ∃ c cs, s.toList = c :: cs ∧ isIdentifierStart c = true ∧ ∀ d ∈ cs, isIdentifierPart d = true := by
  simp only [IsAsciiIdentifier, isIdentifierStart_iff, isIdentifierPart_iff]

/-- A run of characters that pass a test reaches to a last one that does not exactly when all others pass it. -/
theorem dropWhile_eq_singleton_iff {ok : Char → Bool} {cs : List Char} {c : Char} (hc : ok c = false) :
    cs.dropWhile ok = [c] ↔ ∃ front, cs = front ++ [c] ∧ ∀ d ∈ front, ok d = true := by
  constructor
  · intro h
    refine ⟨cs.takeWhile ok, ?_, fun d hd => SourceFile.mem_takeWhile hd⟩
    rw [← h, List.takeWhile_append_dropWhile]
  · rintro ⟨front, rfl, hfront⟩
    rw [List.dropWhile_append_of_pos hfront, List.dropWhile_cons_of_neg (by simp [hc])]

/-- What is let through is an identifier that is not reserved, or an identifier of any kind with a line feed behind
it. -/
theorem isIdentifier_iff {s : String} : isIdentifier s = true ↔
    (IsAsciiIdentifier s ∧ ¬ IsReserved s) ∨ ∃ name, IsAsciiIdentifier name ∧ s = name ++ "\n" := by
  rw [← mem_reservedWords_iff]
  constructor
  · -- The run of identifier characters reaches to the end, or to a line feed there.
    intro h
    obtain ⟨htext, hreserved⟩ := Bool.and_eq_true_iff.mp h
    have hfree : s ∉ reservedWords := by simpa using hreserved
    cases hs : s.toList with
    | nil =>
      rw [hs] at htext
      cases htext
    | cons c cs =>
      rw [hs] at htext
      obtain ⟨hstart, hrest⟩ := Bool.and_eq_true_iff.mp htext
      rcases Bool.or_eq_true_iff.mp hrest with hall | hlast
      · left
        have hparts := List.dropWhile_eq_nil_iff.mp (List.isEmpty_iff.mp hall)
        exact ⟨isAsciiIdentifier_iff.mpr ⟨c, cs, hs, hstart, hparts⟩, hfree⟩
      · right
        obtain ⟨front, rfl, hfront⟩ := (dropWhile_eq_singleton_iff (by decide)).mp (beq_iff_eq.mp hlast)
        refine ⟨String.ofList (c :: front), ?_, ?_⟩
        · exact isAsciiIdentifier_iff.mpr ⟨c, front, String.toList_ofList, hstart, hfront⟩
        · apply String.toList_injective
          rw [hs, String.toList_append, String.toList_ofList]
          rfl
  · rintro (⟨hname, hfree⟩ | ⟨name, hname, rfl⟩)
    · obtain ⟨c, cs, hs, hstart, hparts⟩ := isAsciiIdentifier_iff.mp hname
      exact isIdentifier_of_chars hs hstart hparts hfree
    · obtain ⟨c, cs, hs, hstart, hparts⟩ := isAsciiIdentifier_iff.mp hname
      have hchars : (name ++ "\n").toList = c :: (cs ++ ['\n']) := by
        rw [String.toList_append, hs]
        rfl
      -- The check for reserved words compares the whole text, and none of them holds a line feed.
      have hwords : ∀ word ∈ reservedWords, '\n' ∉ word.toList := by decide
      have hfree : name ++ "\n" ∉ reservedWords := by
        intro hmem
        apply hwords _ hmem
        rw [hchars]
        simp
      have hlast := (dropWhile_eq_singleton_iff (c := '\n') (by decide)).mpr ⟨cs, rfl, hparts⟩
      simp [isIdentifier, isIdentifierText, hchars, hstart, hlast, hfree]

/-- No character of an identifier is a line feed. -/
theorem IsAsciiIdentifier.newline_not_mem {s : String} (h : IsAsciiIdentifier s) : '\n' ∉ s.toList := by
  obtain ⟨c, cs, hs, hstart, hparts⟩ := h
  rw [hs, List.mem_cons, not_or]
  constructor
  · rintro rfl
    revert hstart
    decide
  · intro hmem
    have hpart := hparts _ hmem
    revert hpart
    decide

/-- Of the texts that are let through a module can bind all but those with a line feed and two more. -/
theorem moduleBinds_iff {s : String} (h : isIdentifier s = true) :
    ModuleBinds s ↔ '\n' ∉ s.toList ∧ s ∉ protectedNames := by
  constructor
  · intro hbinds
    exact ⟨hbinds.identifier.newline_not_mem, hbinds.not_protected⟩
  · rintro ⟨hwhole, hprotected⟩
    rcases isIdentifier_iff.mp h with ⟨hname, hfree⟩ | ⟨name, -, rfl⟩
    · exact ⟨hname, hfree, hprotected⟩
    · absurd hwhole
      simp [String.toList_append]

/-! ### The edit that binds a value -/

namespace NamedExport

open NamedImport

variable {f : SourceFile} {d : DefaultExport} {name : String} {es : List Edit}

theorem edits_of_expression (hform : d.form = .expression) : edits f d = expressionEdits f d := by
  unfold edits
  rw [hform]

/-- A name that is not let through is refused. -/
theorem expressionEdits_of_misnamed (h : isIdentifier f.path.suggestedName = false) :
    expressionEdits f d = .error (.invalidExportName f.path f.path.suggestedName) := by
  unfold expressionEdits
  simp [h]

/-- Once the name is let through, only texts that cannot be read are in the way. -/
theorem expressionEdits_failsUndecodable (h : isIdentifier f.path.suggestedName = true) :
    FailsUndecodable (expressionEdits f d) := by
  unfold expressionEdits
  dsimp only
  rw [if_pos h]
  apply (textOf_failsUndecodable d.target).bind
  intro value
  exact (replaceStatement_failsUndecodable d.statement _).bind fun _ => .pure _

/-- The change that puts a constant in the place of the statement that exports a value. The semicolon behind it stays,
if there is one. -/
def constantEdit (d : DefaultExport) (name value : String) : Edit :=
  let mark := if d.statement.children.getLast?.any (·.is .semicolon) then ";" else ""
  ⟨d.statement.start, d.statement.stop, s!"export const {name} = {value}{mark}"⟩

/-- One statement is written anew. -/
theorem expressionEdits_eq_ok (h : expressionEdits f d = .ok (name, es)) :
    name = f.path.suggestedName ∧ isIdentifier name = true ∧
      ∃ e text, es = [e] ∧ f.replaceStatement d.statement text true = .ok e := by
  unfold expressionEdits at h
  dsimp only at h
  split at h
  case isFalse => cases h
  case isTrue hname =>
    obtain ⟨value, -, h⟩ := Except.bind_eq_ok h
    obtain ⟨e, hedit, h⟩ := Except.bind_eq_ok h
    cases h
    exact ⟨rfl, hname, e, _, rfl, hedit⟩

end NamedExport

/-- A statement of a file can be written anew. -/
theorem SourceFile.exists_edited_replaceStatement {f : SourceFile} {t : Syntax.Tree} {text : String} {e : Edit}
    (ht : t ∈ f.tree.children) (h : f.replaceStatement t text true = .ok e) : ∃ g, f.edited [e] = .ok g := by
  obtain ⟨hstart, hstop⟩ := replaceStatement_place h
  obtain ⟨-, hplaced, hlength⟩ := f.nodes_placed.bounds ht
  have hopening := (f.opening_bounds t).1
  have hle := hplaced.start_le
  have horder : ∀ e' ∈ [e], e'.start ≤ e'.stop := by
    rintro e' he
    obtain rfl := List.mem_singleton.mp he
    omega
  apply (exists_edited_iff horder).mpr
  constructor
  · intro e' he
    obtain rfl := List.mem_singleton.mp he
    omega
  · exact List.pairwise_singleton ..

/-! ### The work on a file -/

section

open NamedExport

variable {w : Workspace} {f : SourceFile} {ds : List DefaultExport} {d : DefaultExport}

/-- The work on a file whose default export is a value fails with its plan, or there is one edit, which can be made,
and the work fails on the disk or writes the file. -/
theorem exportJob_of_value (hd : f.defaultExports.outcome = .ok [d]) (hform : d.form = .expression) :
    (∃ e, NamedExport.edits f d = .error e ∧ exportJob.ending w f = ⟨.error e, f, none⟩) ∨
    ∃ es g, NamedExport.edits f d = .ok (f.path.suggestedName, es) ∧ f.edited es = .ok g ∧
      ((∃ e, exportJob.ending w f = ⟨.error (.io e), g, none⟩) ∨
        exportJob.ending w f = ⟨.ok (some f.path.suggestedName), { g with dirty := false }, some g.text⟩) := by
  have hplan : (plan f).outcome = some <$> NamedExport.edits f d := by
    rw [plan_outcome, hd]
    rfl
  cases hedits : NamedExport.edits f d with
  | error e =>
    left
    refine ⟨e, rfl, Job.ending_of_error ?_⟩
    unfold exportJob
    rw [hplan, hedits]
    rfl
  | ok planned =>
    right
    obtain ⟨name, es⟩ := planned
    obtain ⟨rfl, -, e, text, rfl, hreplaced⟩ := expressionEdits_eq_ok (edits_of_expression hform ▸ hedits)
    have hstatement : d.statement ∈ f.tree.children := by
      obtain ⟨t, ht, -, hof⟩ := SourceFile.exists_statement_of_defaultExports hd
      obtain rfl := DefaultExport.ofStatement?_statement hof
      exact f.statements_sublist.mem ht
    obtain ⟨g, hedit⟩ := SourceFile.exists_edited_replaceStatement hstatement hreplaced
    refine ⟨[e], g, rfl, hedit, ?_⟩
    -- There is an edit, so the file has to be written.
    have hdirty : g.dirty = true := by
      cases hclean : g.dirty with
      | true => rfl
      | false =>
        obtain ⟨hnone, -⟩ := SourceFile.eq_nil_of_edited_clean hedit hclean
        cases hnone
    have hjob : exportJob w.config w.knows f = .ok (some f.path.suggestedName, some [e]) := by
      apply exportJob_ends_of_plan
      rw [hplan, hedits]
      rfl
    rw [Job.ending_of_some hjob]
    cases hwrite : w.disk.write g.path g.text with
    | error io =>
      left
      rw [Ending.ofCommit_of_refused hedit hdirty hwrite]
      exact ⟨io, rfl⟩
    | ok disk =>
      right
      rw [Ending.ofCommit_of_written hedit hdirty hwrite]
      rfl

/-- Several default exports are refused. -/
theorem exportJob_of_many {e : DefaultExport} (hd : f.defaultExports.outcome = .ok (d :: e :: ds)) :
    exportJob.ending w f = ⟨.error (.multipleDefaultExports f.path (d :: e :: ds).length), f, none⟩ := by
  apply Job.ending_of_error
  unfold exportJob
  rw [plan_outcome, hd]
  rfl

variable (hd : f.defaultExports.outcome = .ok [d]) (hform : d.form = .expression)

include hd hform

/-- The work is refused for the sake of the name exactly when the name is not let through. -/
theorem exportJob_invalidExportName_iff :
    (exportJob.ending w f).result = .error (.invalidExportName f.path f.path.suggestedName) ↔
      isIdentifier f.path.suggestedName = false := by
  constructor
  · intro hresult
    obtain ⟨e, hedits, hending⟩ | ⟨es, g, -, -, ⟨e, hending⟩ | hending⟩ := exportJob_of_value (w := w) hd hform
    · rw [hending] at hresult
      cases hresult
      apply Bool.eq_false_iff.mpr
      intro hname
      obtain ⟨u, hu⟩ := expressionEdits_failsUndecodable hname _ (edits_of_expression hform ▸ hedits)
      cases hu
    · rw [hending] at hresult
      cases hresult
    · rw [hending] at hresult
      cases hresult
  · intro hname
    have hedits := (edits_of_expression hform).trans (expressionEdits_of_misnamed (d := d) hname)
    obtain ⟨e, hfails, hending⟩ | ⟨es, g, hmade, -⟩ := exportJob_of_value (w := w) hd hform
    · cases hedits.symm.trans hfails
      rw [hending]
    · cases hedits.symm.trans hmade

/-- What else can go wrong is a text that cannot be read, or the disk. -/
theorem exportJob_value_error {e : Fault} (h : (exportJob.ending w f).result = .error e) :
    e = .invalidExportName f.path f.path.suggestedName ∨ (∃ u, e = .undecodable u) ∨ ∃ io, e = .io io := by
  cases hname : isIdentifier f.path.suggestedName with
  | false =>
    left
    have hrefused := (exportJob_invalidExportName_iff (w := w) hd hform).mpr hname
    cases h.symm.trans hrefused
    rfl
  | true =>
    right
    obtain ⟨e, hfails, hending⟩ | ⟨es, g, -, -, ⟨e, hending⟩ | hending⟩ := exportJob_of_value (w := w) hd hform
    · left
      rw [hending] at h
      cases h
      exact expressionEdits_failsUndecodable hname _ (edits_of_expression hform ▸ hfails)
    · right
      rw [hending] at h
      cases h
      exact ⟨e, rfl⟩
    · rw [hending] at h
      cases h

/-- Where the work succeeds it tells the suggested name and writes a constant of that name. -/
theorem exportJob_value_ok {told : Option String} (h : (exportJob.ending w f).result = .ok told) :
    told = some f.path.suggestedName ∧ isIdentifier f.path.suggestedName = true ∧
      ∃ (value : String) (g : SourceFile), f.textOf d.target = .ok value ∧ g.path = f.path ∧
        exportJob.ending w f = ⟨.ok told, { g with dirty := false }, some g.text⟩ ∧
        g.text = Edit.replacedAtOnce f.text [constantEdit d f.path.suggestedName value] := by
  obtain ⟨e, -, hending⟩ | ⟨es, g, hedits, hedit, ⟨e, hending⟩ | hending⟩ := exportJob_of_value (w := w) hd hform
  · rw [hending] at h
    cases h
  · rw [hending] at h
    cases h
  · rw [hending] at h
    cases h
    have hname := edits_expression_name hform hedits
    obtain ⟨changes, hchanges, htext, -⟩ := changes_of_edits hd hedits (SourceFile.edited_eq_ok hedit).1
    refine ⟨rfl, hname, ?_⟩
    cases hchanges with
    | unmark hother => cases hform.symm.trans hother
    | move hother => cases hform.symm.trans hother
    | bind _ hvalue hmark =>
      subst hmark
      exact ⟨_, g, hvalue, SourceFile.edited_path hedit, hending, htext⟩

end

/-- A value that is exported by default is bound to the name that the path of its file suggests. For every project,
every file in it and every default export of the file that is a value, the work on the file is refused for the sake of
the name exactly when the value is the only default export and the name is neither an identifier that is not reserved
nor an identifier with a line feed behind it. It fails otherwise only where there are several default exports, on texts
that are no characters, and on the disk. Where it succeeds it tells the name, and a constant of that name stands in the
place of the statement, in memory and on disk. A module can bind the name unless there is a line feed in it or it is `eval` or
`arguments`. -/
theorem exported_value_is_bound {w w' : Workspace} {f : SourceFile} {ds : List DefaultExport} {d : DefaultExport}
    {r : Except Fault (Option String)} {j j' : Journal} (hw : w.paths.Nodup) (hf : w.file? f.path = some f)
    (hds : f.defaultExports.outcome = .ok ds) (hd : d ∈ ds) (hform : d.form = .expression)
    (h : Workspace.nameDefaultExport f w j = (r, w', j')) :
    (r = .error (.invalidExportName f.path f.path.suggestedName) ↔ ds = [d] ∧
      ¬ (IsAsciiIdentifier f.path.suggestedName ∧ ¬ IsReserved f.path.suggestedName) ∧
      ¬ ∃ name, IsAsciiIdentifier name ∧ f.path.suggestedName = name ++ "\n") ∧
    (∀ e, r = .error e → e = .invalidExportName f.path f.path.suggestedName ∨
      (1 < ds.length ∧ e = .multipleDefaultExports f.path ds.length) ∨ (∃ u, e = .undecodable u) ∨ ∃ io, e = .io io) ∧
    ∀ told, r = .ok told → told = some f.path.suggestedName ∧
      (ModuleBinds f.path.suggestedName ↔
        '\n' ∉ f.path.suggestedName.toList ∧ f.path.suggestedName ∉ protectedNames) ∧
      ∃ (value : String) (g : SourceFile), f.textOf d.target = .ok value ∧ w'.file? f.path = some g ∧
        g.dirty = false ∧ w'.disk = w.disk.put f.path (.file g.text) ∧
        g.text = Edit.replacedAtOnce f.text [NamedExport.constantEdit d f.path.suggestedName value] := by
  obtain ⟨j₁, hends⟩ := exportJob_ends w f j hw hf
  rw [h] at hends
  obtain ⟨rfl, hrest⟩ := Prod.mk.inj hends
  obtain ⟨rfl, -⟩ := Prod.mk.inj hrest
  match ds, hds, hd with
  | a :: b :: more, hds, hd =>
    -- Several default exports are refused before any name is looked at.
    rw [exportJob_of_many hds]
    refine ⟨by simp, ?_, by rintro _ ⟨⟩⟩
    rintro e ⟨⟩
    right; left
    exact ⟨by simp, rfl⟩
  | [a], hds, hd =>
    obtain rfl := List.mem_singleton.mp hd
    refine ⟨?_, fun e he => ?_, fun told htold => ?_⟩
    · rw [exportJob_invalidExportName_iff hds hform, ← not_or, ← isIdentifier_iff]
      simp
    · exact (exportJob_value_error hds hform he).imp_right .inr
    · obtain ⟨hname, hpasses, value, g, hvalue, hpath, hending, htext⟩ := exportJob_value_ok hds hform htold
      refine ⟨hname, moduleBinds_iff hpasses, value, { g with dirty := false }, hvalue, ?_, rfl, ?_, htext⟩
      · have hfile : w.file? ({ g with dirty := false } : SourceFile).path = some f := hpath.symm ▸ hf
        rw [hending, ← hpath]
        exact Workspace.file?_settle ⟨f, hfile⟩
      · rw [hending, ← hpath]
        rfl

/-! ### Names that are bound -/

/-- A module with a value, in a file of the given name. -/
def valueModule (file : String) : SourceFile :=
  ⟨samplePath file, .typescript, Bytes.ofString "export default 1;\n", false⟩

/-- A project with no other module. -/
def valueProject (file : String) : Workspace := { sampleProject with files := [valueModule file] }

/-- Whether the only default export of a file is a value. -/
def SourceFile.exportsValue (f : SourceFile) : Bool :=
  f.defaultExports.outcome.toOption.any fun ds => ds.length == 1 && ds.all fun d => d.form = .expression

theorem SourceFile.exists_of_exportsValue {f : SourceFile} (h : f.exportsValue = true) :
    ∃ d, f.defaultExports.outcome = .ok [d] ∧ d.form = .expression := by
  obtain ⟨d, hd, hform⟩ := SourceFile.exists_of_single h
  exact ⟨d, hd, of_decide_eq_true hform⟩

/-- The value of a module in a file `a.ts` is bound to a name that the module can bind. -/
theorem value_of_file_bound : ∃ d w' j' g, (valueModule "a.ts").defaultExports.outcome = .ok [d] ∧
    d.form = .expression ∧
    Workspace.nameDefaultExport (valueModule "a.ts") (valueProject "a.ts") [] = (.ok (some "a"), w', j') ∧
    ModuleBinds "a" ∧ w'.file? (samplePath "a.ts") = some g ∧ g.dirty = false ∧
    w'.disk.content? (samplePath "a.ts") = some g.text ∧ g.text = Bytes.ofString "export const a = 1;\n" := by
  obtain ⟨d, hds, hform⟩ := SourceFile.exists_of_exportsValue (f := valueModule "a.ts") (by decide +kernel)
  obtain ⟨w', j', g, hrun, hg, htext⟩ := Workspace.exists_named (w := valueProject "a.ts") (f := valueModule "a.ts")
    "a" (p := fun g => g.text = Bytes.ofString "export const a = 1;\n") (by decide +kernel) (by decide +kernel)
  obtain ⟨-, -, hok⟩ := exported_value_is_bound (by decide) (by decide) hds (List.mem_singleton_self d) hform hrun
  obtain ⟨-, hbinds, -, g', -, hg', hclean, hdisk, -⟩ := hok _ rfl
  cases hg.symm.trans hg'
  have hwritten : w'.disk.content? (samplePath "a.ts") = some g.text := by
    rw [hdisk, FileSystem.content?, FileSystem.lookup?_put _ _ _ (by decide)]
    simp [valueModule]
  exact ⟨d, w', j', g, hds, hform, hrun, hbinds.mpr (by decide), hg, hclean, hwritten, of_decide_eq_true htext⟩

/-- Whether the work on a module with a value, in a file of the given name, tells a name that no module can bind. -/
def TellsUnbindable (file name : String) : Prop :=
  (valueModule file).exportsValue = true ∧
    (Workspace.nameDefaultExport (valueModule file) (valueProject file) []).1 = .ok (some name) ∧ ¬ ModuleBinds name

/-- A file `eval.ts` binds its value to a name that code in modules may use and not bind, and a line feed before the
extension goes into the name, even behind a reserved word. -/
theorem unbindable_names_told : TellsUnbindable "eval.ts" "eval" ∧ TellsUnbindable "class\n.ts" "class\n" := by
  refine ⟨⟨by decide +kernel, by decide +kernel, ?_⟩, by decide +kernel, by decide +kernel, ?_⟩
  · intro h
    exact h.not_protected (by decide)
  · intro h
    exact h.identifier.newline_not_mem (by decide)

end Codemod
