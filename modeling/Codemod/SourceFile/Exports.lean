import Codemod.Log.Journal
import Codemod.SourceFile.Basic

/-!
# Declarations and default exports

Main statements:

* `DefaultExport.ofStatement?_statement` says that a default export keeps its statement;
* `SourceFile.findDeclarations_subset` says that what declares a name is a statement of the file.
-/

namespace Codemod

open Syntax

/-- The form of a default export. -/
inductive DefaultExportForm where
  /-- A name that is declared elsewhere in the file. -/
  | identifier
  /-- A declaration with a name. -/
  | declaration
  /-- A value without a name. -/
  | expression
  deriving DecidableEq, Repr

/-- The name of a form. -/
def DefaultExportForm.name : DefaultExportForm → String
  | .identifier => "identifier"
  | .declaration => "declaration"
  | .expression => "expression"

/-- A default export: its statement, its form, and the name, the declaration or the value that it
exports. -/
structure DefaultExport where
  statement : Tree
  form : DefaultExportForm
  target : Tree
  deriving Repr

/-- Whether a statement is an export without a name. -/
def isDefaultExport (t : Tree) : Bool :=
  t.is .exportStatement && t.children.any (·.is .defaultWord)

/-- Kinds of values that may bear a name of their own. -/
def namedValues : List Kind := [.classExpression, .functionExpression, .generatorExpression]

/-- The default export of a value by a statement. A class or a function with a name counts as a declaration,
also where it is parsed as a value. -/
def DefaultExport.ofValue (t v : Tree) : DefaultExport :=
  if namedValues.contains v.kind && (v.child? .name).isSome then ⟨t, .declaration, v⟩
  else if v.is .identifier then ⟨t, .identifier, v⟩
  else ⟨t, .expression, v⟩

/-- The default export that a statement makes, if it names or gives what it exports. -/
def DefaultExport.ofStatement? (t : Tree) : Option DefaultExport :=
  match (t.child? .declaration).filter fun d => (d.child? .name).isSome with
  | some d => some ⟨t, .declaration, d⟩
  | none => (t.child? .value).map (ofValue t)

theorem DefaultExport.ofValue_statement (t v : Tree) : (ofValue t v).statement = t := by
  unfold ofValue
  split
  · rfl
  · split <;> rfl

/-- What counts as a name that is declared elsewhere is a value of the statement, and a name. -/
theorem DefaultExport.ofStatement?_identifier {t : Tree} {d : DefaultExport} (h : ofStatement? t = some d)
    (hform : d.form = .identifier) : t.child? .value = some d.target ∧ d.target.is .identifier = true := by
  unfold ofStatement? at h
  split at h
  case h_1 =>
    cases h
    cases hform
  case h_2 =>
    obtain ⟨v, hv, hd⟩ := Option.map_eq_some_iff.mp h
    unfold ofValue at hd
    split at hd
    · subst hd
      cases hform
    · split at hd
      case isTrue hname =>
        subst hd
        exact ⟨hv, hname⟩
      case isFalse =>
        subst hd
        cases hform

/-- A default export keeps its statement. -/
theorem DefaultExport.ofStatement?_statement {t : Tree} {d : DefaultExport}
    (h : ofStatement? t = some d) : d.statement = t := by
  unfold ofStatement? at h
  split at h
  case h_1 => cases h; rfl
  case h_2 =>
    obtain ⟨v, -, rfl⟩ := Option.map_eq_some_iff.mp h
    exact ofValue_statement t v

namespace SourceFile

/-- The default exports among statements. One that gives no name and no value is passed over, with a
note. -/
def defaultExportsOf (f : SourceFile) : List Tree → Journaled Fault (List DefaultExport)
  | [] => pure []
  | t :: rest => do
    match DefaultExport.ofStatement? t with
    | some d => return d :: (← f.defaultExportsOf rest)
    | none =>
      let text ← .ofExcept (f.textOf t)
      .note .debug s!"{f.path.toString}: skipping unrecognized default export {Text.quoted text}"
      f.defaultExportsOf rest

/-- The default exports of a file, in order. -/
def defaultExports (f : SourceFile) : Journaled Fault (List DefaultExport) :=
  f.defaultExportsOf (f.statements.filter isDefaultExport)

/-- Kinds of declarations that declare one name. -/
def naming : List Kind :=
  [.functionDeclaration, .generatorDeclaration, .functionSignature, .classDeclaration,
    .abstractClassDeclaration, .interfaceDeclaration, .typeAliasDeclaration, .enumDeclaration,
    .moduleDeclaration]

/-- The nodes that are the names which a declaration declares. Of variables only those count that are
bound as a whole. -/
def nameNodes (t : Tree) : List Tree :=
  if t.is .lexicalDeclaration || t.is .variableDeclaration then
    ((t.children.filter (·.is .variableDeclarator)).filterMap (·.child? .name)).filter (·.is .identifier)
  else if naming.contains t.kind then (t.child? .name).toList
  else []

/-- The names that a declaration declares. -/
def declaredNames (f : SourceFile) (t : Tree) : Except Fault (List String) :=
  (nameNodes t).mapM f.textOf

/-- The declaration in a statement: what it exports under a name, and what it declares to be defined
elsewhere. A default export is none. -/
def declaration? (t : Tree) : Option Tree := do
  let d ←
    if t.is .exportStatement then
      if isDefaultExport t then none else t.child? .declaration
    else some t
  if d.is .ambientDeclaration then some (d.named.head?.getD d) else some d

/-- Whether a statement declares a name. -/
def declares (f : SourceFile) (name : String) (t : Tree) : Except Fault Bool :=
  match declaration? t with
  | none => .ok false
  | some d => (·.contains name) <$> f.declaredNames d

/-- The items for which a test that may fail succeeds. -/
def selectM {ε α : Type} (p : α → Except ε Bool) : List α → Except ε (List α)
  | [] => .ok []
  | a :: rest => do
    let keep ← p a
    let more ← selectM p rest
    return if keep then a :: more else more

theorem selectM_subset {ε α : Type} {p : α → Except ε Bool} {l r : List α}
    (h : selectM p l = .ok r) : ∀ a ∈ r, a ∈ l := by
  induction l generalizing r with
  | nil => cases h; simp
  | cons b rest ih =>
    unfold selectM at h
    cases hb : p b with
    | error e => simp [hb, bind, Except.bind] at h
    | ok keep =>
      cases hr : selectM p rest with
      | error e => simp [hb, hr, bind, Except.bind] at h
      | ok more =>
        simp only [hb, hr, bind, Except.bind, pure, Except.pure, Except.ok.injEq] at h
        subst h
        intro a ha
        cases keep with
        | true =>
          rcases List.mem_cons.mp ha with rfl | ha
          · simp
          · exact List.mem_cons_of_mem _ (ih hr a ha)
        | false => exact List.mem_cons_of_mem _ (ih hr a ha)

/-- The statements that declare a name. Overloads and merged declarations give several. -/
def findDeclarations (f : SourceFile) (name : String) : Except Fault (List Tree) :=
  selectM (f.declares name) f.statements

/-- What declares a name is a statement of the file. -/
theorem findDeclarations_subset {f : SourceFile} {name : String} {l : List Tree}
    (h : f.findDeclarations name = .ok l) : ∀ t ∈ l, t ∈ f.statements :=
  selectM_subset h

end SourceFile
end Codemod
