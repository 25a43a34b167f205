import Codemod.Text.Bytes

/-!
# Trees of a source

A source is read as a tree of nodes. Every node has a kind and spans a range of bytes; a node can
have a role for the node that holds it. Words and punctuation marks that carry no meaning of their
own are nodes too, of unnamed kinds, and so are comments: a comment is a child of the smallest node
around it.

Main statements:

* `Tree.withRole_children` says that a role changes nothing below the node;
* `Tree.mem_named_iff` says which children are named.
-/

namespace Codemod.Syntax

/-- What a node is. Statements and the parts of them that the library looks at have kinds of their
own; the grammar below them is kept only as far as it decides where names stand. -/
inductive Kind where
  | program
  | hashBangLine
  | comment
  | htmlComment
  | unread
  | importStatement
  | exportStatement
  | expressionStatement
  | variableDeclaration
  | lexicalDeclaration
  | functionDeclaration
  | generatorDeclaration
  | functionSignature
  | classDeclaration
  | abstractClassDeclaration
  | interfaceDeclaration
  | typeAliasDeclaration
  | enumDeclaration
  | moduleDeclaration
  | internalModule
  | ambientDeclaration
  | importAlias
  | statementBlock
  | emptyStatement
  | ifStatement
  | switchStatement
  | forStatement
  | forInStatement
  | whileStatement
  | doStatement
  | tryStatement
  | withStatement
  | breakStatement
  | continueStatement
  | returnStatement
  | throwStatement
  | debuggerStatement
  | labeledStatement
  | importClause
  | importRequireClause
  | namedImports
  | namespaceImport
  | importSpecifier
  | importAttribute
  | namespaceExport
  | exportClause
  | exportSpecifier
  | variableDeclarator
  | classExpression
  | functionExpression
  | generatorExpression
  | expression
  | object
  | objectPattern
  | arrayPattern
  | markup
  | type
  | classBody
  | interfaceBody
  | enumBody
  | decorator
  | parameters
  | qualifiedName
  | string
  | template
  | regex
  | number
  | constant
  | identifier
  | typeIdentifier
  | shorthandProperty
  | shorthandPattern
  | propertyName
  | privateName
  | label
  | predefinedType
  | markupText
  | templateText
  | arguments
  | typeArguments
  | typeParameters
  | objectType
  | defaultWord
  | semicolon
  | symbol
  deriving DecidableEq, Repr

namespace Kind

/-- The name of a kind. -/
def name : Kind → String
  | program => "program"
  | hashBangLine => "hash_bang_line"
  | comment => "comment"
  | htmlComment => "html_comment"
  | unread => "ERROR"
  | importStatement => "import_statement"
  | exportStatement => "export_statement"
  | expressionStatement => "expression_statement"
  | variableDeclaration => "variable_declaration"
  | lexicalDeclaration => "lexical_declaration"
  | functionDeclaration => "function_declaration"
  | generatorDeclaration => "generator_function_declaration"
  | functionSignature => "function_signature"
  | classDeclaration => "class_declaration"
  | abstractClassDeclaration => "abstract_class_declaration"
  | interfaceDeclaration => "interface_declaration"
  | typeAliasDeclaration => "type_alias_declaration"
  | enumDeclaration => "enum_declaration"
  | moduleDeclaration => "module"
  | internalModule => "internal_module"
  | ambientDeclaration => "ambient_declaration"
  | importAlias => "import_alias"
  | statementBlock => "statement_block"
  | emptyStatement => "empty_statement"
  | ifStatement => "if_statement"
  | switchStatement => "switch_statement"
  | forStatement => "for_statement"
  | forInStatement => "for_in_statement"
  | whileStatement => "while_statement"
  | doStatement => "do_statement"
  | tryStatement => "try_statement"
  | withStatement => "with_statement"
  | breakStatement => "break_statement"
  | continueStatement => "continue_statement"
  | returnStatement => "return_statement"
  | throwStatement => "throw_statement"
  | debuggerStatement => "debugger_statement"
  | labeledStatement => "labeled_statement"
  | importClause => "import_clause"
  | importRequireClause => "import_require_clause"
  | namedImports => "named_imports"
  | namespaceImport => "namespace_import"
  | importSpecifier => "import_specifier"
  | importAttribute => "import_attribute"
  | namespaceExport => "namespace_export"
  | exportClause => "export_clause"
  | exportSpecifier => "export_specifier"
  | variableDeclarator => "variable_declarator"
  | classExpression => "class"
  | functionExpression => "function_expression"
  | generatorExpression => "generator_function"
  | expression => "expression"
  | object => "object"
  | objectPattern => "object_pattern"
  | arrayPattern => "array_pattern"
  | markup => "jsx_element"
  | type => "type"
  | classBody => "class_body"
  | interfaceBody => "interface_body"
  | enumBody => "enum_body"
  | decorator => "decorator"
  | parameters => "formal_parameters"
  | qualifiedName => "nested_identifier"
  | string => "string"
  | template => "template_string"
  | regex => "regex"
  | number => "number"
  | constant => "constant"
  | identifier => "identifier"
  | typeIdentifier => "type_identifier"
  | shorthandProperty => "shorthand_property_identifier"
  | shorthandPattern => "shorthand_property_identifier_pattern"
  | propertyName => "property_identifier"
  | privateName => "private_property_identifier"
  | label => "statement_identifier"
  | predefinedType => "predefined_type"
  | markupText => "jsx_text"
  | templateText => "string_fragment"
  | arguments => "arguments"
  | typeArguments => "type_arguments"
  | typeParameters => "type_parameters"
  | objectType => "object_type"
  | defaultWord => "default"
  | semicolon => ";"
  | symbol => "symbol"

/-- Whether nodes of this kind carry meaning of their own. -/
def isNamed : Kind → Bool
  | defaultWord | semicolon | symbol => false
  | _ => true

end Kind

/-- What a node is for the node that holds it. -/
inductive Role where
  /-- The name that is declared, imported or exported. -/
  | name
  /-- The other name that a specifier gives. -/
  | alias
  /-- The module that a statement refers to. -/
  | source
  /-- The declaration that is exported. -/
  | declaration
  /-- The value that is exported. -/
  | value
  deriving DecidableEq, Repr

/-- A node: it spans the bytes from `start` up to, not including, `stop`. -/
inductive Tree where
  | node (kind : Kind) (role : Option Role) (start stop : Nat) (children : List Tree)
  deriving Repr

namespace Tree

/-- What the node is. -/
def kind : Tree → Kind
  | node k _ _ _ _ => k

/-- What the node is for the node that holds it. -/
def role : Tree → Option Role
  | node _ r _ _ _ => r

/-- Where the node begins. -/
def start : Tree → Nat
  | node _ _ s _ _ => s

/-- Where the node ends. -/
def stop : Tree → Nat
  | node _ _ _ e _ => e

/-- The nodes that the node holds, in the order of the source. -/
def children : Tree → List Tree
  | node _ _ _ _ cs => cs

/-- The same node in a role. -/
def withRole (r : Role) : Tree → Tree
  | node k _ s e cs => node k (some r) s e cs

/-- A role changes nothing below the node. -/
@[simp] theorem withRole_children (r : Role) (t : Tree) : (t.withRole r).children = t.children := by
  cases t; rfl

/-- A node without children. -/
def leaf (k : Kind) (start stop : Nat) : Tree :=
  node k none start stop []

/-- Whether the node is of a kind. -/
def is (t : Tree) (k : Kind) : Bool :=
  t.kind = k

/-- The first child in a role. -/
def child? (t : Tree) (r : Role) : Option Tree :=
  t.children.find? fun c => c.role = some r

/-- The first child of a kind. -/
def childOfKind? (t : Tree) (k : Kind) : Option Tree :=
  t.children.find? fun c => c.is k

/-- The children that carry meaning of their own; comments do. -/
def named (t : Tree) : List Tree :=
  t.children.filter fun c => c.kind.isNamed

/-- Whether a node is among the named children of another. -/
theorem mem_named_iff {t c : Tree} : c ∈ t.named ↔ c ∈ t.children ∧ c.kind.isNamed = true := by
  simp [named]

/-- The bytes of a node in the source that it was read from. -/
def text (t : Tree) (source : Bytes) : Bytes :=
  source.slice t.start t.stop

/-- Whether another node lies within this one. -/
def encloses (t u : Tree) : Bool :=
  t.start ≤ u.start && u.stop ≤ t.stop

end Tree
end Codemod.Syntax
