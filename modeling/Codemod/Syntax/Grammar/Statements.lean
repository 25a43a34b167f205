import Codemod.Syntax.Grammar.Expressions

/-!
# The grammar of statements
-/

namespace Codemod.Syntax.Grammar

open Pattern

/-- Statements between braces. -/
def block : Phrase :=
  .node .statementBlock (all ["\x7b", inside .statement (all [many (call .statement), "\x7d"]),
    opt (ending .declaration)])

/-! ### Imports and exports -/

/-- A name under which a module gives something away. -/
def exportedName : Phrase := any [anyNameAs .identifier, string]

/-- The module that a statement refers to. -/
def fromModule : Phrase := all ["from", part .source string]

/-- What tells that only a type is meant. -/
def typeWord : Phrase := any ["type", "typeof"]

/-- Succeeds where a specifier is over. -/
def specifierEnd : Phrase := ahead (any [",", "\x7d"])

/-- The name of a specifier and the other name that it gives. -/
def bothNames (name other : Phrase) : Phrase :=
  all [part .name name, "as", part .alias other, specifierEnd]

/-- The forms that a specifier takes, with the name and with both names. -/
def specifier (name outer inner : Phrase) : Phrase :=
  any [all [typeWord, bothNames outer inner], bothNames outer inner,
    all [typeWord, part .name name, specifierEnd], all [part .name name, specifierEnd]]

/-- What is imported under which name. -/
def importSpecifier : Phrase :=
  .node .importSpecifier (specifier identifier exportedName identifier)

/-- A list of what is imported. -/
def namedImports : Phrase := .node .namedImports (enclosed "\x7b" "\x7d" (sparse "," importSpecifier))

/-- A name for all that a module gives away. -/
def namespaceImport : Phrase := .node .namespaceImport (all ["*", "as", identifier])

/-- All that an import binds. -/
def importClause : Phrase :=
  .node .importClause (any [namespaceImport, namedImports,
    all [identifier, opts [",", any [namespaceImport, namedImports]]]])

/-- A module that is imported by a call. -/
def importRequire : Phrase :=
  .node .importRequireClause (all [identifier, equals, "require",
    enclosed "(" ")" (part .source string)])

/-- What is told about an imported module. -/
def importAttribute : Phrase := .node .importAttribute (all [any ["with", "assert"], object])

/-- An import. -/
def importStatement : Phrase :=
  let bindings : Phrase := any [all [importClause, fromModule], importRequire]
  .node .importStatement (all ["import",
    any [all [typeWord, bindings], bindings, part .source string],
    opt importAttribute, semicolon .declaration])

/-- Another name for a part of a module. -/
def importAlias : Phrase :=
  .node .importAlias (all ["import", identifier, equals, qualifiedName, semicolon .declaration])

/-- What is exported under which name. -/
def exportSpecifier : Phrase :=
  .node .exportSpecifier (specifier exportedName exportedName exportedName)

/-- A list of what is exported. -/
def exportClause : Phrase := .node .exportClause (enclosed "\x7b" "\x7d" (sparse "," exportSpecifier))

/-- A name under which all that another module gives away is exported. -/
def namespaceExport : Phrase := .node .namespaceExport (all ["*", "as", exportedName])

/-- A declaration in the place where a module with a name is one too. -/
def anyDeclaration : Phrase := any [call .declaration, internalModule]

/-- Marks and words that no statement begins with: where one of them follows a declaration, that
declaration is an operand. -/
def operandMark : Phrase :=
  any [".", "?.", "*", "%", "&", "|", "^", "?", "=", ">", "as", "satisfies", "instanceof", "in"]

/-- What is exported without a name. -/
def defaultExport : Phrase :=
  all [signAs .defaultWord "default",
    any [all [part .declaration anyDeclaration, absent operandMark],
      all [part .value (call .expression), semicolon .expression]]]

/-- An export. -/
def exportStatement : Phrase :=
  .node .exportStatement (all [many (call .decorator), "export", goesOn .expression,
    any [
      all [opt "type", "*", fromModule, opt importAttribute, semicolon .declaration],
      all [opt "type", namespaceExport, fromModule, opt importAttribute, semicolon .declaration],
      all [opt "type", exportClause, opt fromModule, opt importAttribute, semicolon .declaration],
      all [equals, call .expression, semicolon .expression],
      all ["as", "namespace", identifier, semicolon .declaration],
      defaultExport,
      part .declaration anyDeclaration]])

/-! ### Declarations -/

/-- A function. -/
def functionDeclaration : Phrase :=
  let head (mark : Phrase) : Phrase :=
    all [opts ["async", goesOn .expression], "function", mark, part .name identifier, call .signature]
  any [
    .node .functionDeclaration (all [head (absent "*"), call .block]),
    .node .generatorDeclaration (all [head "*", call .block]),
    .node .functionSignature (all [head nothing, semicolon .signature])]

/-- A class. -/
def classDeclaration : Phrase :=
  let rest : Phrase := all ["class", className, opt (call .typeParameters), heritage, call .classBody]
  any [
    .node .classDeclaration (all [many (call .decorator), rest, opt (ending .declaration)]),
    .node .abstractClassDeclaration (all [many (call .decorator), "abstract", rest])]

/-- Names with their values, up to the end of the statement. -/
def declarators : Phrase :=
  let head : Phrase := all [part .name binding, opt (signBut "!" ["!="]), opt typeMark]
  any [
    all [.node .variableDeclarator (all [head, initializer]),
      any [all [",", call .declarators], semicolon .expression]],
    all [.node .variableDeclarator head, any [all [",", call .declarators], semicolon .declaration]]]

/-- Names of constants or of what is bound to a block. -/
def lexicalDeclaration : Phrase :=
  .node .lexicalDeclaration (all [any [all ["let", goesOn .expression], "const"], call .declarators])

/-- Names of variables. -/
def variableDeclaration : Phrase := .node .variableDeclaration (all ["var", call .declarators])

/-- A module with a name or with the specifier of another module. -/
def moduleDeclaration : Phrase :=
  .node .moduleDeclaration (all ["module", goesOn .expression, part .name (any [string, qualifiedName]),
    opt (call .block)])

/-- Another name for a type. -/
def typeAlias : Phrase :=
  .node .typeAliasDeclaration (all ["type", goesOn .expression, part .name typeName,
    opt (call .typeParameters), equals, call .type, semicolon .declaration])

/-- A list of named constants. -/
def enumDeclaration : Phrase :=
  .node .enumDeclaration (all [opt "const", "enum", part .name identifier,
    .node .enumBody (enclosed "\x7b" "\x7d" (sparse "," (all [propertyName, opt initializer])))])

/-- The members that an object has to have. -/
def interfaceDeclaration : Phrase :=
  .node .interfaceDeclaration (all ["interface", part .name typeName, opt (call .typeParameters),
    opts ["extends", listed "," (call .plainType)], call .objectType])

/-- A declaration of what is defined elsewhere. -/
def ambientDeclaration : Phrase :=
  .node .ambientDeclaration (all ["declare", goesOn .expression,
    any [anyDeclaration, all ["global", call .block],
      all ["module", ".", anyNameAs .propertyName, typeMark, semicolon .declaration]]])

/-- A declaration. -/
def declaration : Phrase :=
  any [functionDeclaration, classDeclaration, enumDeclaration, lexicalDeclaration, variableDeclaration,
    typeAlias, interfaceDeclaration, moduleDeclaration, ambientDeclaration, importAlias]

/-! ### Statements that do something -/

/-- A choice between two statements. -/
def ifStatement : Phrase :=
  .node .ifStatement (all ["if", parenthesized, call .statement, opts ["else", call .statement]])

/-- A choice among many cases. -/
def switchStatement : Phrase :=
  .node .switchStatement (all ["switch", parenthesized, "\x7b",
    inside .statement (all [many (all [any [all ["case", call .sequence], "default"], ":",
      many (call .statement)]), "\x7d"])])

/-- A repetition with a counter, or over the parts of a value. -/
def forStatement : Phrase :=
  let word : Phrase := any ["var", "let", "const"]
  let start : Phrase := any [call .declaration, all [call .sequence, ";"], ";"]
  any [
    .node .forInStatement (all ["for", opt "await",
      enclosed "(" ")" (all [any [all [word, binding, opts [equals, call .operand]], call .target],
        any ["in", "of"], call .sequence]),
      call .statement]),
    .node .forStatement (all ["for",
      enclosed "(" ")" (all [start, opt (call .sequence), ";", opt (call .sequence)]),
      call .statement])]

/-- A repetition with a condition before it. -/
def whileStatement : Phrase := .node .whileStatement (all ["while", parenthesized, call .statement])

/-- A repetition with a condition after it. -/
def doStatement : Phrase :=
  .node .doStatement (all ["do", call .statement, "while", parenthesized, opt (semicolon .declaration)])

/-- What is done when something fails. -/
def tryStatement : Phrase :=
  .node .tryStatement (all ["try", call .block,
    opts ["catch", opt (enclosed "(" ")" (all [binding, opt typeMark])), call .block],
    opts ["finally", call .block]])

/-- Statements in which the members of a value are names. -/
def withStatement : Phrase := .node .withStatement (all ["with", parenthesized, call .statement])

/-- A jump, which can name the statement that it leaves. -/
def jump (word : String) (k : Kind) : Phrase :=
  .node k (all [sign word, any [semicolon .declaration, all [nameAs .label, semicolon .declaration]]])

/-- The end of a function. -/
def returnStatement : Phrase :=
  .node .returnStatement (all ["return",
    any [semicolon .declaration, all [call .sequence, semicolon .expression]]])

/-- A failure. -/
def throwStatement : Phrase :=
  .node .throwStatement (all ["throw", call .sequence, semicolon .expression])

/-- A statement with a label. -/
def labeledStatement : Phrase := .node .labeledStatement (all [nameAs .label, ":", call .statement])

/-- An expression as a statement. -/
def expressionStatement : Phrase :=
  .node .expressionStatement (all [call .sequence, semicolon .expression])

/-- A comment that begins with a mark of HTML and ends with its line. Unlike other comments it is read
only where a statement can begin, since elsewhere the same mark is a row of operators. -/
def htmlComment : Phrase := all [ahead (any ["<!--", "-->"]), .token .line .htmlComment]

/-- A statement. -/
def statement : Phrase :=
  any [htmlComment, importStatement, exportStatement, call .declaration, call .block,
    signAs .emptyStatement ";", ifStatement, switchStatement, forStatement, whileStatement, doStatement,
    tryStatement, withStatement,
    jump "break" .breakStatement, jump "continue" .continueStatement, returnStatement, throwStatement,
    .node .debuggerStatement (all ["debugger", semicolon .declaration]), labeledStatement,
    expressionStatement]

/-- A whole source. -/
def program : Phrase :=
  all [opt (all [ahead "#!", .token .line .hashBangLine]), many (call .statement), blanks]

end Codemod.Syntax.Grammar
