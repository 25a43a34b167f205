import Codemod.Dialect
import Codemod.Syntax.Grammar.Types

/-!
# The grammar of expressions

An expression is read as one row of operands, operators and accesses. How the operators bind is not
kept, since it has no bearing on where names stand.
-/

namespace Codemod.Syntax.Grammar

open Pattern

/-- Expressions with commas between them. -/
def sequence : Phrase := .group .expression (listed "," (call .expression))

/-- A sequence between parentheses; a single expression can state its type. -/
def parenthesized : Phrase := enclosed "(" ")" (all [call .sequence, opt typeMark])

/-- What a call passes. -/
def arguments : Phrase :=
  .node .arguments (enclosed "(" ")" (sparse "," (all [opt "...", call .expression])))

/-- A template whose parts are expressions. -/
def template : Phrase := templateOf (call .sequence)

/-- Marks that can follow type arguments which nothing is passed to. -/
def afterTypeArguments : Phrase :=
  any ["(", ")", "]", "\x7d", ",", ";", ":", ".", "?", "=", "|", "&", "`", ending .expression]

/-- What takes a part of a value or calls it. -/
def access : Phrase :=
  any [
    all [signBut "." ["..."], any [anyNameAs .propertyName, .token .privateName .privateName]],
    all ["?.", absent number, any [computed, arguments, all [call .typeArguments, arguments],
      anyNameAs .propertyName, .token .privateName .privateName]],
    enclosed "[" "]" (call .sequence),
    arguments,
    template,
    all [ahead "<", call .typeArguments, ahead afterTypeArguments],
    all [ahead (signBut "!" ["!="]), goesOn .expression, "!"],
    all [ahead (any ["++", "--"]), goesOn .expression, any ["++", "--"]]]

/-- Operators between two operands, the longer before those that they begin with. -/
def binaryOperator : Phrase :=
  any ([">>>=", ">>=", "<<=", "**=", "&&=", "||=", "??=", "===", "!==", "==", "!=", ">>>", ">>", "<<",
      "<=", ">=", "&&", "||", "??", "**", "+=", "-=", "*=", "/=", "%=", "&=", "|=", "^="].map sign ++
    [equals, sign "<", sign ">", signBut "+" ["++"], signBut "-" ["--"]] ++
    ["*", "/", "%", "&", "|", "^", "instanceof", "in"].map sign)

/-- What goes on with an expression after an operand. -/
def operation : Phrase :=
  any [
    all [binaryOperator, call .operand],
    all [ahead "as", goesOn .expression, "as", any ["const", call .type]],
    all [ahead "satisfies", goesOn .expression, "satisfies", call .type],
    all [signBut "?" ["?."], inside .conditional (all [call .expression, ":"]), call .expression]]

/-- An expression. -/
def expression : Phrase := .group .expression (all [call .operand, many operation])

/-- Operators before an operand. -/
def unaryOperator : Phrase :=
  any (["!", "~", "++", "--", "+", "-", "typeof", "void", "delete", "await", "new"].map sign)

/-- An operand with the operators before it and the accesses after it. -/
def operand (d : Dialect) : Phrase :=
  any [
    call .arrow,
    all ["yield", opt "*", call .expression],
    all ["new", ".", anyNameAs .propertyName, many access],
    all [unaryOperator, call .operand],
    match d with
      | .typescript => all [call .typeArguments, call .operand]
      | .tsx => never,
    all [call .primary, many access]]

/-- A function with its body after an arrow. In the middle of a conditional a colon after the
parameters gives the function's result only if another colon is left for the conditional. -/
def arrow : Phrase :=
  let body : Phrase := all ["=>", any [call .functionBody, call .expression]]
  let head : Phrase := all [opt (call .typeParameters), call .parameters]
  let one : Phrase :=
    any [all [identifier, body],
      all [head, ":", call .resultType, body, any [absent (amid .conditional), ahead ":"]],
      all [head, body]]
  .node .expression (any [all ["async", goesOn .expression, one], one])

/-- What a destructuring puts a part into. -/
def target : Phrase :=
  let member : Phrase :=
    any [all [".", any [anyNameAs .propertyName, .token .privateName .privateName]],
      enclosed "[" "]" (call .sequence), signBut "!" ["!="]]
  let part : Phrase :=
    any [all ["...", call .target],
      all [propertyName, ":", call .target, opt initializer],
      all [nameAs .shorthandPattern, opt initializer]]
  any [.node .objectPattern (enclosed "\x7b" "\x7d" (sparse "," part)),
    .node .arrayPattern (enclosed "[" "]" (sparse "," (all [opt "...", call .target, opt initializer]))),
    .group .expression (all [any [constantWord, identifier], many member])]

/-- What a declaration binds: a name or the parts of a value. -/
def binding : Phrase := any [all [ahead (any ["\x7b", "["]), call .target], identifier]

/-- What a function takes. -/
def parameters : Phrase :=
  let parameter : Phrase := all [many (call .decorator), modifiers, opt "...",
    any [signAs .constant "this", call .target], opt "?", opt typeMark, opt initializer]
  .node .parameters (enclosed "(" ")" (sparse "," parameter))

/-- The statements of a function, after an expression can go on. -/
def functionBody : Phrase :=
  .node .statementBlock (all ["\x7b", inside .statement (all [many (call .statement), "\x7d"]),
    opt (ending .expression)])

/-- A function in the place of a value. -/
def function : Phrase :=
  any [
    .node .functionExpression (all [opts ["async", goesOn .expression], "function", absent "*",
      opt (part .name identifier), call .signature, call .functionBody]),
    .node .generatorExpression (all [opts ["async", goesOn .expression], "function", "*",
      opt (part .name identifier), call .signature, call .functionBody])]

/-- The classes and interfaces that a class builds on. -/
def heritage : Phrase :=
  all [opts ["extends", .group .expression (all [call .primary, many access]), opt (call .typeArguments)],
    opts ["implements", listed "," (call .plainType)]]

/-- The name of a class. -/
def className : Phrase := all [absent "implements", part .name typeName]

/-- A class in the place of a value. -/
def classExpression : Phrase :=
  .node .classExpression (all [many (call .decorator), "class", opt className,
    opt (call .typeParameters), heritage, call .classBody])

/-- What decides something about the declaration that follows. -/
def decorator : Phrase :=
  .node .decorator (all ["@", any [parenthesized,
    all [identifier, many (all [".", anyNameAs .propertyName]), opt (call .typeArguments),
      opt arguments]]])

/-- A function as a member. -/
def method : Phrase := all [modifiers, propertyName, opt "?", call .signature, call .functionBody]

/-- The members of a class. -/
def classBody : Phrase :=
  let fieldEnd (e : Ending) : Phrase := any [semicolon e, ",", ahead "\x7d"]
  let field : Phrase := all [opt (any ["?", "!"]), opt typeMark,
    any [all [initializer, fieldEnd .expression], fieldEnd .declaration]]
  let member : Phrase := all [many (call .decorator), modifiers, propertyName,
    any [all [opt (any ["?", "!"]), call .signature,
      any [all [call .functionBody, opt (semicolon .declaration)],
      fieldEnd .signature]], field]]
  .node .classBody (all ["\x7b", inside .statement (all [
    many (any [signAs .semicolon ";", all ["static", call .block],
      all [opts ["static", absent nameEnd], indexSignature, fieldEnd .declaration], member]), "\x7d"])])

/-- A value that lists the members of an object. -/
def object : Phrase :=
  let member : Phrase :=
    any [all ["...", call .expression], method, all [propertyName, ":", call .expression],
      anyNameAs .shorthandProperty]
  .node .object (enclosed "\x7b" "\x7d" (sparse "," member))

/-- The values of a list. -/
def array : Phrase := enclosed "[" "]" (sparse "," (all [opt "...", call .expression]))

/-- A module with a name in the place of a value. -/
def internalModule : Phrase :=
  .node .internalModule (all ["namespace", goesOn .expression, part .name (any [string, qualifiedName]),
    opt (call .block)])

/-- A value that no operator is part of. -/
def primary (d : Dialect) : Phrase :=
  any [
    all [ahead (any ["\x7b", "["]), call .target, ahead equals],
    object, .group .expression array, .group .expression parenthesized, function, classExpression,
    template, string, number, .token .regex .regex, constantWord,
    all [signAs .constant "import", any [ahead "(", all [".", anyNameAs .propertyName]]],
    .token .privateName .privateName,
    match d with
      | .typescript => never
      | .tsx => call .markup,
    internalModule, identifier]

end Codemod.Syntax.Grammar
