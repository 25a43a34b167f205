import Codemod.Syntax.Rule

/-!
# The grammar of types
-/

namespace Codemod.Syntax.Grammar

open Pattern

/-- The name of a type. -/
def typeName : Phrase := nameAs .typeIdentifier

/-- The name of a type, with the names of what holds it before it. -/
def qualifiedTypeName : Phrase :=
  any [all [nameAs .identifier, ".", many (all [anyNameAs .propertyName, "."]), anyNameAs .typeIdentifier],
    typeName]

/-- The types that are built in. -/
def predefinedType : Phrase :=
  all [any (["any", "number", "boolean", "string", "symbol", "void", "unknown", "never", "object"].map
    (signAs .predefinedType)), absent "."]

/-- Words that stand for one value each. -/
def constantWord : Phrase :=
  any (["this", "super", "null", "true", "false", "undefined"].map (signAs .constant))

/-- The arguments of a generic type or function. -/
def typeArguments : Phrase :=
  .node .typeArguments (enclosed "<" ">" (sparse "," (call .type)))

/-- The parameters of a generic type or function. -/
def typeParameters : Phrase :=
  let modifier (w : String) : Phrase := all [sign w, absent (any [",", ">", "=", "extends"])]
  let parameter : Phrase := all [many (any [modifier "const", modifier "in", modifier "out"]), typeName,
    opts ["extends", call .type], opts ["=", call .type]]
  .node .typeParameters (enclosed "<" ">" (sparse "," parameter))

/-- A template between backquotes, what stands in it being read by the given pattern. -/
def templateOf (inner : Phrase) : Phrase :=
  .node .template (all ["`",
    many (any [.glued .templateText .templateText,
      all [.glued (.exactly (Bytes.ofString "$\x7b")) .symbol, inside .brackets (all [inner, "\x7d"])]]),
    .glued (.exactly (Bytes.ofString "`")) .symbol])

/-- A member of a tuple type. -/
def tupleMember : Phrase :=
  any [all [opt "...", anyNameAs .identifier, opt "?", typeMark],
    all [opt "...", call .type, opt "?"]]

/-- The type of an imported module or of what it exports. -/
def importType : Phrase :=
  all ["import", enclosed "(" ")" (listed "," (call .expression)),
    many (all [".", anyNameAs .propertyName]), opt (call .typeArguments)]

/-- What the type of a value is asked for. -/
def typeQuery : Phrase :=
  all ["typeof", any [importType,
    all [any [signAs .constant "this", identifier],
      many (all [".", any [anyNameAs .propertyName, .token .privateName .privateName]]),
      opt (call .typeArguments)]]]

/-- A type that nothing but brackets can follow as a part of it. -/
def typePrimary : Phrase :=
  any [enclosed "(" ")" (call .type), call .objectType, enclosed "[" "]" (sparse "," tupleMember),
    templateOf (call .type), string, number, all ["-", number], predefinedType, constantWord, importType,
    "*", all ["?", call .typeOperand], all [qualifiedTypeName, opt (call .typeArguments)]]

/-- A type without the operators that join types. -/
def typeOperand : Phrase :=
  all [any [
      all [opt (call .typeParameters), call .parameters, "=>", call .resultType],
      all [opt "abstract", "new", opt (call .typeParameters), call .parameters, "=>", call .type],
      all [any ["keyof", "readonly", "unique"], call .typeOperand],
      all ["infer", typeName, opts ["extends", call .plainType, absent "?"]],
      typeQuery,
      typePrimary],
    many (all [ahead "[", goesOn .declaration, enclosed "[" "]" (opt (call .type))])]

/-- A mark that joins two types. -/
def typeOperator : Phrase := any [signBut "|" ["||"], signBut "&" ["&&"]]

/-- A type that is no choice between two types. -/
def plainType : Phrase :=
  .group .type (all [many typeOperator, call .typeOperand, many (all [typeOperator, call .typeOperand])])

/-- A type. -/
def type : Phrase :=
  .group .type (all [call .plainType,
    opts [ahead "extends", goesOn .declaration, "extends", call .plainType, "?", call .type, ":",
      call .type]])

/-- What a function gives: a type, or what a result tells about a parameter. -/
def resultType : Phrase :=
  let subject : Phrase := any [signAs .constant "this", identifier]
  any [.node .type (all ["asserts", goesOn .declaration, subject, opts ["is", call .type]]),
    .node .type (all [subject, goesOn .declaration, "is", call .type]),
    call .type]

/-- What a function takes and gives. -/
def signature : Phrase :=
  all [opt (call .typeParameters), call .parameters, opts [":", call .resultType]]

/-- The type of what an object holds under all keys of a type. -/
def indexSignature : Phrase :=
  all [opts [opt (any ["+", "-"]), "readonly"],
    enclosed "[" "]" (any [all [anyNameAs .identifier, typeMark],
      all [anyNameAs .typeIdentifier, "in", call .type, opts ["as", call .type]]]),
    opts [opt (any ["+", "-"]), "?"], opt typeMark]

/-- A member of an object type. -/
def typeMember : Phrase :=
  any [all [opts ["static", absent nameEnd], indexSignature],
    call .signature,
    all [opt "abstract", "new", call .signature],
    all [modifiers, propertyName, opt "?", any [call .signature, opt typeMark]]]

/-- The end of a member of an object type. -/
def typeMemberEnd : Phrase := any [semicolon .declaration, ",", ahead "\x7d"]

/-- A type that lists the members of an object. -/
def objectType : Phrase :=
  .node .objectType (all ["\x7b", inside .statement (all [
    many (any [all [typeMember, typeMemberEnd], ",", signAs .semicolon ";"]), "\x7d"])])

end Codemod.Syntax.Grammar
