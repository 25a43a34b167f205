import Codemod.Syntax.Pattern

/-!
# The rules of the grammar

The rules that patterns refer to by name, and the pieces that many patterns share: names, marks and
lists.
-/

namespace Codemod.Syntax

/-- The rules of the grammar that refer to each other. -/
inductive Rule where
  | type
  | plainType
  | typeOperand
  | typeArguments
  | typeParameters
  | objectType
  | resultType
  | signature
  | sequence
  | expression
  | operand
  | primary
  | arrow
  | target
  | parameters
  | functionBody
  | classBody
  | decorator
  | markup
  | declarators
  | declaration
  | block
  | statement
  deriving DecidableEq, Repr

namespace Grammar

open Pattern

/-- A pattern over the rules of the grammar. -/
abbrev Phrase := Pattern Rule

/-- The pattern of a rule. -/
abbrev call (r : Rule) : Phrase := .rule r

/-- Words that can name nothing. -/
def reservedWords : List Bytes :=
  ["break", "case", "catch", "class", "const", "continue", "debugger", "default", "delete", "do",
    "else", "enum", "extends", "false", "finally", "for", "function", "if", "import", "in",
    "instanceof", "new", "null", "return", "super", "switch", "this", "throw", "true", "try",
    "typeof", "var", "void", "while", "with"].map Bytes.ofString

/-- A name that something can be bound to. -/
def nameAs (k : Kind) : Phrase := .token (.name reservedWords) k

/-- Any word as a name. -/
def anyNameAs (k : Kind) : Phrase := .token (.name []) k

/-- The name of a value. -/
def identifier : Phrase := nameAs .identifier

/-- A text between quotes. -/
def string : Phrase := .token .quoted .string

/-- A number. -/
def number : Phrase := .token .number .number

/-- The equals sign, which begins a value. -/
def equals : Phrase := signBut "=" ["==", "=>"]

/-- A value that is given after the equals sign. -/
def initializer : Phrase := all [equals, call .expression]

/-- A type after a colon. -/
def typeMark : Phrase := all [":", call .type]

/-- Marks that follow the name of a member, so that a word before them is that name itself and no
modifier. -/
def nameEnd : Phrase := any ["(", ")", "=", ";", ":", "?", "!", ",", "\x7d", "<"]

/-- Words that can stand before the name of a member, and the mark of a generator. -/
def modifiers : Phrase :=
  let one (w : String) : Phrase := all [sign w, absent nameEnd, goesOn .declaration]
  many (any (["public", "private", "protected", "static", "override", "readonly", "abstract",
    "declare", "accessor", "async", "get", "set"].map one ++ [sign "*"]))

/-- An expression between square brackets. -/
def computed : Phrase := enclosed "[" "]" (call .expression)

/-- The name of a property or a member. -/
def propertyName : Phrase :=
  any [anyNameAs .propertyName, string, number, .token .privateName .privateName, computed]

/-- A name with the names of what holds it before it. -/
def qualifiedName : Phrase :=
  .group .qualifiedName (all [identifier, many (all [".", anyNameAs .propertyName])])

end Grammar
end Codemod.Syntax
