import Codemod.Syntax.Rule

/-!
# The grammar of markup

Elements stand between tags, and what stands between two tags is text, another element, or an
expression in braces.
-/

namespace Codemod.Syntax.Grammar

open Pattern

/-- A part of a tag that refers to something by its name. -/
def markupName : Phrase := .token .markupName .identifier

/-- What a tag refers to: a name, a member of something named, or a name in a space of names. -/
def tagName : Phrase :=
  .group .qualifiedName (all [markupName,
    any [all [":", markupName], many (all [".", anyNameAs .propertyName])]])

/-- An expression in braces. -/
def embedded : Phrase := enclosed "\x7b" "\x7d" (opt (all [opt "...", call .sequence]))

/-- What a tag gives to its element. -/
def tagAttribute : Phrase :=
  any [embedded,
    all [any [all [markupName, ":", markupName], .token .markupName .propertyName],
      opts ["=", any [.token .markupQuoted .string, embedded, call .markup]]]]

/-- What stands in a tag behind what it refers to. -/
def tagRest : Phrase := all [opt (call .typeArguments), many tagAttribute]

/-- An element, or elements without one around them. An element of a single tag is named by what the
tag refers to. -/
def markup : Phrase :=
  let content : Phrase :=
    all [">", many (any [.glued .markupText .markupText, embedded, call .markup]), "<", "/"]
  .node .markup (all ["<",
    any [all [part .name tagName, tagRest, "/", ">"],
      all [tagName, tagRest, content, tagName, ">"],
      all [content, ">"]]])

end Codemod.Syntax.Grammar
