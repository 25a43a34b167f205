import Codemod.Syntax.Grammar.Markup
import Codemod.Syntax.Grammar.Statements

/-!
# Reading a source

`parse` reads a source as a tree by the grammar of its dialect. What cannot be read is kept as a node
of its own at the end, so that every source has a tree.

Main statements:

* `parse_kind` says that the root of a tree is a program;
* `parse_stop` says that the root spans the whole source.
-/

namespace Codemod.Syntax

/-- The pattern of each rule in a dialect. -/
def Grammar.rules (d : Dialect) : Rule → Grammar.Phrase
  | .type => type
  | .plainType => plainType
  | .typeOperand => typeOperand
  | .typeArguments => typeArguments
  | .typeParameters => typeParameters
  | .objectType => objectType
  | .resultType => resultType
  | .signature => signature
  | .sequence => sequence
  | .expression => expression
  | .operand => operand d
  | .primary => primary d
  | .arrow => arrow
  | .target => target
  | .parameters => parameters
  | .functionBody => functionBody
  | .classBody => classBody
  | .decorator => decorator
  | .markup => markup
  | .declarators => declarators
  | .declaration => declaration
  | .block => block
  | .statement => statement

/-- The steps that are allowed for each byte of a source; no grammar rule takes as many. -/
def stepsPerByte : Nat := 2000

/-- Reads a source as far as the grammar goes. -/
def readProgram (d : Dialect) (source : Bytes) : Reading :=
  let start : Reading := ⟨0, source, []⟩
  (Pattern.run (Grammar.rules d) (stepsPerByte * (source.length + 1)) .statement Grammar.program
    start).getD start

/-- The tree of a source. -/
def parse (d : Dialect) (source : Bytes) : Tree :=
  let r := readProgram d source
  let unread := if r.rest.isEmpty then [] else [Tree.leaf .unread r.offset source.length]
  .node .program none 0 source.length (r.found.reverse ++ unread)

/-- The root of a tree is a program. -/
@[simp] theorem parse_kind (d : Dialect) (source : Bytes) : (parse d source).kind = .program := rfl

/-- The root spans the whole source. -/
@[simp] theorem parse_stop (d : Dialect) (source : Bytes) : (parse d source).stop = source.length := rfl

end Codemod.Syntax
