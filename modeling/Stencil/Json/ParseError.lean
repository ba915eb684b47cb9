import Stencil.Json.Library
import Stencil.ParseError

/-!
# Parse errors as JSON — a record with a named alternative for the cause
-/

namespace Stencil
namespace ParseError

open Json (Tree Library)

variable [Library]

/-- The tree of a cause. -/
def Cause.toTree : Cause → Tree
  | unclosedBlock tag => Library.alternative "UnclosedBlock" (Library.record [("tag", .text tag)])
  | unexpectedTag tag => Library.alternative "UnexpectedTag" (Library.record [("tag", .text tag)])
  | misplacedSeparator => Library.alternative "MisplacedSeparator" none
  | duplicateElse => Library.alternative "DuplicateElse" none
  | notAnOpeningTag found =>
      Library.alternative "NotAnOpeningTag" (Library.record [("found", .text found)])

/-- The only field of a record, a text. -/
def onlyText? (name : String) (content : Option Tree) : Option String := do
  let fields ← Library.fields? [name] (← content)
  Library.field? none Library.text? (fields.get? name)

/-- The cause of a tree. -/
def Cause.ofTree? (tree : Tree) : Option Cause := do
  match ← Library.alternative? tree with
  | ("UnclosedBlock", content) => return unclosedBlock (← onlyText? "tag" content)
  | ("UnexpectedTag", content) => return unexpectedTag (← onlyText? "tag" content)
  | ("MisplacedSeparator", content) =>
      if Library.isBare content then some misplacedSeparator else none
  | ("DuplicateElse", content) => if Library.isBare content then some duplicateElse else none
  | ("NotAnOpeningTag", content) => return notAnOpeningTag (← onlyText? "found" content)
  | _ => none

/-- The tree of a parse error. -/
def toTree (error : ParseError) : Tree :=
  Library.record [("line", .natural error.position.line),
    ("column", .natural error.position.column), ("kind", error.cause.toTree)]

/-- The parse error of a tree. -/
def ofTree? (tree : Tree) : Option ParseError := do
  let fields ← Library.fields? ["line", "column", "kind"] tree
  let line ← Library.field? none Library.word? (fields.get? "line")
  let column ← Library.field? none Library.word? (fields.get? "column")
  let cause ← Library.field? none Cause.ofTree? (fields.get? "kind")
  return ⟨⟨line, column⟩, cause⟩

instance : Json.Form ParseError := ⟨toTree, ofTree?⟩

end ParseError
end Stencil
