import Stencil.Json.ParseError
import Stencil.RenderError

/-!
# Render errors as JSON — a named alternative with a parse error inside
-/

namespace Stencil
namespace RenderError

open Json (Tree Library)

variable [Library]

/-- The tree of a render error. -/
def toTree : RenderError → Tree
  | direct error => Library.alternative "Parse" error.toTree
  | malformed template error =>
      Library.alternative "Malformed"
        (Library.record [("template_id", .text template), ("source", error.toTree)])

/-- The render error of a tree. -/
def ofTree? (tree : Tree) : Option RenderError := do
  match ← Library.alternative? tree with
  | ("Parse", some content) => return direct (← ParseError.ofTree? content)
  | ("Malformed", some content) => do
      let fields ← Library.fields? ["template_id", "source"] content
      let template ← Library.field? none Library.text? (fields.get? "template_id")
      let error ← Library.field? none ParseError.ofTree? (fields.get? "source")
      return malformed template error
  | _ => none

instance : Json.Form RenderError := ⟨toTree, ofTree?⟩

end RenderError
end Stencil
