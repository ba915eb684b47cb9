import Stencil.Template.Parser
import Stencil.Template.Render

/-!
# Templates — parsed texts that can be rendered any number of times

* `Template.parse` — the template of a text, or the error in it;
* `Template.render` — its text in a context; without one it comes back as it was written.
-/

namespace Stencil

/-- A parsed text. -/
structure Template where
  content : String
  nodes : List Node

namespace Template

/-- The nodes of a text, or the flaw in it. -/
def parseNodes (text : List Char) : Except Parser.Flaw (List Node) :=
  (Parser.nodes .refused (Lexeme.ofText 0 text)).map Parser.Branches.body

/-- The template of a text. -/
def parse (text : String) : Except ParseError Template :=
  match parseNodes text.toList with
  | .ok nodes => .ok ⟨text, nodes⟩
  | .error flaw => .error (ParseError.atOffset text.toList flaw.offset flaw.cause)

/-- The text of a template in a context. -/
def render (template : Template) (context : Option Context) : String :=
  Node.renderAll context template.nodes

/-- A value's tag gives way to the text of the value. -/
example :
    (parse "\x7b\x7b=name\x7d\x7d!").toOption.map
      (·.render (some (Dict.ofList [("name", .text "you")]))) = some "you!" := by
  decide +kernel

end Template
end Stencil
