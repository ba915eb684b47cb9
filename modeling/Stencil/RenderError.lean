import Stencil.ParseError

/-!
# Render errors — parse errors with the template they come from
-/

namespace Stencil

/-- Why nothing was rendered. -/
inductive RenderError where
  /-- A text given directly is no template. -/
  | direct (error : ParseError)
  /-- The text stored for a template is none. -/
  | malformed (template : String) (error : ParseError)
  deriving DecidableEq, Repr

namespace RenderError

/-- The parse error behind a render error. -/
def parseError : RenderError → ParseError
  | direct error => error
  | malformed _ error => error

/-- The words for a render error. -/
def message : RenderError → String
  | direct error => error.message
  | malformed template error => "Malformed template '" ++ template ++ "': " ++ error.message

end RenderError
end Stencil
