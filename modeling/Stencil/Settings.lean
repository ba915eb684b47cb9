/-!
# Settings — what an engine and its page start with
-/

namespace Stencil

/-- The settings of an engine and its page. -/
structure Settings where
  /-- What stands before a template's id in the id of the element that holds its text. -/
  templatePrefix : String := "tmpl-"
  /-- The locale whose texts are used until another one is chosen. -/
  locale : String := "en"
  /-- The locale that is asked for a text when the active one has none. -/
  fallback : String := "en"
  deriving DecidableEq, Repr

end Stencil
