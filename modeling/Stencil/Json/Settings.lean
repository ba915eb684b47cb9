import Stencil.Json.Library
import Stencil.Settings

/-!
# Settings as JSON — a record of texts, each of which may be left out
-/

namespace Stencil
namespace Settings

open Json (Tree Library)

variable [Library]

/-- The tree of settings. -/
def toTree (settings : Settings) : Tree :=
  Library.record [("template_prefix", .text settings.templatePrefix),
    ("locale", .text settings.locale), ("fallback_locale", .text settings.fallback)]

/-- The settings of a tree; fields that are left out have their defaults. -/
def ofTree? (tree : Tree) : Option Settings := do
  let defaults : Settings := {}
  let fields ← Library.fields? ["template_prefix", "locale", "fallback_locale"] tree
  let text? (name default : String) :=
    Library.field? (some default) Library.text? (fields.get? name)
  return {
    templatePrefix := ← text? "template_prefix" defaults.templatePrefix
    locale := ← text? "locale" defaults.locale
    fallback := ← text? "fallback_locale" defaults.fallback }

instance : Json.Form Settings := ⟨toTree, ofTree?⟩

end Settings
end Stencil
