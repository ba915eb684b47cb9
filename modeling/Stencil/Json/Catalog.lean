import Stencil.Json.Library
import Stencil.Localization.Catalog

/-!
# Catalogs as JSON — tables by locale, with the two locales

* a form for whole catalogs, a record whose fields may each be left out;
* `Catalog.ofTables?` — a catalog from a document that holds nothing but tables.
-/

namespace Stencil
namespace Catalog

open Json (Tree Library)

/-- The tree of tables, with locales and keys in order. -/
def tablesTree (tables : Dict (Dict String)) : Tree :=
  .ofDict (Tree.ofDict Tree.text) tables

variable [Library]

/-- The tables of a tree. -/
def tables? : Tree → Option (Dict (Dict String)) := Library.dict? (Library.dict? Library.text?)

/-- The tree of a catalog. -/
def toTree (catalog : Catalog) : Tree :=
  Library.record [("tables", tablesTree catalog.tables), ("locale", .text catalog.locale),
    ("fallback_locale", .text catalog.fallback)]

/-- The catalog of a tree; fields that are left out have their defaults. -/
def ofTree? (tree : Tree) : Option Catalog := do
  let fields ← Library.fields? ["tables", "locale", "fallback_locale"] tree
  let text? (name default : String) :=
    Library.field? (some default) Library.text? (fields.get? name)
  return {
    tables := ← Library.field? (some empty.tables) tables? (fields.get? "tables")
    locale := ← text? "locale" empty.locale
    fallback := ← text? "fallback_locale" empty.fallback }

instance : Json.Form Catalog := ⟨toTree, ofTree?⟩

/-- The catalog with the tables of a document and the locales of the settings. -/
def ofTables? (document : String) (settings : Settings) : Option Catalog := do
  let tables ← (Library.read? document).bind tables?
  return { ofSettings settings with tables := tables }

end Catalog
end Stencil
