import Stencil.Dict.Lemmas
import Stencil.Settings

/-!
# Hosts — where template texts come from and rendered text goes

A host has elements with an id and some html.  The text of a template is the html of one of them.

* `Host` — what an engine needs of a host;
* `LawfulHost` — what a write does, and when two hosts are the same;
* `Page` — elements where templates are set apart by what their ids start with;
* a plain dictionary, where a template's id is the id of its element.
-/

namespace Stencil

/-- Something with elements that can be read and written. -/
class Host (H : Type) where
  /-- The id of the element that holds the text of a template. -/
  elementId : H → String → String
  /-- The html of an element. -/
  html? : H → String → Option String
  /-- Writes the html of an element, which is created if need be. -/
  write : H → String → String → H
  /-- Removes an element, and hands out the html that it had. -/
  remove : H → String → H × Option String

/-- The text of a template. -/
def Host.fetch? {H : Type} [Host H] (host : H) (template : String) : Option String :=
  html? host (elementId host template)

/-- Writes the text of a template. -/
def Host.addTemplate {H : Type} [Host H] (host : H) (template text : String) : H :=
  write host (elementId host template) text

/-- A host where a write changes one element and nothing else, and of which there is only one with
given elements and given ids for templates. -/
class LawfulHost (H : Type) [Host H] : Prop where
  html?_write : ∀ (host : H) (target html element : String),
    Host.html? (Host.write host target html) element =
      if element = target then some html else Host.html? host element
  elementId_write : ∀ (host : H) (target html template : String),
    Host.elementId (Host.write host target html) template = Host.elementId host template
  ext : ∀ {left right : H},
    (∀ template, Host.elementId left template = Host.elementId right template) →
      (∀ element, Host.html? left element = Host.html? right element) → left = right

instance : Host (Dict String) where
  elementId _ template := template
  html? := Dict.get?
  write := Dict.insert
  remove := Dict.remove

instance : LawfulHost (Dict String) where
  html?_write := Dict.get?_insert
  elementId_write _ _ _ _ := rfl
  ext _ sameElements := Dict.ext sameElements

/-- Elements with their html, and what the ids of those that hold templates start with. -/
structure Page where
  templatePrefix : String
  elements : Dict String
  deriving DecidableEq

namespace Page

/-- A page without elements. -/
def ofSettings (settings : Settings) : Page := ⟨settings.templatePrefix, ∅⟩

/-- The page with html in an element, whatever was there. -/
def setHtml (page : Page) (element html : String) : Page :=
  { page with elements := page.elements.insert element html }

/-- The page with the text of a template. -/
def addTemplate (page : Page) (template text : String) : Page :=
  page.setHtml (page.templatePrefix ++ template) text

/-- Writes the html of an element: that of an element that is there is replaced in its place. -/
def writeHtml (page : Page) (element html : String) : Page :=
  if page.elements.contains element then
    { page with elements := page.elements.replace element html }
  else
    page.setHtml element html

instance : Host Page where
  elementId page template := page.templatePrefix ++ template
  html? page element := page.elements.get? element
  write := writeHtml
  remove page element :=
    let (elements, html) := page.elements.remove element
    ({ page with elements := elements }, html)

/-- Replacing what is there and putting it there come to the same. -/
theorem writeHtml_eq_setHtml (page : Page) (element html : String) :
    page.writeHtml element html = page.setHtml element html := by
  unfold writeHtml
  split
  · rename_i known
    have same : page.elements.replace element html = page.elements.insert element html := by
      refine Dict.ext fun wanted => ?_
      obtain ⟨old, found⟩ := Option.isSome_iff_exists.1 known
      simp [Dict.get?_replace, Dict.get?_insert, found]
    rw [setHtml, same]
  · rfl

instance : LawfulHost Page where
  html?_write page target html element := by
    have written : Host.write page target html = page.setHtml target html :=
      writeHtml_eq_setHtml page target html
    rw [written]
    exact Dict.get?_insert page.elements target html element
  elementId_write page target html _ := by
    have written : Host.write page target html = page.setHtml target html :=
      writeHtml_eq_setHtml page target html
    rw [written]
    rfl
  ext {left right} sameIds sameElements := by
    -- What ids start with is the id for the empty name.
    have samePrefix : left.templatePrefix = right.templatePrefix := by
      simpa [Host.elementId] using sameIds ""
    have sameDict : left.elements = right.elements := Dict.ext sameElements
    cases left
    cases right
    simp_all

end Page
end Stencil
