import Mathlib.Logic.Function.Basic
import Stencil.Engine.Session

/-!
# Simulation — hosts that stay in step

Two hosts of different kinds are alike when they have the same ids for templates and the same html
in every element.  Writes and removals change one element of each in the same way, and an engine
sees nothing else of a host, so whatever is done to both, they give the same answers and stay alike.
A page is alike to one map from element ids to html.

* `Host.Alike`, `Host.LawfulRemoval` — hosts that look the same, and what a removal does;
* `Session.step_agrees`, `Session.run_agrees` — one action, and a whole run;
* `HtmlMap` — html under element ids and nothing else;
* `Page.run_refines_map` — a page does what the map of its elements does.
-/

namespace Stencil

namespace Host

/-- Two hosts that look the same. -/
structure Alike {H K : Type} [Host H] [Host K] (left : H) (right : K) : Prop where
  elementId : ∀ template, Host.elementId left template = Host.elementId right template
  html? : ∀ element, Host.html? left element = Host.html? right element

/-- A host where a removal takes away one element and nothing else, and hands out its html. -/
class LawfulRemoval (H : Type) [Host H] : Prop where
  html?_remove : ∀ (host : H) (target element : String),
    Host.html? (Host.remove host target).1 element =
      if element = target then none else Host.html? host element
  elementId_remove : ∀ (host : H) (target template : String),
    Host.elementId (Host.remove host target).1 template = Host.elementId host template
  removed_eq : ∀ (host : H) (target : String),
    (Host.remove host target).2 = Host.html? host target

/-- The same outcome on hosts that are alike. -/
structure Agree {H K : Type} [Host H] [Host K] (left : Engine.Drawn H) (right : Engine.Drawn K) :
    Prop where
  host : Alike left.host right.host
  outcome : left.outcome = right.outcome

namespace Alike

variable {H K L : Type} {M : Type → Type} [OrderedMap M] [Host H] [Host K] [Localizer L] {left : H}
  {right : K}

theorem fetch? (template : String) :
    Alike left right → Host.fetch? left template = Host.fetch? right template := by
  intro h
  rw [Host.fetch?, Host.fetch?, h.elementId, h.html?]

theorem render (engine : Engine L M) (template : String) (data : Option Context) :
    Alike left right →
      engine.render left template data = engine.render right template data := by
  intro h
  rw [Engine.render, Engine.render, h.fetch? template]

theorem remove [LawfulRemoval H] [LawfulRemoval K] (target : String) :
    Alike left right →
      Alike (Host.remove left target).1 (Host.remove right target).1 ∧
        (Host.remove left target).2 = (Host.remove right target).2 := by
  intro h
  refine ⟨⟨?_, ?_⟩, by rw [LawfulRemoval.removed_eq, LawfulRemoval.removed_eq, h.html?]⟩
  · intro template
    rw [LawfulRemoval.elementId_remove, LawfulRemoval.elementId_remove, h.elementId]
  · intro element
    rw [LawfulRemoval.html?_remove, LawfulRemoval.html?_remove, h.html?]

/-! ## Drawing -/

variable [LawfulHost H] [LawfulHost K]

theorem write (target html : String) :
    Alike left right → Alike (Host.write left target html) (Host.write right target html) := by
  intro h
  constructor
  · intro template
    rw [LawfulHost.elementId_write, LawfulHost.elementId_write, h.elementId]
  · intro element
    rw [LawfulHost.html?_write, LawfulHost.html?_write, h.html?]

theorem addTemplate (template text : String) :
    Alike left right →
      Alike (Host.addTemplate left template text) (Host.addTemplate right template text) := by
  intro h
  -- The text of a template is written like any html, where its id says.
  rw [Host.addTemplate, Host.addTemplate, h.elementId]
  exact h.write _ text

theorem fill (engine : Engine L M) (target template : String) (data : Option Context) :
    Alike left right →
      Agree (engine.fill left target template data) (engine.fill right target template data) := by
  intro h
  rw [Engine.fill, Engine.fill, h.render engine template data]
  cases engine.render right template data with
  | ok html =>
      exact ⟨h.write target html, rfl⟩
  | error error =>
      exact ⟨h, rfl⟩

theorem draw (engine : Engine L M) (entry : Registration) :
    Alike left right → Agree (engine.draw left entry) (engine.draw right entry) :=
  fun h => h.fill engine entry.target entry.template entry.data

/-- A registration that is drawn alike is kept or not kept alike. -/
theorem persist (engine : Engine L M) (entry : Registration) :
    Alike left right →
      (engine.persist left entry).1 = (engine.persist right entry).1 ∧
        Agree (engine.persist left entry).2 (engine.persist right entry).2 := by
  intro h
  have hdraw := h.draw engine entry
  simp only [Engine.persist, hdraw.outcome]
  cases (engine.draw right entry).outcome with
  | ok done => exact ⟨rfl, hdraw⟩
  | error error => exact ⟨rfl, hdraw⟩

end Alike

namespace Agree

variable {H K L : Type} {M : Type → Type} [OrderedMap M] [Host H] [Host K] [LawfulHost H]
  [LawfulHost K] [Localizer L] {first : Engine.Drawn H} {second : Engine.Drawn K}

/-- Drawing one more registration keeps hosts alike, and the first error the same. -/
theorem next (engine : Engine L M) (entry : Registration) :
    Agree first second → Agree (first.next engine entry) (second.next engine entry) := by
  intro h
  have hdraw := h.host.draw engine entry
  refine ⟨hdraw.host, ?_⟩
  simp only [Engine.Drawn.next, h.outcome, hdraw.outcome]

theorem drawAll (engine : Engine L M) (entries : List Registration) :
    Agree first second →
      Agree (entries.foldl (Engine.Drawn.next engine) first)
        (entries.foldl (Engine.Drawn.next engine) second) := by
  -- The hosts are half drawn, so the induction is on what is left to draw.
  induction entries generalizing first second with
  | nil =>
      exact id
  | cons entry entries ih =>
      intro h
      exact ih (h.next engine entry)

end Agree

theorem Alike.refresh {H K L : Type} {M : Type → Type} [OrderedMap M] [Host H] [Host K]
    [LawfulHost H] [LawfulHost K] [Localizer L] {left : H} {right : K} (engine : Engine L M) :
    Alike left right → Agree (engine.refresh left) (engine.refresh right) :=
  fun h => Agree.drawAll engine engine.registry.entries ⟨h, rfl⟩

end Host

/-! ## Actions and runs -/

namespace Session

open Host (Alike LawfulRemoval)

variable {H K : Type} {M : Type → Type} [OrderedMap M] [Host H] [Host K]

/-- The same engine on hosts that are alike. -/
structure InStep (left : Session H M) (right : Session K M) : Prop where
  engine : left.engine = right.engine
  host : Alike left.host right.host

variable [LawfulHost H] [LawfulRemoval H] [LawfulHost K] [LawfulRemoval K]

/-- An action is answered alike by sessions that are in step, and leaves them so. -/
theorem step_agrees {left : Session H M} {right : Session K M} (action : Action) :
    InStep left right →
      InStep (left.step action).1 (right.step action).1 ∧
        (left.step action).2 = (right.step action).2 := by
  rcases left with ⟨engine, left⟩
  rcases right with ⟨other, right⟩
  rintro ⟨hengine, hhost⟩
  obtain rfl : engine = other := hengine
  have h : Alike left right := hhost
  cases action with
  | addTemplate template text =>
      exact ⟨⟨rfl, h.addTemplate template text⟩, rfl⟩
  | write element html =>
      exact ⟨⟨rfl, h.write element html⟩, rfl⟩
  | remove element =>
      rcases h.remove element with ⟨hremoved, hhtml⟩
      exact ⟨⟨rfl, hremoved⟩, congrArg Answer.found hhtml⟩
  | elementId template =>
      exact ⟨⟨rfl, h⟩, congrArg Answer.text (h.elementId template)⟩
  | fetch template =>
      exact ⟨⟨rfl, h⟩, congrArg Answer.found (h.fetch? template)⟩
  | render template data =>
      exact ⟨⟨rfl, h⟩, congrArg Answer.rendered (h.render engine template data)⟩
  | fill target template data =>
      have hfill := h.fill engine target template data
      exact ⟨⟨rfl, hfill.host⟩, congrArg Answer.drawn hfill.outcome⟩
  | persist target template data =>
      rcases h.persist engine ⟨target, template, data⟩ with ⟨hengine, hdrawn⟩
      exact ⟨⟨hengine, hdrawn.host⟩, congrArg Answer.drawn hdrawn.outcome⟩
  | refresh =>
      have hdrawn := h.refresh engine
      exact ⟨⟨rfl, hdrawn.host⟩, congrArg Answer.drawn hdrawn.outcome⟩
  | switchLocale locale =>
      have hdrawn := h.refresh
        { engine with localizer := (engine.localizer.setLocale locale).1 }
      refine ⟨⟨rfl, hdrawn.host⟩, ?_⟩
      simp only [step, Engine.switchLocale, hdrawn.outcome]
  | insertText | insertTable | setLocale | resolve | clear | registrations | registration =>
      -- These do not touch the host.
      exact ⟨⟨rfl, h⟩, rfl⟩

/-- So is a whole run. -/
theorem run_agrees {left : Session H M} {right : Session K M} (actions : List Action) :
    InStep left right →
      InStep (left.run actions).1 (right.run actions).1 ∧
        (left.run actions).2 = (right.run actions).2 := by
  induction actions generalizing left right with
  | nil =>
      intro h
      exact ⟨h, rfl⟩
  | cons action actions ih =>
      intro h
      rcases step_agrees action h with ⟨hnext, hanswer⟩
      rcases ih hnext with ⟨hlast, hanswers⟩
      exact ⟨hlast, by simp only [run, hanswer, hanswers]⟩

end Session

/-! ## One map from element ids to html -/

/-- Html under element ids.  The text of a template stands under its id, behind a fixed text. -/
structure HtmlMap where
  templatePrefix : String
  html? : String → Option String

instance : Host HtmlMap where
  elementId map template := map.templatePrefix ++ template
  html? map := map.html?
  write map target html := { map with html? := Function.update map.html? target (some html) }
  remove map element :=
    ({ map with html? := Function.update map.html? element none }, map.html? element)

namespace Host

instance : LawfulHost HtmlMap where
  html?_write map target html element := Function.update_apply map.html? target (some html) element
  elementId_write _ _ _ _ := rfl
  ext {left right} sameIds sameElements := by
    have samePrefix : left.templatePrefix = right.templatePrefix := by
      simpa [Host.elementId] using sameIds ""
    have sameHtml : left.html? = right.html? := funext sameElements
    cases left
    cases right
    simp_all

instance : LawfulRemoval HtmlMap where
  html?_remove map target element := Function.update_apply map.html? target none element
  elementId_remove _ _ _ := rfl
  removed_eq _ _ := rfl

instance : LawfulRemoval Page where
  html?_remove page := Dict.get?_erase page.elements
  elementId_remove _ _ _ := rfl
  removed_eq _ _ := rfl

instance : LawfulRemoval (Dict String) where
  html?_remove := Dict.get?_erase
  elementId_remove _ _ _ := rfl
  removed_eq _ _ := rfl

end Host

namespace Page

open Host (Alike)

/-- The html of a page and what the ids of its templates start with. -/
def toMap (page : Page) : HtmlMap := ⟨page.templatePrefix, page.elements.get?⟩

theorem alike_toMap (page : Page) : Alike page page.toMap :=
  ⟨fun _ => rfl, fun _ => rfl⟩

/-- Where nothing stands before the names of templates, a page is alike to its elements. -/
theorem alike_elements {page : Page} : page.templatePrefix = "" → Alike page page.elements := by
  intro h
  refine ⟨fun template => ?_, fun _ => rfl⟩
  have hid : page.templatePrefix ++ template = template := by
    rw [h, String.empty_append]
  exact hid

theorem elementId_injective (page : Page) : Function.Injective (Host.elementId page) := by
  intro template other h
  apply String.toList_injective
  have hlists := congrArg String.toList h
  simpa [Host.elementId] using hlists

/-- Whatever is done to an engine and a page, the answers, the engine and the html of every element
are those that one map from element ids to html gives, where a template lives at its name behind the
prefix.  Without a prefix they are those of the dictionary of the elements. -/
theorem run_refines_map {M : Type → Type} [OrderedMap M] (page : Page) (engine : Engine Catalog M)
    (actions : List Action) :
    let paged := Session.run ⟨engine, page⟩ actions
    let mapped := Session.run ⟨engine, page.toMap⟩ actions
    let listed := Session.run ⟨engine, page.elements⟩ actions
    (paged.2 = mapped.2 ∧ Session.InStep paged.1 mapped.1) ∧
      (page.templatePrefix = "" → paged.2 = listed.2 ∧ Session.InStep paged.1 listed.1) ∧
      Function.Injective (Host.elementId page) ∧
      (∀ target html element, Host.html? (Host.write page target html) element =
        if element = target then some html else Host.html? page element) ∧
      (∀ template html,
        Host.fetch? (Host.write page (page.templatePrefix ++ template) html) template =
          some html) ∧
      (∀ element html, page.setHtml element html = Host.write page element html) ∧
      (∀ template text, page.addTemplate template text = Host.addTemplate page template text) ∧
      ∀ {L : Type} [Localizer L] (other : Engine L M),
        (∀ entry, Host.Agree (other.draw page entry) (other.draw page.toMap entry)) ∧
          Alike (other.refresh page).host (other.refresh page.toMap).host ∧
          (other.refresh page).outcome = (other.refresh page.toMap).outcome := by
  intro paged mapped listed
  refine ⟨?_, ?_, elementId_injective page, LawfulHost.html?_write page, ?_, ?_, ?_, ?_⟩
  · have hstart : Session.InStep (Session.mk engine page) (Session.mk engine page.toMap) :=
      ⟨rfl, alike_toMap page⟩
    rcases Session.run_agrees actions hstart with ⟨hstep, hanswers⟩
    exact ⟨hanswers, hstep⟩
  · intro hplain
    have hstart : Session.InStep (Session.mk engine page) (Session.mk engine page.elements) :=
      ⟨rfl, alike_elements hplain⟩
    rcases Session.run_agrees actions hstart with ⟨hstep, hanswers⟩
    exact ⟨hanswers, hstep⟩
  · intro template html
    rw [Host.fetch?, LawfulHost.elementId_write, LawfulHost.html?_write]
    exact if_pos rfl
  · intro element html
    exact (writeHtml_eq_setHtml page element html).symm
  · intro template text
    exact (writeHtml_eq_setHtml page _ text).symm
  · intro L _ other
    have hrefresh := (alike_toMap page).refresh other
    exact ⟨(alike_toMap page).draw other, hrefresh.host, hrefresh.outcome⟩

/-- A target that is the source of its own template is drawn from what was written last. -/
theorem run_refines_map_aliased :
    let page : Page :=
      ⟨"", ((∅ : Dict String).insert "a" ("1" ++ (Tag.value "n").toText)).insert "b"
        Tag.close.toText⟩
    let data := (∅ : Context).insert "n" (.text ("2" ++ (Tag.value "n").toText))
    let actions := [Action.persist "a" "a" (some data), .persist "a" "b" none, .refresh,
      .remove "b"]
    let paged : Session Page := ⟨{ localizer := ∅ }, page⟩
    let listed : Session (Dict String) := ⟨{ localizer := ∅ }, page.elements⟩
    page.templatePrefix = "" ∧ (paged.run actions).2 = (listed.run actions).2 ∧
      Session.InStep (paged.run actions).1 (listed.run actions).1 ∧
      Host.html? (paged.run actions).1.host "a" = some ("122" ++ (Tag.value "n").toText) := by
  intro page data actions paged listed
  have hplain : page.templatePrefix = "" := rfl
  have hdrawn : Host.html? (listed.run actions).1.host "a" =
      some ("122" ++ (Tag.value "n").toText) := by
    subst listed actions data page
    decide +kernel
  clear_value actions
  rcases (run_refines_map page paged.engine actions).2.1 hplain with ⟨hanswers, hstep⟩
  exact ⟨hplain, hanswers, hstep, (hstep.host.html? "a").trans hdrawn⟩

end Page
end Stencil
