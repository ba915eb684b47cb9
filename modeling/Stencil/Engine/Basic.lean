import Stencil.Engine.Host
import Stencil.Engine.Registry
import Stencil.Localization.Catalog
import Stencil.RenderError
import Stencil.Template.Basic

/-!
# The engine — localized templates, drawn once or again and again

An engine renders texts and stored templates: references are replaced first, then the text is
parsed and rendered.  What was drawn with `persist` is registered and drawn again by `refresh`, in
order and with the data it was registered with.

* `Engine.resolve`, `Engine.render` — a text, or a template of a host, rendered with data;
* `Engine.Drawn`, `Engine.fill`, `Engine.persist` — a render into a target, which may fail: what comes
  of it is told together with the host that it leaves;
* `Engine.refresh`, `Engine.switchLocale` — everything that is registered drawn again;
* `Engine.fill_of_error`, `Engine.persist_of_error` — a failure leaves host and engine alone.
-/

namespace Stencil

/-- A source of texts with the renders to be drawn again, each of them kept under its target. -/
structure Engine (L : Type) (M : Type → Type := KeyedList) [OrderedMap M] where
  localizer : L
  registry : Registry M := ∅
  keyed : registry.Keyed := by exact Registry.keyed_empty

namespace Engine

/-- What stands before the id of a template that the host does not have. -/
def missing : String := "###TEMPLATE_MISSING###:"

variable {L H : Type} {M : Type → Type} [OrderedMap M] [Localizer L] [Host H]

/-! ## Rendering -/

/-- The text rendered with data, once it is localized and parsed. -/
def renderText (engine : Engine L M) (text : String) (data : Option Context) :
    Except ParseError String :=
  (Template.parse (localize engine.localizer text)).map (·.render data)

/-- Renders a text that is given directly. -/
def resolve (engine : Engine L M) (text : String) (data : Option Context) :
    Except RenderError String :=
  (engine.renderText text data).mapError .direct

/-- Renders a template of a host; one that the host does not have is rendered as a visible
placeholder. -/
def render (engine : Engine L M) (host : H) (template : String) (data : Option Context) :
    Except RenderError String :=
  match Host.fetch? host template with
  | none => .ok (missing ++ template)
  | some text => (engine.renderText text data).mapError (.malformed template)

/-! ## Drawing -/

/-- A host with the outcome of drawing on it. -/
@[ext] structure Drawn (H : Type) where
  host : H
  outcome : Except RenderError Unit := .ok ()

/-- Renders a template into a target. -/
def fill (engine : Engine L M) (host : H) (target template : String) (data : Option Context) :
    Drawn H :=
  match engine.render host template data with
  | .ok html => { host := Host.write host target html }
  | .error error => { host, outcome := .error error }

/-- Draws a registration. -/
def draw (engine : Engine L M) (host : H) (entry : Registration) : Drawn H :=
  engine.fill host entry.target entry.template entry.data

/-- The engine with one more registration. -/
def register (engine : Engine L M) (entry : Registration) : Engine L M where
  localizer := engine.localizer
  registry := (engine.registry.insert entry).1
  keyed := Registry.keyed_insert entry engine.keyed

/-- Draws a registration, and keeps it to be drawn again unless that fails. -/
def persist (engine : Engine L M) (host : H) (entry : Registration) : Engine L M × Drawn H :=
  let drawn := engine.draw host entry
  match drawn.outcome with
  | .ok () => (engine.register entry, drawn)
  | .error _ => (engine, drawn)

/-- Draws one more registration; only the first error is kept. -/
def Drawn.next (engine : Engine L M) (drawn : Drawn H) (entry : Registration) : Drawn H :=
  let last := engine.draw drawn.host entry
  -- An earlier error passes through `bind`.
  { host := last.host, outcome := drawn.outcome.bind fun _ => last.outcome }

/-- Draws every registration again, in order, each on the host that the ones before it left; the
first error is the outcome, but the rest is still drawn. -/
def refresh (engine : Engine L M) (host : H) : Drawn H :=
  engine.registry.entries.foldl (Drawn.next engine) { host }

/-- Forgets every registration. -/
def clear (engine : Engine L M) : Engine L M where
  localizer := engine.localizer
  registry := engine.registry.clear
  keyed := Registry.keyed_clear engine.registry

/-- Makes a locale active if it has a table, draws every registration again either way, and tells
whether the locale is active now. -/
def switchLocale (engine : Engine Catalog M) (host : H) (locale : String) :
    Engine Catalog M × H × Except RenderError Bool :=
  let (catalog, switched) := engine.localizer.setLocale locale
  let engine := { engine with localizer := catalog }
  let drawn := engine.refresh host
  (engine, drawn.host, drawn.outcome.map fun _ => switched)

/-! ## Failures -/

section Failures

variable {engine : Engine L M} {host : H} {error : RenderError}

/-- A failed render leaves the host as it was. -/
theorem fill_of_error {target template : String} {data : Option Context} :
    (engine.fill host target template data).outcome = .error error →
      engine.fill host target template data = { host, outcome := .error error } := by
  intro h
  unfold fill at h ⊢
  cases rendered : engine.render host template data with
  | ok html => simp [rendered] at h
  | error cause => simpa [rendered] using h

/-- A registration that fails leaves the host and the engine as they were. -/
theorem persist_of_error {entry : Registration} :
    (engine.persist host entry).2.outcome = .error error →
      engine.persist host entry = (engine, { host, outcome := .error error }) := by
  intro h
  cases failed : (engine.draw host entry).outcome with
  | ok done => simp [persist, failed] at h
  | error cause =>
      have same : error = cause := by simpa [persist, failed] using h.symm
      have kept : engine.draw host entry = { host, outcome := .error error } :=
        fill_of_error (same ▸ failed)
      simp [persist, kept]

end Failures

end Engine
end Stencil
