import Stencil.Engine.Basic

/-!
# Sessions — an engine and its host, action by action

* `Action` — what can be done to an engine with a catalog and to its host;
* `Session.step`, `Session.run` — the session after an action, or after several, with what they
  answer.
-/

namespace Stencil

/-- Something done to an engine or its host. -/
inductive Action where
  | addTemplate (template text : String)
  | write (element html : String)
  | remove (element : String)
  | elementId (template : String)
  | fetch (template : String)
  | insertText (locale key text : String)
  | insertTable (locale : String) (entries : List (String × String))
  | setLocale (locale : String)
  | resolve (text : String) (data : Option Context)
  | render (template : String) (data : Option Context)
  | fill (target template : String) (data : Option Context)
  | persist (target template : String) (data : Option Context)
  | refresh
  | switchLocale (locale : String)
  | clear
  | registrations
  | registration (target : String)

/-- What an action answers. -/
inductive Answer where
  | done
  | text (text : String)
  | found (text : Option String)
  | flag (value : Bool)
  | rendered (outcome : Except RenderError String)
  | drawn (outcome : Except RenderError Unit)
  | switched (outcome : Except RenderError Bool)
  | registrations (entries : List Registration)
  | registration (entry : Option Registration)

/-- An engine with a catalog, and its host. -/
structure Session (H : Type) (M : Type → Type := KeyedList) [OrderedMap M] where
  engine : Engine Catalog M
  host : H

namespace Session

variable {H : Type} {M : Type → Type} [OrderedMap M] [Host H]

/-- The session after an action, and the answer. -/
def step (session : Session H M) : Action → Session H M × Answer
  | .addTemplate template text =>
      ({ session with host := Host.addTemplate session.host template text }, .done)
  | .write element html => ({ session with host := Host.write session.host element html }, .done)
  | .remove element =>
      let (host, html) := Host.remove session.host element
      ({ session with host := host }, .found html)
  | .elementId template => (session, .text (Host.elementId session.host template))
  | .fetch template => (session, .found (Host.fetch? session.host template))
  | .insertText locale key text =>
      let catalog := session.engine.localizer.insert locale key text
      ({ session with engine := { session.engine with localizer := catalog } }, .done)
  | .insertTable locale entries =>
      let catalog := session.engine.localizer.insertTable locale entries
      ({ session with engine := { session.engine with localizer := catalog } }, .done)
  | .setLocale locale =>
      let (catalog, switched) := session.engine.localizer.setLocale locale
      ({ session with engine := { session.engine with localizer := catalog } },
        .flag switched)
  | .resolve text data => (session, .rendered (session.engine.resolve text data))
  | .render template data =>
      (session, .rendered (session.engine.render session.host template data))
  | .fill target template data =>
      let drawn := session.engine.fill session.host target template data
      ({ session with host := drawn.host }, .drawn drawn.outcome)
  | .persist target template data =>
      let (engine, drawn) := session.engine.persist session.host ⟨target, template, data⟩
      (⟨engine, drawn.host⟩, .drawn drawn.outcome)
  | .refresh =>
      let drawn := session.engine.refresh session.host
      ({ session with host := drawn.host }, .drawn drawn.outcome)
  | .switchLocale locale =>
      let (engine, host, outcome) := session.engine.switchLocale session.host locale
      (⟨engine, host⟩, .switched outcome)
  | .clear => ({ session with engine := session.engine.clear }, .done)
  | .registrations => (session, .registrations session.engine.registry.entries)
  | .registration target => (session, .registration (session.engine.registry.get? target))

/-- The session after several actions, and their answers. -/
def run (session : Session H M) : List Action → Session H M × List Answer
  | [] => (session, [])
  | action :: actions =>
      let (next, answer) := session.step action
      let (last, answers) := next.run actions
      (last, answer :: answers)

end Session
end Stencil
