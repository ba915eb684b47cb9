import Stencil.Engine.Session
import Stencil.Proofs.Redraw
import Stencil.Proofs.Registration

/-!
# History — what a session has registered, and what drawing does to its host

A session remembers the renders that were registered with success since it was last cleared, and no
other action has any influence on them.  An action that renders into a target either changes that
one element of the host, or fails and changes nothing at all.

* `Session.events` — the actions of a run with their answers;
* `Session.registered` — the history of registrations that these tell;
* `Session.registry_step`, `Session.registry_run` — what an action does to the registry, and a run;
* `Session.registry_holds` — so the registry holds what is remembered;
* `Action.Draws`, `Session.step_of_draws` — what rendering into a target does to a session;
* `Session.run_registers_history` — a registry is its history, whatever else was done or failed.
-/

namespace Stencil

/-- The registrations since the last clearing, with one more action and its answer. -/
def remember (history : List Registration) : Action × Answer → List Registration
  | (.clear, _) => []
  | (.persist target template data, .drawn (.ok ())) => history ++ [⟨target, template, data⟩]
  | _ => history

namespace Registry

variable {M : Type → Type} [OrderedMap M]

/-- The registry after an action and its answer. -/
def after (registry : Registry M) : Action × Answer → Registry M
  | (.clear, _) => registry.clear
  | (.persist target template data, .drawn (.ok ())) =>
      (registry.insert ⟨target, template, data⟩).1
  | _ => registry

/-- An event changes a registry as it is remembered. -/
theorem Holds.after {registry : Registry M} {history : List Registration}
    (event : Action × Answer) :
    registry.Holds history → (registry.after event).Holds (remember history event) := by
  intro h
  unfold remember Registry.after
  split
  · exact holds_nil (keyed_clear registry) (entries_clear registry)
  · exact h.insert _
  · exact h

end Registry

/-- An action that renders a registration into its target. -/
inductive Action.Draws (entry : Registration) : Action → Prop where
  | fill : Draws entry (.fill entry.target entry.template entry.data)
  | persist : Draws entry (.persist entry.target entry.template entry.data)

namespace Session

variable {H : Type} {M : Type → Type} [OrderedMap M] [Host H]

/-! ## Runs -/

theorem run_cons (session : Session H M) (action : Action) (actions : List Action) :
    session.run (action :: actions) =
      (((session.step action).1.run actions).1,
        (session.step action).2 :: ((session.step action).1.run actions).2) :=
  rfl

/-- The actions of a run with their answers. -/
def events (session : Session H M) (actions : List Action) : List (Action × Answer) :=
  actions.zip (session.run actions).2

theorem events_cons (session : Session H M) (action : Action) (actions : List Action) :
    session.events (action :: actions) =
      (action, (session.step action).2) :: (session.step action).1.events actions :=
  rfl

/-- The successful registrations of a run since it was last cleared, in order. -/
def registered (session : Session H M) (actions : List Action) : List Registration :=
  (session.events actions).foldl remember []

/-! ## Registries -/

/-- Only clearing and successful registrations change a registry. -/
theorem registry_step (session : Session H M) (action : Action) :
    (session.step action).1.engine.registry =
      session.engine.registry.after (action, (session.step action).2) := by
  cases action with
  | persist target template data =>
      simp only [step, Engine.persist]
      cases houtcome : (session.engine.draw session.host ⟨target, template, data⟩).outcome <;>
        simp only [houtcome] <;> rfl
  | _ => rfl

theorem registry_run (session : Session H M) (actions : List Action) :
    (session.run actions).1.engine.registry =
      (session.events actions).foldl Registry.after session.engine.registry := by
  induction actions generalizing session with
  | nil => rfl
  | cons action actions ih =>
      -- The first event gives the registry that the rest of the run starts from.
      rw [run_cons, events_cons, List.foldl_cons, ← registry_step, ih]

/-- A registry holds what its session remembers. -/
theorem registry_holds {session : Session H M} (actions : List Action) :
    session.engine.registry.entries = [] →
      (session.run actions).1.engine.registry.Holds (session.registered actions) := by
  intro hfresh
  rw [registry_run, registered]
  have hstart : session.engine.registry.Holds [] := Registry.holds_nil session.engine.keyed hfresh
  generalize session.events actions = events
  generalize session.engine.registry = registry at hstart ⊢
  generalize ([] : List Registration) = history at hstart ⊢
  induction events generalizing registry history with
  | nil => exact hstart
  | cons event events ih => exact ih _ _ (hstart.after event)

/-! ## Rendering into a target -/

theorem step_of_draws_ok {session : Session H M} {action : Action} {entry : Registration}
    {html : String} :
    action.Draws entry → session.engine.preview session.host entry = .ok html →
      (session.step action).1.host = Host.write session.host entry.target html ∧
        (session.step action).2 = .drawn (.ok ()) := by
  intro hdraws hok
  have hdraw := Engine.draw_of_ok hok
  cases hdraws with
  | fill =>
      unfold Engine.draw at hdraw
      simp [step, hdraw]
  | persist => simp [step, Engine.persist, hdraw]

/-- An action that renders into a target and fails leaves everything as it was. -/
theorem step_of_draws_error {session : Session H M} {action : Action} {entry : Registration}
    {error : RenderError} :
    action.Draws entry → session.engine.preview session.host entry = .error error →
      session.step action = (session, .drawn (.error error)) := by
  intro hdraws hfailed
  have hdraw := Engine.draw_of_error hfailed
  cases hdraws with
  | fill =>
      unfold Engine.draw at hdraw
      simp [step, hdraw]
  | persist =>
      have hpersist : session.engine.persist session.host entry =
          (session.engine, { host := session.host, outcome := .error error }) :=
        Engine.persist_of_error (by simp [Engine.persist, hdraw])
      simp [step, hpersist]

/-! ## What a run registers -/

/-- After any run from an empty registry, the registrations are those that succeeded since the last
clearing: one for each target, in the order of the first ones, and the last one for it.  And then an
action that renders into a target either fails and changes nothing, or it succeeds and changes that
one element of the host, to what the template was rendered as. -/
theorem run_registers_history [LawfulHost H] (session : Session H M)
    (fresh : session.engine.registry.entries = []) (actions : List Action) :
    let reached := (session.run actions).1
    let history := session.registered actions
    reached.engine.registry.entries.map some =
      (history.map Registration.target).eraseDups.map (latest? history) ∧
    ∀ action entry, action.Draws entry →
      let next := (reached.step action).1
      let answer := (reached.step action).2
      (answer = .drawn (.ok ()) ∨ ∃ error, answer = .drawn (.error error)) ∧
      (∀ error, answer = .drawn (.error error) → next = reached) ∧
      (answer = .drawn (.ok ()) →
        ∃ html, reached.engine.render reached.host entry.template entry.data = .ok html ∧
          (Host.fetch? reached.host entry.template = none →
            html = Engine.missing ++ entry.template) ∧
          (∀ element, Host.html? next.host element =
            if element = entry.target then some html else Host.html? reached.host element) ∧
          ∀ template, Host.elementId next.host template =
            Host.elementId reached.host template) := by
  intro reached history
  constructor
  · exact (registry_holds actions fresh).entries
  · intro action entry hdraws next answer
    -- Both kinds of actions do with the render what its outcome tells them to.
    cases hpreview : reached.engine.preview reached.host entry with
    | error error =>
        have hstep : reached.step action = (reached, .drawn (.error error)) :=
          step_of_draws_error hdraws hpreview
        have hnext : next = reached := congrArg Prod.fst hstep
        have hanswer : answer = .drawn (.error error) := congrArg Prod.snd hstep
        refine ⟨.inr ⟨error, hanswer⟩, fun _ _ => hnext, ?_⟩
        intro hok
        simp [hanswer] at hok
    | ok html =>
        rcases step_of_draws_ok hdraws hpreview with ⟨hhost, hanswer⟩
        refine ⟨.inl hanswer, ?_, ?_⟩
        · intro error hfailed
          have : answer = .drawn (.ok ()) := hanswer
          simp [this] at hfailed
        · intro _
          refine ⟨html, hpreview, ?_, ?_, ?_⟩
          · intro hfetch
            have hmissing : reached.engine.preview reached.host entry =
                .ok (Engine.missing ++ entry.template) :=
              Engine.preview_of_missing hfetch
            exact Except.ok.inj (hpreview.symm.trans hmissing)
          · intro element
            exact (congrArg (Host.html? · element) hhost).trans (LawfulHost.html?_write ..)
          · intro template
            exact (congrArg (Host.elementId · template) hhost).trans
              (LawfulHost.elementId_write ..)

theorem run_registers_history_mixed :
    let session : Session (Dict String) :=
      ⟨{ localizer := ∅ }, (∅ : Dict String).insert "bad" Tag.close.toText⟩
    let actions : List Action := [.persist "z" "a" none, .clear, .persist "x" "a" none,
      .persist "y" "b" none, .persist "x" "bad" none, .persist "x" "c" none, .refresh]
    let reached := (session.run actions).1
    session.engine.registry.entries = [] ∧
      reached.engine.registry.entries = [⟨"x", "c", none⟩, ⟨"y", "b", none⟩] ∧
      (reached.step (.persist "y" "bad" none)).1 = reached ∧
      ∀ element, Host.html? (reached.step (.fill "y" "d" none)).1.host element =
        if element = "y" then some (Engine.missing ++ "d") else Host.html? reached.host element := by
  intro session actions reached
  rcases run_registers_history session rfl actions with ⟨hentries, hdraws⟩
  refine ⟨rfl, ?_, ?_, ?_⟩
  · -- The failure for `x` is not in the history, and `x` keeps its place when it is replaced.
    have hhistory : session.registered actions =
        [⟨"x", "a", none⟩, ⟨"y", "b", none⟩, ⟨"x", "c", none⟩] := by
      subst session actions
      with_unfolding_all rfl
    have hsame : reached.engine.registry.entries.map some =
        [⟨"x", "c", none⟩, ⟨"y", "b", none⟩].map some := by
      rw [hentries, hhistory]
      rfl
    exact (List.map_inj_right fun _ _ => Option.some.inj).1 hsame
  · have hanswer : ∃ error, (reached.step (.persist "y" "bad" none)).2 = .drawn (.error error) := by
      subst reached session actions
      exact ⟨_, by with_unfolding_all rfl⟩
    rcases hanswer with ⟨error, hanswer⟩
    exact (hdraws _ ⟨"y", "bad", none⟩ .persist).2.1 error hanswer
  · have hanswer : (reached.step (.fill "y" "d" none)).2 = .drawn (.ok ()) := by
      subst reached session actions
      with_unfolding_all rfl
    have hfetch : Host.fetch? reached.host "d" = none := by
      subst reached session actions
      with_unfolding_all rfl
    rcases (hdraws _ ⟨"y", "d", none⟩ .fill).2.2 hanswer with ⟨html, _, hmissing, helements, _⟩
    obtain rfl := hmissing hfetch
    simpa only [reached] using helements

end Session
end Stencil
