import Stencil.Proofs.History

/-!
# Replay — a registration is drawn again as it was drawn first

What a registration is rendered as depends on its template, on its data and on the texts of the
active locale.  The data is kept with it through everything that is done to a session.  With the
template and the texts as they were, a redraw therefore brings back what was first drawn.

* `Supersedes` — events after which a target has another registration, or none;
* `Registry.get?_foldl_after` — any others leave the registration of the target alone;
* `Action.Redraws`, `Session.step_of_redraws` — actions that draw every registration again;
* `Session.redraw_reproduces` — a redraw shows what the registration showed.
-/

namespace Stencil

/-- After an event of this kind, a target has another registration or none at all. -/
def Supersedes (target : String) : Action × Answer → Prop
  | (.clear, _) => True
  | (.persist other _ _, .drawn (.ok ())) => other = target
  | _ => False

namespace Registry

variable {M : Type → Type} [OrderedMap M]

theorem get?_after {registry : Registry M} {target : String} {event : Action × Answer} :
    ¬ Supersedes target event → (registry.after event).get? target = registry.get? target := by
  intro h
  unfold after
  split
  · exact absurd trivial h
  · rw [get?_insert, if_neg (Ne.symm h)]
  · rfl

theorem get?_foldl_after {registry : Registry M} {target : String}
    {events : List (Action × Answer)} :
    (∀ event ∈ events, ¬ Supersedes target event) →
      (events.foldl after registry).get? target = registry.get? target := by
  induction events generalizing registry with
  | nil =>
      intro _
      rfl
  | cons event events ih =>
      intro h
      rw [List.foldl_cons, ih fun later hmem => h later (List.mem_cons_of_mem _ hmem)]
      exact get?_after (h event List.mem_cons_self)

end Registry

/-- An action that draws every registration again. -/
inductive Action.Redraws : Action → Prop where
  | refresh : Redraws .refresh
  | switchLocale (locale : String) : Redraws (.switchLocale locale)

namespace Session

variable {H : Type} {M : Type → Type} [OrderedMap M] [Host H]

/-! ## Texts -/

theorem fallback_step (session : Session H M) (action : Action) :
    (session.step action).1.engine.localizer.fallback = session.engine.localizer.fallback := by
  cases action with
  | setLocale locale => exact Catalog.fallback_setLocale session.engine.localizer locale
  | switchLocale locale => exact Catalog.fallback_setLocale session.engine.localizer locale
  | persist target template data =>
      simp only [step, Engine.persist]
      cases (session.engine.draw session.host ⟨target, template, data⟩).outcome <;> rfl
  | _ => rfl

/-- No action changes the fallback locale. -/
theorem fallback_run (session : Session H M) (actions : List Action) :
    (session.run actions).1.engine.localizer.fallback = session.engine.localizer.fallback := by
  induction actions generalizing session with
  | nil => rfl
  | cons action actions ih => rw [run_cons, ih, fallback_step]

/-! ## Redraws -/

theorem step_of_redraws (session : Session H M) {action : Action} :
    action.Redraws →
      (session.step action).1.host =
          ((session.step action).1.engine.refresh session.host).host ∧
        (session.step action).1.engine.registry = session.engine.registry := by
  intro h
  cases h with
  | refresh => exact ⟨rfl, rfl⟩
  | switchLocale locale => exact ⟨rfl, rfl⟩

/-- What a successful registration writes is what it was rendered as. -/
theorem preview_of_registered [LawfulHost H] {session registered : Session H M}
    {entry : Registration} {html : String} :
    session.step (.persist entry.target entry.template entry.data) =
        (registered, .drawn (.ok ())) →
      Host.html? registered.host entry.target = some html →
        session.engine.preview session.host entry = .ok html := by
  intro hstep hwritten
  cases hpreview : session.engine.preview session.host entry with
  | error error =>
      rw [step_of_draws_error .persist hpreview] at hstep
      simp at hstep
  | ok shown =>
      have hhost := (step_of_draws_ok .persist hpreview).1
      rw [hstep] at hhost
      rw [hhost, LawfulHost.html?_write, if_pos rfl] at hwritten
      rw [Option.some.inj hwritten]

/-- A target shows again what its registration wrote there, right after a redraw for which the texts
and the template are the same, unless it was registered anew or everything was cleared. -/
theorem redraw_reproduces [LawfulHost H] {session registered last redrawn : Session H M}
    {entry : Registration} {html : String} {between : List Action} {redraw : Action}
    (registration : session.step (.persist entry.target entry.template entry.data) =
      (registered, .drawn (.ok ())))
    (written : Host.html? registered.host entry.target = some html)
    (course : (registered.run between).1 = last)
    (latest : ∀ event ∈ registered.events between, ¬ Supersedes entry.target event)
    (redraws : redraw.Redraws) (reached : (last.step redraw).1 = redrawn)
    (sameTables : redrawn.engine.localizer.tables = session.engine.localizer.tables)
    (sameLocale : redrawn.engine.localizer.locale = session.engine.localizer.locale)
    (sameSource : Host.fetch? last.host entry.template = Host.fetch? session.host entry.template)
    (apart : last.engine.Apart last.host) :
    Host.html? redrawn.host entry.target = some html := by
  have hpreview : session.engine.preview session.host entry = .ok html :=
    preview_of_registered registration written
  rcases step_of_redraws last redraws with ⟨hhost, hregistry⟩
  rw [reached] at hhost hregistry
  -- The registration is still there.
  have hfirst : registered.engine.registry.get? entry.target = some entry := by
    have hinsert : registered.engine.registry = (session.engine.registry.insert entry).1 := by
      simpa [registration, Registry.after] using
        registry_step session (.persist entry.target entry.template entry.data)
    rw [hinsert, Registry.get?_insert, if_pos rfl]
  have hfound : redrawn.engine.registry.get? entry.target = some entry := by
    rw [hregistry, ← course, registry_run, Registry.get?_foldl_after latest, hfirst]
  have hmem : entry ∈ redrawn.engine.registry.entries := ((Registry.get?_eq_some_iff redrawn.engine.keyed).1 hfound).1
  -- It is rendered from the same texts.
  have hfallback : redrawn.engine.localizer.fallback = session.engine.localizer.fallback := by
    have hlast := fallback_step last redraw
    have hbetween := fallback_run registered between
    have hpersist := fallback_step session (.persist entry.target entry.template entry.data)
    rw [reached] at hlast
    rw [course] at hbetween
    rw [registration] at hpersist
    exact hlast.trans (hbetween.trans hpersist)
  have hlocalizer : redrawn.engine.localizer = session.engine.localizer :=
    Catalog.ext sameTables sameLocale hfallback
  have hagain : redrawn.engine.preview last.host entry = .ok html :=
    (Engine.preview_congr hlocalizer sameSource).trans hpreview
  -- So it is drawn as it was.
  have hapart : redrawn.engine.Apart last.host :=
    apart.congr (fun _ => by rw [hregistry]) fun _ => rfl
  calc
    Host.html? redrawn.host entry.target
        = Host.html? (redrawn.engine.refresh last.host).host entry.target := by rw [← hhost]
    _ = redrawn.engine.content? last.host entry := (Engine.redrawn_refresh hapart).targets entry hmem
    _ = some html := by simp only [Engine.content?, hagain]

theorem redraw_reproduces_disturbed :
    let entry : Registration := ⟨"x", "t", some ((∅ : Context).insert "k" (.text "v"))⟩
    let session : Session (Dict String) :=
      ⟨{ localizer := ∅ }, ((∅ : Dict String).insert "t" (Tag.value "k").toText).insert "bad" Tag.close.toText⟩
    let registered := (session.step (.persist entry.target entry.template entry.data)).1
    let between : List Action := [.persist "x" "bad" none, .persist "y" "u" none,
      .addTemplate "u" Tag.close.toText, .remove "x", .refresh, .write "x" "other"]
    let last := (registered.run between).1
    Host.html? registered.host "x" = some "v" ∧ Host.html? last.host "x" = some "other" ∧
      (∃ error, (last.step .refresh).2 = .drawn (.error error)) ∧
      Host.html? (last.step .refresh).1.host "x" = some "v" := by
  intro entry session registered between last
  have hregistration : session.step (.persist entry.target entry.template entry.data) =
      (registered, .drawn (.ok ())) := by
    subst registered session entry
    with_unfolding_all rfl
  have hwritten : Host.html? registered.host "x" = some "v" := by
    subst registered session entry
    with_unfolding_all rfl
  have hevents : ∃ first second, registered.events between =
      [(.persist "x" "bad" none, .drawn (.error first)),
        (.persist "y" "u" none, .drawn (.ok ())),
        (.addTemplate "u" Tag.close.toText, .done), (.remove "x", .found (some "v")),
        (.refresh, .drawn (.error second)), (.write "x" "other", .done)] := by
    subst between registered session entry
    exact ⟨_, _, by with_unfolding_all rfl⟩
  have hlatest : ∀ event ∈ registered.events between, ¬ Supersedes "x" event := by
    rcases hevents with ⟨first, second, hevents⟩
    simp [hevents, Supersedes]
  have hentries : last.engine.registry.entries = [entry, ⟨"y", "u", none⟩] := by
    subst last between registered session entry
    with_unfolding_all rfl
  have hapart : last.engine.Apart last.host := by
    simp [Engine.Apart, Registry.targets, hentries, entry, Host.elementId]
  have hsource : Host.fetch? last.host "t" = Host.fetch? session.host "t" := by
    subst last between registered session entry
    with_unfolding_all rfl
  have hother : Host.html? last.host "x" = some "other" := by
    subst last between registered session entry
    with_unfolding_all rfl
  have hfailed : ∃ error, (last.step .refresh).2 = .drawn (.error error) := by
    subst last between registered session entry
    exact ⟨_, by with_unfolding_all rfl⟩
  have hcatalog : (last.step .refresh).1.engine.localizer = session.engine.localizer := by
    subst last between registered session entry
    with_unfolding_all rfl
  refine ⟨hwritten, hother, hfailed, ?_⟩
  exact redraw_reproduces hregistration hwritten rfl hlatest .refresh rfl
    (congrArg Catalog.tables hcatalog) (congrArg Catalog.locale hcatalog) hsource hapart

end Session
end Stencil
