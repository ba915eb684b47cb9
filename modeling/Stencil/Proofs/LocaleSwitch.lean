import Stencil.Proofs.Redraw

/-!
# Switching locales — to another locale and back again

A switch draws every registration again in the new locale.  Some of them may fail there and keep
what they showed, so that a page can stand in two languages at once.  The switch back leaves nothing
of that: all targets are drawn as they were before.

* `Engine.inLocale` — an engine after a switch, whatever it drew;
* `Engine.inLocale_inLocale` — it is the same again after the switch back;
* `Engine.switchLocale_back` — and so is its host, if everything could be drawn before.
-/

namespace Stencil
namespace Engine

variable {H : Type} {M : Type → Type} [OrderedMap M] [Host H]

/-- The engine with a locale made active, if it has a table. -/
def inLocale (engine : Engine Catalog M) (locale : String) : Engine Catalog M :=
  { engine with localizer := (engine.localizer.setLocale locale).1 }

theorem switchLocale_eq (engine : Engine Catalog M) (host : H) (locale : String) :
    engine.switchLocale host locale =
      (engine.inLocale locale, ((engine.inLocale locale).refresh host).host,
        ((engine.inLocale locale).refresh host).outcome.map fun _ =>
          (engine.localizer.setLocale locale).2) :=
  rfl

theorem locale_inLocale (engine : Engine Catalog M) (locale : String) :
    (engine.inLocale locale).localizer.locale =
      if engine.localizer.hasLocale locale then locale else engine.localizer.locale := by
  by_cases h : engine.localizer.hasLocale locale <;> simp [inLocale, Catalog.setLocale, h]

theorem inLocale_inLocale {engine : Engine Catalog M} (locale : String) :
    engine.localizer.hasLocale engine.localizer.locale →
      (engine.inLocale locale).inLocale engine.localizer.locale = engine := by
  intro hknown
  simp [inLocale, Catalog.setLocale_setLocale locale hknown]

/-- After a redraw without errors, a switch to any locale and back again leaves engine and host as
they were, even if some registrations cannot be drawn in that locale. -/
theorem switchLocale_back [LawfulHost H] (engine : Engine Catalog M) (host : H) (locale : String)
    (known : engine.localizer.hasLocale engine.localizer.locale) (apart : engine.Apart host)
    (drawn : (engine.refresh host).outcome = .ok ()) :
    let shown := (engine.refresh host).host
    let away := engine.switchLocale shown locale
    let back := away.1.switchLocale away.2.1 engine.localizer.locale
    away.1.localizer.locale =
      (if engine.localizer.hasLocale locale then locale else engine.localizer.locale) ∧
    back.2.2 = .ok true ∧ back.1 = engine ∧ back.2.1 = shown := by
  intro shown away back
  have hfirst := redrawn_refresh apart
  have hall := hfirst.outcome_eq_ok_iff.1 drawn
  -- Of the redraw in the other locale, nothing is known but that it keeps to the targets.
  have haway : (engine.inLocale locale).Apart shown :=
    apart.congr (fun _ => Iff.rfl) fun template => (hfirst.ids template).symm
  have hmiddle := redrawn_refresh haway
  -- The redraw in the first locale, on what the other one left.
  have hids : ∀ template, Host.elementId away.2.1 template = Host.elementId host template :=
    fun template => (hmiddle.ids template).trans (hfirst.ids template)
  have hapart : engine.Apart away.2.1 :=
    apart.congr (fun _ => Iff.rfl) fun template => (hids template).symm
  have hlast := redrawn_refresh hapart
  have hpreview : ∀ entry ∈ engine.registry.entries,
      engine.preview away.2.1 entry = engine.preview host entry := by
    intro entry hmem
    apply preview_congr rfl
    calc
      Host.fetch? away.2.1 entry.template
          = Host.fetch? shown entry.template := hmiddle.fetch?_eq (haway entry hmem)
      _ = Host.fetch? host entry.template := hfirst.fetch?_eq (apart entry hmem)
  have hback : back = (engine, (engine.refresh away.2.1).host,
      (engine.refresh away.2.1).outcome.map fun _ => true) := by
    change (engine.inLocale locale).switchLocale away.2.1 engine.localizer.locale = _
    have hactive : ((engine.inLocale locale).localizer.setLocale engine.localizer.locale).2 =
        true :=
      congrArg Prod.snd (Catalog.setLocale_setLocale locale known)
    rw [switchLocale_eq, inLocale_inLocale locale known, hactive]
  have houtcome : (engine.refresh away.2.1).outcome = .ok () := by
    apply hlast.outcome_eq_ok_iff.2
    intro entry hmem
    rw [hpreview entry hmem]
    exact hall entry hmem
  have hhost : (engine.refresh away.2.1).host = shown := by
    apply hlast.host_unique hfirst (fun _ => Iff.rfl) hids
    · intro entry hmem
      rcases hall entry hmem with ⟨html, hok⟩
      simp only [content?, hpreview entry hmem, hok]
    · intro element hfree
      exact (hmiddle.others element hfree).trans (hfirst.others element hfree)
  rw [hback]
  exact ⟨locale_inLocale engine locale, by rw [houtcome]; rfl, rfl, hhost⟩

theorem switchLocale_back_malformed :
    let catalog := ((∅ : Catalog).insert "en" "hi" "Hello").insert "de" "hi" Tag.close.toText
    let engine : Engine Catalog :=
      ({ localizer := catalog } : Engine Catalog).register ⟨"x", "t", none⟩ |>.register
        ⟨"y", "u", none⟩
    let host := (∅ : Dict String).insert "t" (String.ofList (Reference.written ⟨"hi"⟩))
    let shown := (engine.refresh host).host
    let away := engine.switchLocale shown "de"
    let back := away.1.switchLocale away.2.1 "en"
    (∃ error, away.2.2 = .error error) ∧ away.1.localizer.locale = "de" ∧
      back.2.2 = .ok true ∧ back.1 = engine ∧ back.2.1 = shown := by
  intro catalog engine host shown away back
  have hknown : catalog.hasLocale "en" ∧ catalog.hasLocale "de" := by
    subst catalog
    exact ⟨rfl, rfl⟩
  have hentries : engine.registry.entries = [⟨"x", "t", none⟩, ⟨"y", "u", none⟩] := rfl
  have hapart : engine.Apart host := by
    simp [Apart, Registry.targets, hentries, Host.elementId]
  have hdrawn : (engine.refresh host).outcome = .ok () := by
    subst engine host catalog
    with_unfolding_all rfl
  have hfailed : ∃ error, away.2.2 = .error error := by
    subst away shown engine host catalog
    exact ⟨_, by with_unfolding_all rfl⟩
  rcases switchLocale_back engine host "de" hknown.1 hapart hdrawn with ⟨hlocale, hback⟩
  refine ⟨hfailed, ?_, hback⟩
  rw [hlocale]
  exact if_pos hknown.2

end Engine
end Stencil
