import Mathlib.Data.List.Basic
import Stencil.Engine.Basic

/-!
# Redraw — what a host holds once every registration is drawn again

Registrations are drawn one after the other, each on the host that the ones before it left.  As long
as no target is the element of a registered template, nobody changes what the next one is rendered
from, and every registration is drawn as it would have been on the host at the start.

* `Engine.Apart` — no target is the element of a registered template;
* `Engine.preview`, `Engine.content?` — what a registration is rendered as, and what its target then
  holds;
* `Engine.Redrawn` — what a host holds with some registrations drawn: kept by every further one;
* `Engine.redrawn_refresh` — so it holds with all of them drawn;
* `Engine.Redrawn.host_unique` — and it says all there is to say about a host;
* `Engine.refresh_draws_previews` — what `refresh` does, in whichever order, and if done again.
-/

namespace Stencil
namespace Engine

variable {L H : Type} {M : Type → Type} [OrderedMap M] [Host H]

/-! ## Targets and templates -/

/-- No target of a registration is the element that holds the text of a registered template. -/
def Apart (engine : Engine L M) (host : H) : Prop :=
  ∀ entry ∈ engine.registry.entries,
    Host.elementId host entry.template ∉ engine.registry.targets

theorem Apart.congr {engine other : Engine L M} {host elsewhere : H} :
    (∀ entry, entry ∈ engine.registry.entries ↔ entry ∈ other.registry.entries) →
      (∀ template, Host.elementId host template = Host.elementId elsewhere template) →
        engine.Apart host → other.Apart elsewhere := by
  intro hentries hids hapart entry hmem
  have h := hapart entry ((hentries entry).2 hmem)
  simpa [Registry.targets, hids, hentries] using h

variable [Localizer L]

/-! ## A single registration -/

/-- What a registration is rendered as on a host. -/
def preview (engine : Engine L M) (host : H) (entry : Registration) : Except RenderError String :=
  engine.render host entry.template entry.data

/-- Why a registration is not drawn on a host. -/
def failure? (engine : Engine L M) (host : H) (entry : Registration) : Option RenderError :=
  match engine.preview host entry with
  | .ok _ => none
  | .error error => some error

/-- What the target of a registration holds once it is drawn on a host, if only as an attempt. -/
def content? (engine : Engine L M) (host : H) (entry : Registration) : Option String :=
  match engine.preview host entry with
  | .ok html => some html
  | .error _ => Host.html? host entry.target

section Single

variable {engine : Engine L M} {host : H} {entry : Registration}

theorem failure?_eq_some_iff {error : RenderError} :
    engine.failure? host entry = some error ↔ engine.preview host entry = .error error := by
  unfold failure?
  cases engine.preview host entry <;> simp

theorem failure?_eq_none_iff :
    engine.failure? host entry = none ↔ ∃ html, engine.preview host entry = .ok html := by
  unfold failure?
  cases engine.preview host entry <;> simp

theorem preview_of_missing :
    Host.fetch? host entry.template = none →
      engine.preview host entry = .ok (missing ++ entry.template) := by
  intro hfetch
  simp [preview, render, hfetch]

theorem preview_of_template {text : String} {template : Template} :
    Host.fetch? host entry.template = some text →
      Template.parse (localize engine.localizer text) = .ok template →
        engine.preview host entry = .ok (template.render entry.data) := by
  intro hfetch hparse
  simp [preview, render, renderText, hfetch, hparse, Except.map, Except.mapError]

theorem preview_of_malformed {text : String} {cause : ParseError} :
    Host.fetch? host entry.template = some text →
      Template.parse (localize engine.localizer text) = .error cause →
        engine.preview host entry = .error (.malformed entry.template cause) := by
  intro hfetch hparse
  simp [preview, render, renderText, hfetch, hparse, Except.map, Except.mapError]

/-- A failed render names its template. -/
theorem malformed_of_preview {error : RenderError} :
    engine.preview host entry = .error error →
      ∃ cause, error = .malformed entry.template cause := by
  intro h
  cases hfetch : Host.fetch? host entry.template with
  | none =>
      simp [preview_of_missing hfetch] at h
  | some text =>
      cases hparse : Template.parse (localize engine.localizer text) with
      | ok template =>
          simp [preview_of_template hfetch hparse] at h
      | error cause =>
          rw [preview_of_malformed hfetch hparse] at h
          exact ⟨cause, (Except.error.inj h).symm⟩

/-- A registration is rendered alike by engines with the same texts on hosts with the same
template. -/
theorem preview_congr {other : Engine L M} {elsewhere : H} :
    engine.localizer = other.localizer →
      Host.fetch? host entry.template = Host.fetch? elsewhere entry.template →
        engine.preview host entry = other.preview elsewhere entry := by
  intro hlocalizer hfetch
  simp only [preview, render, renderText, hlocalizer, hfetch]

theorem draw_of_ok {html : String} :
    engine.preview host entry = .ok html →
      engine.draw host entry = { host := Host.write host entry.target html } := by
  intro h
  unfold preview at h
  simp [draw, fill, h]

theorem draw_of_error {error : RenderError} :
    engine.preview host entry = .error error →
      engine.draw host entry = { host, outcome := .error error } := by
  intro h
  unfold preview at h
  exact fill_of_error (by simp [fill, h])

theorem next_of_ok {drawn : Drawn H} {html : String} :
    engine.preview drawn.host entry = .ok html →
      drawn.next engine entry = { drawn with host := Host.write drawn.host entry.target html } := by
  intro h
  rw [Drawn.next, draw_of_ok h]
  cases drawn.outcome <;> rfl

theorem next_of_error {drawn : Drawn H} {error : RenderError} :
    engine.preview drawn.host entry = .error error →
      drawn.next engine entry =
        { drawn with outcome := drawn.outcome.bind fun _ => .error error } := by
  intro h
  rw [Drawn.next, draw_of_error h]

theorem elementId_next [LawfulHost H] {drawn : Drawn H} {template : String} :
    Host.elementId (drawn.next engine entry).host template =
      Host.elementId drawn.host template := by
  cases hpreview : engine.preview drawn.host entry with
  | ok html =>
      rw [next_of_ok hpreview]
      exact LawfulHost.elementId_write ..
  | error error =>
      rw [next_of_error hpreview]

theorem html?_next [LawfulHost H] {drawn : Drawn H} {element : String} :
    Host.html? (drawn.next engine entry).host element =
      if element = entry.target then engine.content? drawn.host entry
      else Host.html? drawn.host element := by
  cases hpreview : engine.preview drawn.host entry with
  | ok html =>
      rw [next_of_ok hpreview, LawfulHost.html?_write]
      simp only [content?, hpreview]
  | error error =>
      rw [next_of_error hpreview]
      by_cases h : element = entry.target
      · simp [content?, hpreview, h]
      · simp [h]

theorem outcome_next {drawn : Drawn H} :
    (drawn.next engine entry).outcome =
      drawn.outcome.bind fun _ => (engine.failure? drawn.host entry).elim (.ok ()) .error := by
  cases hpreview : engine.preview drawn.host entry with
  | ok html =>
      rw [next_of_ok hpreview, failure?_eq_none_iff.2 ⟨html, hpreview⟩]
      cases drawn.outcome <;> rfl
  | error error =>
      rw [next_of_error hpreview, failure?_eq_some_iff.2 hpreview]
      rfl

end Single

/-! ## Several registrations -/

/-- What a host holds once some registrations have been drawn on it: their targets hold what they
were rendered as before, or still what was there if that failed, and nothing else is changed. -/
structure Redrawn (engine : Engine L M) (before : H) (entries : List Registration)
    (drawn : Drawn H) : Prop where
  ids : ∀ template, Host.elementId drawn.host template = Host.elementId before template
  targets : ∀ entry ∈ entries, Host.html? drawn.host entry.target = engine.content? before entry
  others : ∀ element, element ∉ entries.map Registration.target →
    Host.html? drawn.host element = Host.html? before element
  outcome : drawn.outcome = (entries.findSome? (engine.failure? before)).elim (.ok ()) .error

namespace Redrawn

variable {engine : Engine L M} {before : H} {entries : List Registration} {drawn : Drawn H}

theorem nil : Redrawn engine before [] { host := before } := by
  constructor <;> simp

/-- A template that no target holds is the same as before. -/
theorem fetch?_eq {template : String} :
    Redrawn engine before entries drawn →
      Host.elementId before template ∉ entries.map Registration.target →
        Host.fetch? drawn.host template = Host.fetch? before template := by
  intro h hunwritten
  unfold Host.fetch?
  rw [h.ids, h.others _ hunwritten]

theorem preview_eq {entry : Registration} :
    Redrawn engine before entries drawn →
      Host.elementId before entry.template ∉ entries.map Registration.target →
        engine.preview drawn.host entry = engine.preview before entry := by
  intro h hunwritten
  exact preview_congr rfl (h.fetch?_eq hunwritten)

/-- One registration more, with a target of its own and a template that was not written to. -/
theorem next [LawfulHost H] {entry : Registration} :
    Redrawn engine before entries drawn →
      entry.target ∉ entries.map Registration.target →
        Host.elementId before entry.template ∉ entries.map Registration.target →
          Redrawn engine before (entries ++ [entry]) (drawn.next engine entry) := by
  intro h hnew hunwritten
  -- The template and the target are as before, so the attempt comes out as it would have.
  have hpreview := h.preview_eq hunwritten
  have hcontent : engine.content? drawn.host entry = engine.content? before entry := by
    simp only [content?, hpreview, h.others _ hnew]
  have hfailure : engine.failure? drawn.host entry = engine.failure? before entry := by
    simp only [failure?, hpreview]
  constructor
  case ids =>
    intro template
    exact elementId_next.trans (h.ids template)
  case targets =>
    intro earlier hmem
    rw [html?_next]
    rcases List.mem_append.1 hmem with hold | hlast
    · have hother : earlier.target ≠ entry.target := by
        intro hsame
        exact hnew (hsame ▸ List.mem_map_of_mem hold)
      rw [if_neg hother, h.targets earlier hold]
    · obtain rfl := List.mem_singleton.1 hlast
      rw [if_pos rfl, hcontent]
  case others =>
    intro element hfree
    simp only [List.map_append, List.map_cons, List.map_nil, List.mem_append, List.mem_singleton,
      not_or] at hfree
    rw [html?_next, if_neg hfree.2, h.others element hfree.1]
  case outcome =>
    -- The first error is the one from before, if there was one.
    rw [outcome_next, hfailure, h.outcome, List.findSome?_append]
    cases hfirst : entries.findSome? (engine.failure? before) with
    | none =>
        cases hlast : engine.failure? before entry <;> simp [hlast, Except.bind]
    | some first =>
        rfl

/-- Registrations with targets of their own, none of which holds a template of theirs. -/
theorem foldl [LawfulHost H] {more : List Registration} :
    Redrawn engine before entries drawn →
      ((entries ++ more).map Registration.target).Nodup →
        (∀ entry ∈ more,
          Host.elementId before entry.template ∉ (entries ++ more).map Registration.target) →
          Redrawn engine before (entries ++ more) (more.foldl (Drawn.next engine) drawn) := by
  -- The induction is on what is still to be drawn; what was drawn grows at its end.
  induction more generalizing entries drawn with
  | nil =>
      intro h _ _
      simpa using h
  | cons entry more ih =>
      intro h hdistinct hunwritten
      have hregroup : entries ++ entry :: more = (entries ++ [entry]) ++ more := by simp
      have hnew : entry.target ∉ entries.map Registration.target := by
        intro hmem
        rw [List.map_append, List.nodup_append] at hdistinct
        exact hdistinct.2.2 _ hmem _ (by simp) rfl
      have hfirst : Host.elementId before entry.template ∉ entries.map Registration.target := by
        intro hmem
        exact hunwritten entry (by simp) (by simp [List.map_append, hmem])
      rw [hregroup] at hdistinct hunwritten ⊢
      apply ih (h.next hnew hfirst) hdistinct
      intro later hmem
      exact hunwritten later (List.mem_cons_of_mem _ hmem)

/-- What an attempt leaves in its target is the same after the redraw. -/
theorem content?_eq {entry : Registration} :
    Redrawn engine before entries drawn → entry ∈ entries →
      Host.elementId before entry.template ∉ entries.map Registration.target →
        engine.content? drawn.host entry = engine.content? before entry := by
  intro h hmem hunwritten
  have htarget := h.targets entry hmem
  unfold content? at htarget ⊢
  rw [h.preview_eq hunwritten]
  cases hbefore : engine.preview before entry with
  | ok html => rfl
  | error error => simpa [hbefore] using htarget

/-- Two redraws of the same registrations leave the same host, if these come out alike and the hosts
before only differed in their targets. -/
theorem host_unique [LawfulHost H] {other : Engine L M} {elsewhere : H} {drawn' : Drawn H}
    {entries' : List Registration} :
    Redrawn engine before entries drawn → Redrawn other elsewhere entries' drawn' →
      (∀ entry, entry ∈ entries ↔ entry ∈ entries') →
        (∀ template, Host.elementId before template = Host.elementId elsewhere template) →
          (∀ entry ∈ entries, engine.content? before entry = other.content? elsewhere entry) →
            (∀ element, element ∉ entries.map Registration.target →
              Host.html? before element = Host.html? elsewhere element) →
              drawn.host = drawn'.host := by
  intro h h' hentries hids hcontent hothers
  apply LawfulHost.ext
  · intro template
    rw [h.ids, h'.ids, hids]
  · intro element
    by_cases hmem : element ∈ entries.map Registration.target
    · rcases List.mem_map.1 hmem with ⟨entry, hentry, rfl⟩
      calc
        Host.html? drawn.host entry.target
            = engine.content? before entry := h.targets entry hentry
        _ = other.content? elsewhere entry := hcontent entry hentry
        _ = Host.html? drawn'.host entry.target := (h'.targets entry ((hentries entry).1 hentry)).symm
    · have hmem' : element ∉ entries'.map Registration.target := by
        simpa [hentries] using hmem
      calc
        Host.html? drawn.host element
            = Host.html? before element := h.others element hmem
        _ = Host.html? elsewhere element := hothers element hmem
        _ = Host.html? drawn'.host element := (h'.others element hmem').symm

theorem outcome_eq_ok_iff :
    Redrawn engine before entries drawn →
      (drawn.outcome = .ok () ↔ ∀ entry ∈ entries, ∃ html, engine.preview before entry = .ok html) := by
  intro h
  rw [h.outcome]
  cases hfirst : entries.findSome? (engine.failure? before) with
  | none =>
      have hall := List.findSome?_eq_none_iff.1 hfirst
      simpa [failure?_eq_none_iff] using hall
  | some error =>
      rcases List.exists_of_findSome?_eq_some hfirst with ⟨entry, hmem, hfailed⟩
      have herror := failure?_eq_some_iff.1 hfailed
      simp only [Option.elim_some, reduceCtorEq, false_iff]
      intro hall
      rcases hall entry hmem with ⟨html, hok⟩
      simp [herror] at hok

theorem outcome_eq_error_iff {error : RenderError} :
    Redrawn engine before entries drawn →
      (drawn.outcome = .error error ↔
        ∃ front entry back, entries = front ++ entry :: back ∧
          (∀ earlier ∈ front, ∃ html, engine.preview before earlier = .ok html) ∧
            engine.preview before entry = .error error) := by
  intro h
  have hfirst : drawn.outcome = .error error ↔
      entries.findSome? (engine.failure? before) = some error := by
    rw [h.outcome]
    cases entries.findSome? (engine.failure? before) <;> simp
  rw [hfirst, List.findSome?_eq_some_iff]
  simp only [failure?_eq_some_iff, failure?_eq_none_iff]
  constructor
  · rintro ⟨front, entry, back, hsplit, hfailed, hfront⟩
    exact ⟨front, entry, back, hsplit, hfront, hfailed⟩
  · rintro ⟨front, entry, back, hsplit, hfront, hfailed⟩
    exact ⟨front, entry, back, hsplit, hfailed, hfront⟩

end Redrawn

/-! ## All registrations of an engine -/

/-- Drawing all registrations leaves each target as its registration comes out on the host before. -/
theorem redrawn_refresh [LawfulHost H] {engine : Engine L M} {before : H} :
    engine.Apart before →
      Redrawn engine before engine.registry.entries (engine.refresh before) := by
  intro hapart
  have hdistinct : (([] ++ engine.registry.entries).map Registration.target).Nodup :=
    Registry.nodup_targets engine.keyed
  exact Redrawn.nil.foldl hdistinct hapart

/-- A second redraw finds everything as the first one left it. -/
theorem refresh_refresh [LawfulHost H] {engine : Engine L M} {before : H} :
    engine.Apart before → engine.refresh (engine.refresh before).host = engine.refresh before := by
  intro hapart
  have hfirst := redrawn_refresh hapart
  have hagain := redrawn_refresh
    (hapart.congr (fun _ => Iff.rfl) fun template => (hfirst.ids template).symm)
  have hhost : (engine.refresh (engine.refresh before).host).host = (engine.refresh before).host := by
    refine hagain.host_unique hfirst (fun _ => Iff.rfl) hfirst.ids ?_ hfirst.others
    intro entry hmem
    exact hfirst.content?_eq hmem (hapart entry hmem)
  have hfailure : ∀ entry ∈ engine.registry.entries,
      engine.failure? (engine.refresh before).host entry = engine.failure? before entry := by
    intro entry hmem
    simp only [failure?, hfirst.preview_eq (hapart entry hmem)]
  have houtcome : (engine.refresh (engine.refresh before).host).outcome =
      (engine.refresh before).outcome := by
    rw [hagain.outcome, hfirst.outcome, ← List.head?_filterMap, ← List.head?_filterMap,
      List.filterMap_congr hfailure]
  exact Drawn.ext hhost houtcome

/-- With no target the element of a registered template, drawing everything again fills each target
with what its registration was rendered as on the host before, or leaves it alone if that fails.
Nothing else is changed, the first failure is reported, the order of the registrations has no
influence on the host, and doing it twice is doing it once. -/
theorem refresh_draws_previews [LawfulHost H] (engine : Engine L M) (before : H)
    (apart : engine.Apart before) :
    let drawn := engine.refresh before
    (∀ entry ∈ engine.registry.entries, ∀ html, engine.preview before entry = .ok html →
      Host.html? drawn.host entry.target = some html) ∧
    (∀ entry ∈ engine.registry.entries, ∀ error, engine.preview before entry = .error error →
      Host.html? drawn.host entry.target = Host.html? before entry.target) ∧
    (∀ element, element ∉ engine.registry.targets →
      Host.html? drawn.host element = Host.html? before element) ∧
    (∀ template, Host.elementId drawn.host template = Host.elementId before template) ∧
    (drawn.outcome = .ok () ↔
      ∀ entry ∈ engine.registry.entries, ∃ html, engine.preview before entry = .ok html) ∧
    (∀ error, drawn.outcome = .error error ↔
      ∃ front entry back, engine.registry.entries = front ++ entry :: back ∧
        (∀ earlier ∈ front, ∃ html, engine.preview before earlier = .ok html) ∧
        engine.preview before entry = .error error ∧
        ∃ cause, error = .malformed entry.template cause) ∧
    (∀ other : Engine L M, other.localizer = engine.localizer →
      other.registry.entries.Perm engine.registry.entries →
      (other.refresh before).host = drawn.host) ∧
    engine.refresh drawn.host = drawn := by
  intro drawn
  have hredrawn := redrawn_refresh apart
  refine ⟨?filled, ?kept, hredrawn.others, hredrawn.ids, hredrawn.outcome_eq_ok_iff, ?failed,
    ?reordered, refresh_refresh apart⟩
  case filled =>
    intro entry hmem html hok
    simpa [content?, hok] using hredrawn.targets entry hmem
  case kept =>
    intro entry hmem error hfailed
    simpa [content?, hfailed] using hredrawn.targets entry hmem
  case failed =>
    intro error
    rw [hredrawn.outcome_eq_error_iff]
    constructor
    · rintro ⟨front, entry, back, hsplit, hfront, hfailed⟩
      exact ⟨front, entry, back, hsplit, hfront, hfailed, malformed_of_preview hfailed⟩
    · rintro ⟨front, entry, back, hsplit, hfront, hfailed, _⟩
      exact ⟨front, entry, back, hsplit, hfront, hfailed⟩
  case reordered =>
    intro other hlocalizer hperm
    have hother := redrawn_refresh (apart.congr (fun _ => hperm.symm.mem_iff) fun _ => rfl)
    refine hother.host_unique hredrawn (fun _ => hperm.mem_iff) (fun _ => rfl) ?_ fun _ _ => rfl
    intro entry _
    have hpreview : other.preview before entry = engine.preview before entry :=
      preview_congr hlocalizer rfl
    simp only [content?, hpreview]

theorem refresh_draws_previews_mixed :
    let elements := (((∅ : Dict String).insert "y" "old").insert "t-b" Tag.close.toText).insert
      "t-a" ("A" ++ (Tag.value "k").toText)
    let page : Page := ⟨"t-", elements⟩
    let good : Registration := ⟨"x", "a", some ((∅ : Context).insert "k" (.text "v"))⟩
    let bad : Registration := ⟨"y", "b", none⟩
    let absent : Registration := ⟨"z", "c", none⟩
    let engine : Engine Catalog :=
      (({ localizer := ∅ } : Engine Catalog).register good |>.register bad).register absent
    let drawn := engine.refresh page
    engine.Apart page ∧ Host.html? drawn.host "x" = some "Av" ∧
      Host.html? drawn.host "y" = some "old" ∧ Host.html? drawn.host "z" = some (missing ++ "c") ∧
      (∃ cause, drawn.outcome = .error (.malformed "b" cause)) ∧
      engine.refresh drawn.host = drawn := by
  intro elements page good bad absent engine drawn
  have hhtml : ∀ element, Host.html? page element =
      if element = "t-a" then some ("A" ++ (Tag.value "k").toText)
      else if element = "t-b" then some Tag.close.toText
      else if element = "y" then some "old" else none := by
    intro element
    change elements.get? element = _
    simp only [elements, Dict.get?_insert]
    rfl
  have hentries : engine.registry.entries = [good, bad, absent] := rfl
  have hapart : engine.Apart page := by
    simp [Apart, Registry.targets, hentries, page, good, bad, absent, Host.elementId]
  have hgood : engine.preview page good = .ok "Av" := by
    have hfetch : Host.fetch? page good.template = some ("A" ++ (Tag.value "k").toText) := by
      simp [Host.fetch?, Host.elementId, hhtml, page, good]
    have hparse : Template.parse (localize engine.localizer ("A" ++ (Tag.value "k").toText)) =
        .ok ⟨"A" ++ (Tag.value "k").toText, [.literal "A", .value "k"]⟩ := by
      change Template.parse (localize (∅ : Catalog) _) = _
      with_unfolding_all rfl
    rw [preview_of_template hfetch hparse]
    simp [Template.render, Node.render, good, Dict.get?_insert, Value.toText]
  have hbad : ∃ cause, engine.preview page bad = .error (.malformed "b" cause) := by
    have hfetch : Host.fetch? page bad.template = some Tag.close.toText := by
      simp [Host.fetch?, Host.elementId, hhtml, page, bad]
    have hparse : ∃ cause, Template.parse (localize engine.localizer Tag.close.toText) =
        .error cause := by
      change ∃ cause, Template.parse (localize (∅ : Catalog) _) = .error cause
      exact ⟨_, by with_unfolding_all rfl⟩
    rcases hparse with ⟨cause, hparse⟩
    exact ⟨cause, preview_of_malformed hfetch hparse⟩
  have habsent : engine.preview page absent = .ok (missing ++ "c") := by
    apply preview_of_missing
    simp [Host.fetch?, Host.elementId, hhtml, page, absent]
  rcases hbad with ⟨cause, hbad⟩
  rcases refresh_draws_previews engine page hapart with
    ⟨hfilled, hkept, _, _, _, hfailed, _, hagain⟩
  refine ⟨hapart, hfilled good (by simp [hentries]) _ hgood, ?_,
    hfilled absent (by simp [hentries]) _ habsent, ⟨cause, ?_⟩, hagain⟩
  · rw [hkept bad (by simp [hentries]) _ hbad]
    simp [hhtml, bad]
  · refine (hfailed _).2 ⟨[good], bad, [absent], hentries, ?_, hbad, cause, rfl⟩
    intro earlier hmem
    obtain rfl := List.mem_singleton.1 hmem
    exact ⟨_, hgood⟩

end Engine
end Stencil
