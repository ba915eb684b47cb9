import Mathlib.Data.List.Induction
import Mathlib.Data.List.Nodup
import Stencil.Engine.Registry

/-!
# Registrations — what several insertions leave in a registry

A registry that is filled by one insertion after the other holds the targets in the order of their
first insertion, and for each of them the registration that was inserted last.

* `latest?` — the last registration for a target in a history of insertions;
* `Registry.Holds` — a registry holds what a history tells;
* `Registry.Holds.insert`, `Registry.holds_nil` — kept by every further insertion, from nothing on;
* `Registry.Holds.entries` — and so the entries, as a list.
-/

namespace Stencil

/-- The last registration for a target in a history. -/
def latest? (history : List Registration) (target : String) : Option Registration :=
  (history.filter (·.target = target)).getLast?

theorem latest?_concat (history : List Registration) (new : Registration) (target : String) :
    latest? (history ++ [new]) target =
      if target = new.target then some new else latest? history target := by
  unfold latest?
  by_cases h : target = new.target
  · simp [h]
  · simp [h, Ne.symm h]

theorem latest?_eq_none_iff {history : List Registration} {target : String} :
    latest? history target = none ↔ ∀ entry ∈ history, entry.target ≠ target := by
  simp [latest?]

theorem eraseDups_concat (targets : List String) (new : String) :
    (targets ++ [new]).eraseDups =
      if new ∈ targets then targets.eraseDups else targets.eraseDups ++ [new] := by
  rw [List.eraseDups_append]
  by_cases h : new ∈ targets
  · simp [List.removeAll, h]
  · simp [List.removeAll, h, List.eraseDups_cons]

namespace Registry

variable {M : Type → Type} [OrderedMap M]

/-- The entries are what is found under the targets. -/
theorem map_some_entries {registry : Registry M} (keyed : registry.Keyed) :
    registry.entries.map some = registry.targets.map registry.get? := by
  rw [targets, List.map_map]
  apply List.map_congr_left
  intro entry hmem
  exact ((get?_eq_some_iff keyed).2 ⟨hmem, rfl⟩).symm

/-! ## Histories of insertions -/

/-- A registry holds the targets of a history in the order in which they first came, and for each of
them the registration that came last. -/
structure Holds (registry : Registry M) (history : List Registration) : Prop where
  keyed : registry.Keyed
  targets : registry.targets = (history.map Registration.target).eraseDups
  get? : ∀ target, registry.get? target = latest? history target

theorem holds_nil {registry : Registry M} (keyed : registry.Keyed) :
    registry.entries = [] → registry.Holds [] := by
  intro hnone
  refine ⟨keyed, by simp [Registry.targets, hnone], fun target => ?_⟩
  exact (get?_eq_none_iff keyed).2 (by simp [Registry.targets, hnone])

namespace Holds

variable {registry : Registry M} {history : List Registration}

/-- An insertion adds its target or finds it there. -/
theorem insert (new : Registration) :
    registry.Holds history → (registry.insert new).1.Holds (history ++ [new]) := by
  intro h
  refine ⟨keyed_insert new h.keyed, ?_, fun target => ?_⟩
  · simp [targets_insert h.keyed, h.targets, eraseDups_concat]
  · rw [get?_insert, latest?_concat, h.get?]

/-- One entry for each target, in the order of the first insertions, and the last one for it. -/
theorem entries :
    registry.Holds history →
      registry.entries.map some =
        (history.map Registration.target).eraseDups.map (latest? history) := by
  intro h
  rw [map_some_entries h.keyed, h.targets]
  exact List.map_congr_left fun target _ => h.get? target

end Holds

end Registry
end Stencil
