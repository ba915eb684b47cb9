import Stencil.Engine.OrderedMap
import Stencil.Value.Basic

/-!
# The registry — renders that are drawn again

A registration says which template goes into which target with which data.  A registry is a map that
keeps registrations under their targets, in the order in which the targets were first registered.

* `Registration`, `Registry` — a render to be drawn again, and the map that they are kept in;
* `Registry.insert`, `Registry.clear` — one more registration, which hands out the one it replaces, and
  none at all;
* `Registry.Keyed` — every registration is kept under its own target, as both of them see to;
* `Registry.entries_insert_known`, `Registry.entries_insert_new` — the entries after an insertion, and
  what is handed out;
* `Registry.get?_eq_some_iff`, `Registry.get?_insert` — what a look-up finds, also after an insertion.
-/

namespace Stencil

/-- A render to be drawn again: a template with its data, and the target it goes into. -/
structure Registration where
  target : String
  template : String
  data : Option Context

/-- Registrations in a map that keeps their order. -/
structure Registry (M : Type → Type := KeyedList) where
  store : M Registration

namespace Registry

variable {M : Type → Type} [OrderedMap M]

/-- No registrations. -/
def empty : Registry M := ⟨OrderedMap.empty⟩

instance : EmptyCollection (Registry M) := ⟨empty⟩
instance : Inhabited (Registry M) := ⟨empty⟩

/-- The registrations in order. -/
def entries (registry : Registry M) : List Registration :=
  (OrderedMap.toList registry.store).map Prod.snd

/-- The targets in order. -/
def targets (registry : Registry M) : List String := registry.entries.map Registration.target

/-- The number of registrations. -/
def size (registry : Registry M) : Nat := OrderedMap.size registry.store

/-- Whether nothing is registered. -/
def isEmpty (registry : Registry M) : Bool := OrderedMap.isEmpty registry.store

/-- The registration of a target. -/
def get? (registry : Registry M) (target : String) : Option Registration :=
  OrderedMap.get? registry.store target

/-- The registry with a registration under its target, and the registration that it replaces. -/
def insert (registry : Registry M) (new : Registration) : Registry M × Option Registration :=
  let (store, replaced) := OrderedMap.insert registry.store new.target new
  (⟨store⟩, replaced)

/-- The registry without any registration. -/
def clear (registry : Registry M) : Registry M := ⟨OrderedMap.clear registry.store⟩

/-! ## Registrations under their own targets -/

/-- Every registration is kept under its own target. -/
def Keyed (registry : Registry M) : Prop :=
  ∀ entry ∈ OrderedMap.toList registry.store, entry.1 = entry.2.target

@[simp] theorem entries_empty : (empty : Registry M).entries = [] := by
  simp [entries, empty, OrderedMap.toList_empty]

@[simp] theorem entries_clear (registry : Registry M) : registry.clear.entries = [] := by
  simp [entries, clear, OrderedMap.toList_clear]

theorem keyed_empty : (empty : Registry M).Keyed := by
  simp [Keyed, empty, OrderedMap.toList_empty]

theorem keyed_clear (registry : Registry M) : registry.clear.Keyed := by
  simp [Keyed, clear, OrderedMap.toList_clear]

/-- An insertion keeps the new registration under its target, and all others where they were. -/
theorem keyed_insert {registry : Registry M} (new : Registration) :
    registry.Keyed → (registry.insert new).1.Keyed := by
  intro keyed entry mem
  -- Only the entry in the middle or at the end is new, and it is put under its own target.
  rcases OrderedMap.known_or_new registry.store new.target with ⟨before, old, after, whole⟩ | fresh
  · simp only [insert, (OrderedMap.insert_known new whole).1] at mem
    simp only [Keyed, whole] at keyed
    have kept := keyed entry
    simp only [List.mem_append, List.mem_cons] at mem kept
    rcases mem with before | rfl | after
    · exact kept (.inl before)
    · rfl
    · exact kept (.inr (.inr after))
  · simp only [insert, (OrderedMap.insert_new new fresh).1, List.mem_append,
      List.mem_singleton] at mem
    rcases mem with earlier | rfl
    · exact keyed entry earlier
    · rfl

theorem get?_insert (registry : Registry M) (new : Registration) (target : String) :
    (registry.insert new).1.get? target =
      if target = new.target then some new else registry.get? target :=
  OrderedMap.get?_insert registry.store new.target new target

/-- A known target has a registration, which stands somewhere among the others. -/
theorem known_or_new (registry : Registry M) (target : String) :
    (∃ before old after, registry.entries = before ++ old :: after ∧ old.target = target) ∨
      target ∉ registry.targets := by
  by_cases known : target ∈ registry.targets
  · obtain ⟨old, mem, same⟩ := List.mem_map.1 known
    obtain ⟨before, after, whole⟩ := List.append_of_mem mem
    exact .inl ⟨before, old, after, whole, same⟩
  · exact .inr known

section Keyed

variable {registry : Registry M} (keyed : registry.Keyed)
include keyed

theorem targets_eq_keys : registry.targets = OrderedMap.keys registry.store := by
  rw [targets, entries, OrderedMap.keys, List.map_map]
  exact List.map_congr_left fun entry mem => (keyed entry mem).symm

/-- No two registrations have the same target. -/
theorem nodup_targets : registry.targets.Nodup :=
  targets_eq_keys keyed ▸ OrderedMap.nodup_keys registry.store

theorem mem_toList_iff {target : String} {entry : Registration} :
    (target, entry) ∈ OrderedMap.toList registry.store ↔
      entry ∈ registry.entries ∧ entry.target = target := by
  constructor
  · exact fun mem => ⟨List.mem_map_of_mem mem, (keyed _ mem).symm⟩
  · rintro ⟨mem, rfl⟩
    obtain ⟨⟨key, found⟩, listed, rfl⟩ := List.mem_map.1 mem
    exact keyed _ listed ▸ listed

/-- A registration is found under its own target and nowhere else. -/
theorem get?_eq_some_iff {target : String} {entry : Registration} :
    registry.get? target = some entry ↔ entry ∈ registry.entries ∧ entry.target = target :=
  OrderedMap.get?_eq_some_iff.trans (mem_toList_iff keyed)

theorem get?_eq_none_iff {target : String} :
    registry.get? target = none ↔ target ∉ registry.targets := by
  simp only [Option.eq_none_iff_forall_ne_some, ne_eq, get?_eq_some_iff keyed, not_and, targets,
    List.mem_map, not_exists]

/-! ## Insertions -/

/-- A registration for a known target takes the place of the one that it hands out. -/
theorem entries_insert_known {before after : List Registration} {old : Registration}
    (new : Registration) :
    registry.entries = before ++ old :: after → old.target = new.target →
      (registry.insert new).1.entries = before ++ new :: after ∧
        (registry.insert new).2 = some old := by
  intro whole same
  -- The listing of the map is cut where the registrations are, and its key there is the target.
  obtain ⟨front, rest, listed, rfl, split⟩ := List.map_eq_append_iff.1 whole
  obtain ⟨⟨key, entry⟩, back, rfl, rfl, rfl⟩ := List.map_eq_cons_iff.1 split
  have here : key = new.target := by
    rw [← same]
    exact keyed (key, entry) (by simp [listed])
  subst here
  obtain ⟨exchanged, answer⟩ := OrderedMap.insert_known new listed
  exact ⟨by simp [insert, entries, exchanged], answer⟩

/-- A registration for a new target comes last, and hands out nothing. -/
theorem entries_insert_new (new : Registration) :
    new.target ∉ registry.targets →
      (registry.insert new).1.entries = registry.entries ++ [new] ∧
        (registry.insert new).2 = none := by
  intro fresh
  rw [targets_eq_keys keyed] at fresh
  obtain ⟨added, answer⟩ := OrderedMap.insert_new new fresh
  exact ⟨by simp [insert, entries, added], answer⟩

/-- A target that is new comes last, and any other one keeps its place. -/
theorem targets_insert (new : Registration) :
    (registry.insert new).1.targets =
      if new.target ∈ registry.targets then registry.targets
      else registry.targets ++ [new.target] := by
  rcases known_or_new registry new.target with ⟨before, old, after, whole, same⟩ | fresh
  · have known : new.target ∈ registry.targets := by simp [targets, whole, same]
    rw [if_pos known, targets, (entries_insert_known keyed new whole same).1]
    simp [targets, whole, same]
  · rw [if_neg fresh, targets, (entries_insert_new keyed new fresh).1]
    simp [targets]

/-- What an insertion hands out is what was found under the target. -/
theorem insert_eq_get? (new : Registration) :
    (registry.insert new).2 = registry.get? new.target := by
  rcases known_or_new registry new.target with ⟨before, old, after, whole, same⟩ | fresh
  · rw [(entries_insert_known keyed new whole same).2, eq_comm, get?_eq_some_iff keyed]
    exact ⟨by simp [whole], same⟩
  · rw [(entries_insert_new keyed new fresh).2, eq_comm, get?_eq_none_iff keyed]
    exact fresh

end Keyed

end Registry
end Stencil
