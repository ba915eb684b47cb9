import Mathlib.Data.Set.Card
import Stencil.Proofs.Registration

/-!
# Turnover — what a registry holds after any insertions and clearings

A registry forgets everything when it is cleared, and what it holds afterwards is told by the
registrations inserted since then: one for each of their targets, in the order in which the targets
first came, and always the last one.  This rests on the laws of ordered maps alone, whatever map the
registrations are kept in.

* `Registry.Operation`, `Registry.run` — insertions and clearings, and the registry that they leave;
* `Registry.inserted`, `Registry.perform_holds`, `Registry.run_holds` — what was inserted since the last
  clearing, and that a registry holds it: kept by every operation, and so true of every run;
* `Registry.pairwise_eraseDups` — without repetitions, texts stand in the order of their first places;
* `Registry.run_holds_latest` — the laws of registries after any operations.
-/

namespace Stencil
namespace Registry

variable {M : Type → Type} [OrderedMap M]

/-! ## Operations -/

/-- An operation on a registry. -/
inductive Operation where
  | insert (new : Registration)
  | clear

/-- A registry after an operation, and the registration that it hands out. -/
def perform (registry : Registry M) : Operation → Registry M × Option Registration
  | .insert new => registry.insert new
  | .clear => (registry.clear, none)

/-- The registry that operations leave, made one after the other from the empty one on. -/
def run (M : Type → Type) [OrderedMap M] (operations : List Operation) : Registry M :=
  operations.foldl (fun registry operation => (perform registry operation).1) ∅

/-- The registrations since the last clearing, with one more operation. -/
def note (history : List Registration) : Operation → List Registration
  | .insert new => history ++ [new]
  | .clear => []

/-- The registrations that were inserted since the last clearing, in order. -/
def inserted (operations : List Operation) : List Registration :=
  operations.foldl note []

/-- An operation on a registry is noted in its history. -/
theorem perform_holds {registry : Registry M} {history : List Registration}
    (operation : Operation) :
    registry.Holds history → (perform registry operation).1.Holds (note history operation) := by
  intro h
  cases operation with
  | insert new => exact h.insert new
  | clear => exact holds_nil (keyed_clear registry) (entries_clear registry)

/-- A registry holds what was inserted since it was last cleared. -/
theorem run_holds (operations : List Operation) : (run M operations).Holds (inserted operations) := by
  induction operations using List.reverseRecOn with
  | nil => exact holds_nil keyed_empty entries_empty
  | append_singleton operations last ih =>
      simpa [run, inserted] using perform_holds last ih

/-! ## The order of targets -/

/-- Without their repetitions, texts stand in the order in which they first occur. -/
theorem pairwise_eraseDups (targets : List String) :
    targets.eraseDups.Pairwise fun first second => targets.idxOf first < targets.idxOf second := by
  induction targets using List.reverseRecOn with
  | nil => exact .nil
  | append_singleton targets last ih =>
      -- Where a text first occurs does not change when something is added at the end.
      have hkept : ∀ first ∈ targets, (targets ++ [last]).idxOf first = targets.idxOf first :=
        fun first hmem => List.idxOf_append_of_mem hmem
      have hpairs : targets.eraseDups.Pairwise fun first second =>
          (targets ++ [last]).idxOf first < (targets ++ [last]).idxOf second := by
        refine ih.imp_of_mem fun hfirst hsecond hless => ?_
        rwa [hkept _ (List.mem_eraseDups.1 hfirst), hkept _ (List.mem_eraseDups.1 hsecond)]
      rw [eraseDups_concat]
      split
      · exact hpairs
      · rename_i hnew
        refine List.pairwise_append.2 ⟨hpairs, List.pairwise_singleton _ _, ?_⟩
        intro first hfirst second hsecond
        have hmem := List.mem_eraseDups.1 hfirst
        obtain rfl := List.mem_singleton.1 hsecond
        rw [hkept first hmem, List.idxOf_append_of_notMem hnew]
        have := List.idxOf_lt_length_of_mem hmem
        omega

namespace Holds

variable {registry : Registry M} {history : List Registration}

theorem mem_targets {target : String} :
    registry.Holds history →
      (target ∈ registry.targets ↔ ∃ entry ∈ history, entry.target = target) := by
  intro h
  rw [h.targets, List.mem_eraseDups, List.mem_map]

/-- A registry is as large as the number of targets that something was inserted for. -/
theorem length_entries :
    registry.Holds history →
      registry.entries.length = {target | ∃ entry ∈ history, entry.target = target}.ncard := by
  intro h
  have htargets : {target | ∃ entry ∈ history, entry.target = target} =
      (registry.targets.toFinset : Set String) := by
    ext target
    simp [h.mem_targets]
  rw [htargets, Set.ncard_coe_finset, List.toFinset_card_of_nodup (nodup_targets h.keyed)]
  exact (List.length_map _).symm

theorem entries_eq_nil_iff : registry.Holds history → (registry.entries = [] ↔ history = []) := by
  intro h
  have htargets : registry.entries = [] ↔ ∀ target, target ∉ registry.targets := by
    rw [← List.eq_nil_iff_forall_not_mem, Registry.targets, List.map_eq_nil_iff]
  rw [htargets]
  simp only [h.mem_targets, List.eq_nil_iff_forall_not_mem]
  constructor
  · intro hnone entry hmem
    exact hnone entry.target ⟨entry, hmem, rfl⟩
  · rintro hnone target ⟨entry, hmem, -⟩
    exact hnone entry hmem

end Holds

/-! ## The laws of registries -/

theorem size_eq (registry : Registry M) : registry.size = registry.entries.length := by
  rw [size, OrderedMap.size_eq, entries, List.length_map]

theorem isEmpty_iff {registry : Registry M} : registry.isEmpty ↔ registry.entries = [] := by
  rw [isEmpty, OrderedMap.isEmpty_eq, List.isEmpty_iff, entries, List.map_eq_nil_iff]

/-- After any operations, a registry lists one entry for each target that was inserted since the last
clearing: the last one for it, in the order in which the targets were first inserted.  Each entry is
kept and found under its own target and nothing else is found, the size is the number of targets, and an
insertion hands out just the entry that gives way to the new one, if the target was known. -/
theorem run_holds_latest (operations : List Operation) :
    let registry := run M operations
    let history := inserted operations
    let places := history.map Registration.target
    (∀ target, target ∈ registry.targets ↔ target ∈ places) ∧
    registry.targets.Pairwise (fun first second => places.idxOf first < places.idxOf second) ∧
    registry.entries.map some = registry.targets.map (latest? history) ∧
    OrderedMap.keys registry.store = registry.targets ∧
    (∀ target entry, registry.get? target = some entry ↔
      entry ∈ registry.entries ∧ entry.target = target) ∧
    registry.size = registry.entries.length ∧
    registry.size = {target | target ∈ places}.ncard ∧
    (registry.isEmpty ↔ history = []) ∧
    ∀ new,
      let insertion := perform registry (.insert new)
      insertion.2 = latest? history new.target ∧
      (insertion.2 = none ↔ new.target ∉ places) ∧
      (insertion.2 = none → insertion.1.entries = registry.entries ++ [new]) ∧
      ∀ old, insertion.2 = some old → old.target = new.target ∧
        ∃ before after, registry.entries = before ++ old :: after ∧
          insertion.1.entries = before ++ new :: after := by
  intro registry history places
  have h : registry.Holds history := run_holds operations
  have hplaces : ∀ target, target ∈ places ↔ ∃ entry ∈ history, entry.target = target :=
    fun target => List.mem_map
  refine ⟨?_, ?_, ?_, (targets_eq_keys h.keyed).symm, fun target entry => get?_eq_some_iff h.keyed,
    size_eq registry, ?_, ?_, ?_⟩
  · intro target
    rw [h.mem_targets, hplaces]
  · rw [h.targets]
    exact pairwise_eraseDups places
  · rw [h.entries, h.targets]
  · simp only [hplaces, size_eq]
    exact h.length_entries
  · rw [isEmpty_iff, h.entries_eq_nil_iff]
  · intro new insertion
    have hanswer : insertion.2 = latest? history new.target := by
      rw [← h.get?]
      exact insert_eq_get? h.keyed new
    have hnone : insertion.2 = none ↔ new.target ∉ places := by
      rw [hanswer, latest?_eq_none_iff, hplaces]
      simp
    have hfresh : new.target ∉ places → new.target ∉ registry.targets := by
      rw [h.mem_targets, hplaces]
      exact id
    refine ⟨hanswer, hnone, fun hnew => ?_, fun old hold => ?_⟩
    · exact (entries_insert_new h.keyed new (hfresh (hnone.1 hnew))).1
    · -- What is handed out stood under the target, so it is the entry that is exchanged.
      rw [hanswer, ← h.get?, get?_eq_some_iff h.keyed] at hold
      rcases List.append_of_mem hold.1 with ⟨before, after, hsplit⟩
      exact ⟨hold.2, before, after, hsplit, (entries_insert_known h.keyed new hsplit hold.2).1⟩

/-- What came before the clearing is forgotten, and `y` keeps its place when it is inserted again. -/
theorem run_holds_latest_again :
    let operations := [.insert ⟨"x", "a", none⟩, .clear, .insert ⟨"y", "b", none⟩,
      .insert ⟨"x", "c", none⟩, .insert ⟨"y", "d", none⟩]
    let registry := run KeyedList operations
    let insertion := perform registry (.insert ⟨"y", "e", none⟩)
    registry.targets = ["y", "x"] ∧ insertion.2 = some ⟨"y", "d", none⟩ ∧
      (perform registry (.insert ⟨"z", "f", none⟩)).1.entries =
        registry.entries ++ [⟨"z", "f", none⟩] ∧
      ∃ before after, registry.entries = before ++ ⟨"y", "d", none⟩ :: after ∧
        insertion.1.entries = before ++ ⟨"y", "e", none⟩ :: after := by
  intro operations registry insertion
  rcases @run_holds_latest KeyedList _ operations with ⟨-, -, -, -, -, -, -, -, hinsert⟩
  have hknown : insertion.2 = some ⟨"y", "d", none⟩ := rfl
  exact ⟨by decide, hknown, (hinsert ⟨"z", "f", none⟩).2.2.1 rfl,
    ((hinsert ⟨"y", "e", none⟩).2.2.2 _ hknown).2⟩

end Registry
end Stencil
