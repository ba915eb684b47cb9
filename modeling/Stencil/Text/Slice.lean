import Stencil.Text.Bytes
import Stencil.Text.Lead

/-!
# Slices — parts of a text by byte offset

* `Text.slice?` — the part between two byte offsets, if both are boundaries and in order;
* `Text.find?` — the byte offset at which a lead occurs first.
-/

namespace Stencil
namespace Text

/-- The part of a text between two byte offsets; `none` when one of them is inside a character or past
the end, or when they are not in order. -/
def slice? (text : List Char) (start stop : Nat) : Option (List Char) := do
  let (front, _) ← splitBytes? stop text
  let (_, part) ← splitBytes? start front
  return part

/-- The byte offset of the first place at which a text goes on with `lead`. -/
def find? (lead : List Char) : List Char → Option Nat
  | [] => if lead = [] then some 0 else none
  | c :: text =>
      if (behind? lead (c :: text)).isSome then some 0
      else (find? lead text).map (c.utf8Size + ·)

/-! ## Boundaries -/

/-- A boundary of a text is one of every initial part that goes as far. -/
theorem IsBoundary.of_append {front back : List Char} {offset : Nat} :
    IsBoundary (front ++ back) offset → offset ≤ byteLength front → IsBoundary front offset := by
  rintro ⟨before, after, hsame, rfl⟩ hwithin
  rcases exists_of_byteLength_le hsame.symm hwithin with ⟨more, hfront, -⟩
  exact ⟨before, more, hfront, rfl⟩

/-! ## The part between two offsets -/

theorem slice?_eq_some_iff {text part : List Char} {start stop : Nat} :
    slice? text start stop = some part ↔
      ∃ before after, text = before ++ part ++ after ∧ byteLength before = start ∧
        start + byteLength part = stop := by
  constructor
  · intro h
    simp only [slice?, Option.bind_eq_bind, Option.bind_eq_some_iff, Prod.exists,
      Option.pure_def, Option.some.injEq] at h
    rcases h with ⟨front, after, houter, before, part, hinner, rfl⟩
    rcases append_of_splitBytes? houter with ⟨rfl, hstop⟩
    rcases append_of_splitBytes? hinner with ⟨rfl, hstart⟩
    rw [byteLength_append] at hstop
    exact ⟨before, after, rfl, hstart, by omega⟩
  · rintro ⟨before, after, rfl, rfl, rfl⟩
    rw [← byteLength_append, slice?, splitBytes?_append]
    simp [splitBytes?_append]

/-- There is such a part exactly for two boundaries in order. -/
theorem isSome_slice?_iff {text : List Char} {start stop : Nat} :
    (slice? text start stop).isSome ↔
      IsBoundary text start ∧ IsBoundary text stop ∧ start ≤ stop := by
  rw [Option.isSome_iff_exists]
  constructor
  · rintro ⟨part, h⟩
    rcases slice?_eq_some_iff.1 h with ⟨before, after, rfl, rfl, rfl⟩
    refine ⟨⟨before, part ++ after, List.append_assoc .., rfl⟩, ?_, Nat.le_add_right ..⟩
    exact ⟨before ++ part, after, rfl, byteLength_append ..⟩
  · rintro ⟨hstart, ⟨front, back, rfl, rfl⟩, horder⟩
    rcases hstart.of_append horder with ⟨before, part, rfl, rfl⟩
    exact ⟨part, slice?_eq_some_iff.2 ⟨before, back, rfl, rfl, (byteLength_append ..).symm⟩⟩

/-! ## The first occurrence -/

theorem behind?_append (lead rest : List Char) : behind? lead (lead ++ rest) = some rest :=
  behind?_eq_some_iff.2 rfl

/-- Where a lead is found, it stands. -/
theorem exists_of_find? {lead text : List Char} {found : Nat} :
    find? lead text = some found →
      ∃ before after, text = before ++ lead ++ after ∧ byteLength before = found := by
  intro h
  induction text generalizing found with
  | nil =>
      by_cases hlead : lead = []
      · exact ⟨[], [], by simp [hlead], by simpa [find?, hlead] using h⟩
      · simp [find?, hlead] at h
  | cons c text ih =>
      simp only [find?] at h
      split at h
      · rename_i hhere
        rcases Option.isSome_iff_exists.1 hhere with ⟨after, hafter⟩
        exact ⟨[], after, behind?_eq_some_iff.1 hafter, by simpa using h⟩
      · rcases Option.map_eq_some_iff.1 h with ⟨later, hlater, rfl⟩
        rcases ih hlater with ⟨before, after, rfl, rfl⟩
        exact ⟨c :: before, after, rfl, rfl⟩

/-- It is found at the latest where it stands. -/
theorem exists_find?_le {lead : List Char} (before after : List Char) :
    ∃ found ≤ byteLength before, find? lead (before ++ lead ++ after) = some found := by
  induction before with
  | nil =>
      refine ⟨0, Nat.le_refl 0, ?_⟩
      cases hwhole : lead ++ after with
      | nil =>
          simp_all [find?]
      | cons c text =>
          have hhere := behind?_append lead after
          rw [hwhole] at hhere
          simp [hwhole, find?, hhere]
  | cons c before ih =>
      rcases ih with ⟨later, hle, hlater⟩
      simp only [List.cons_append, find?]
      split
      · exact ⟨0, Nat.zero_le _, rfl⟩
      · exact ⟨c.utf8Size + later, Nat.add_le_add_left hle _, by rw [hlater]; rfl⟩

end Text
end Stencil
