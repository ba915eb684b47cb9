/-!
# Bytes — lengths and cuts of a text in UTF-8 bytes

* `Text.byteLength` — the length of a text in bytes;
* `Text.splitBytes?` — a text cut behind a number of bytes, which must not be inside a character;
* `Text.IsBoundary` — the byte offsets at which a text can be cut.
-/

namespace Stencil
namespace Text

/-- The number of UTF-8 bytes of a text. -/
def byteLength : List Char → Nat
  | [] => 0
  | c :: text => c.utf8Size + byteLength text

/-- Cuts a text behind its first `count` bytes; `none` when that is inside a character or past the
end. -/
def splitBytes? : Nat → List Char → Option (List Char × List Char)
  | 0, text => some ([], text)
  | _ + 1, [] => none
  | count + 1, c :: text =>
      if c.utf8Size ≤ count + 1 then
        (splitBytes? (count + 1 - c.utf8Size) text).map fun (before, after) => (c :: before, after)
      else
        none

@[simp] theorem byteLength_nil : byteLength [] = 0 := rfl

@[simp] theorem byteLength_cons (c : Char) (text : List Char) :
    byteLength (c :: text) = c.utf8Size + byteLength text := rfl

@[simp] theorem byteLength_append (left right : List Char) :
    byteLength (left ++ right) = byteLength left + byteLength right := by
  induction left with
  | nil => simp
  | cons c left ih => simp [ih, Nat.add_assoc]

theorem eq_nil_of_byteLength_eq_zero {text : List Char} : byteLength text = 0 → text = [] := by
  intro h
  cases text with
  | nil =>
      rfl
  | cons c text =>
      have hpos := c.utf8Size_pos
      simp only [byteLength_cons] at h
      omega

/-- Of two initial parts of a text, the one with fewer bytes is an initial part of the other. -/
theorem exists_of_byteLength_le {front back left right : List Char}
    (same : front ++ back = left ++ right) :
    byteLength front ≤ byteLength left → ∃ more, left = front ++ more ∧ back = more ++ right := by
  intro h
  rcases List.append_eq_append_iff.1 same with ⟨more, hleft, hback⟩ | ⟨more, hfront, hright⟩
  · exact ⟨more, hleft, hback⟩
  · have hlength : byteLength more = 0 := by
      rw [hfront, byteLength_append] at h
      omega
    have hnil := eq_nil_of_byteLength_eq_zero hlength
    subst hnil
    exact ⟨[], by simpa using hfront.symm, by simpa using hright.symm⟩

/-- The two sides of a cut make up the text, and the first has the bytes asked for. -/
theorem append_of_splitBytes? {count : Nat} {text before after : List Char}
    (h : splitBytes? count text = some (before, after)) :
    text = before ++ after ∧ byteLength before = count := by
  induction text generalizing count before with
  | nil =>
      cases count with
      | zero => simp_all [splitBytes?]
      | succ count => simp [splitBytes?] at h
  | cons c text ih =>
      cases count with
      | zero => simp_all [splitBytes?]
      | succ count =>
          simp only [splitBytes?] at h
          split at h
          · rename_i fits
            obtain ⟨⟨rest, tail⟩, cut, same⟩ := Option.map_eq_some_iff.1 h
            obtain ⟨rfl, rfl⟩ := Prod.mk.inj same
            obtain ⟨rfl, length⟩ := ih cut
            exact ⟨rfl, by simp [length]; omega⟩
          · cases h

/-- A text can be cut behind any initial part of it. -/
theorem splitBytes?_append (before after : List Char) :
    splitBytes? (byteLength before) (before ++ after) = some (before, after) := by
  induction before with
  | nil => simp [splitBytes?]
  | cons c before ih =>
      have positive := c.utf8Size_pos
      obtain ⟨count, hcount⟩ : ∃ count, byteLength (c :: before) = count + 1 :=
        ⟨byteLength (c :: before) - 1, by simp; omega⟩
      have fits : c.utf8Size ≤ count + 1 := by rw [← hcount]; simp
      have left : count + 1 - c.utf8Size = byteLength before := by rw [← hcount]; simp
      simp [hcount, splitBytes?, fits, left, ih]

/-- A byte offset at which a character of the text starts, or the text ends. -/
def IsBoundary (text : List Char) (offset : Nat) : Prop :=
  ∃ before after, text = before ++ after ∧ byteLength before = offset

theorem splitBytes?_eq_none_iff {count : Nat} {text : List Char} :
    splitBytes? count text = none ↔ ¬ IsBoundary text count := by
  constructor
  · rintro h ⟨before, after, rfl, rfl⟩
    simp [splitBytes?_append] at h
  · intro h
    cases cut : splitBytes? count text with
    | none => rfl
    | some parts => exact absurd ⟨_, _, append_of_splitBytes? cut⟩ h

end Text
end Stencil
