import Stencil.Tag.Argument
import Stencil.Text.Scan

/-!
# References — the places of a text that wait for the text of a key

A reference names a key between braces, behind the word `i18n:`.  References are replaced before any
tag of the text is looked at.
-/

namespace Stencil

/-- The place of the text of a key. -/
structure Reference where
  key : String
  deriving DecidableEq, Repr

namespace Reference

/-- How a reference is written. -/
def written (reference : Reference) : List Char :=
  Argument.written "i18n:" reference.key.toList

/-- The reference at the head of a text. -/
def at? (text : List Char) : Option Reference :=
  (Argument.at? "i18n:" text).map fun key => ⟨String.ofList key⟩

/-- A reference stands at the head of a text exactly when its key is valid and the text starts with
it. -/
theorem at?_eq_some_iff {text : List Char} {reference : Reference} :
    at? text = some reference ↔
      Argument.Valid reference.key.toList ∧ reference.written <+: text := by
  constructor
  · intro h
    obtain ⟨key, found, rfl⟩ := Option.map_eq_some_iff.1 h
    obtain ⟨good, rest, same⟩ := Argument.at?_eq_some_iff.1 found
    exact ⟨by simpa using good, rest, by simp [written, same]⟩
  · rintro ⟨good, rest, rfl⟩
    have found : Argument.at? "i18n:" (reference.written ++ rest) = some reference.key.toList :=
      Argument.at?_eq_some_iff.2 ⟨good, rest, rfl⟩
    simp [at?, found]

theorem written_ne_nil (reference : Reference) : reference.written ≠ [] := by
  simp [written, Argument.written, Argument.opening]

instance : Mark Reference where
  written := written
  at? := at?
  written_ne_nil := written_ne_nil
  initial_of_at? h := (at?_eq_some_iff.1 h).2

end Reference
end Stencil
