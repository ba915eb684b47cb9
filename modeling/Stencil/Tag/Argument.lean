import Stencil.Text.Lead

/-!
# Arguments — the text inside a tag

A tag with an argument is two opening braces and a word, one or more characters other than a closing
brace, and two closing braces.  The first closing brace ends the argument, so an argument may hold
anything else, opening braces included.

* `Argument.Valid` — what may stand as an argument;
* `Argument.written`, `Argument.at?` — a tag with its argument, and the argument of the tag at the
  head of a text;
* `Argument.at?_eq_some_iff` — the two agree.
-/

namespace Stencil
namespace Argument

/-- An argument has at least one character and no closing brace. -/
def Valid (argument : List Char) : Prop :=
  argument ≠ [] ∧ '}' ∉ argument

instance (argument : List Char) : Decidable (Valid argument) :=
  inferInstanceAs (Decidable (_ ∧ _))

/-- Whether a character may stand in an argument. -/
def isInner (c : Char) : Bool := c ≠ '}'

/-- What starts a tag: two opening braces and a word. -/
def opening (word : String) : List Char := '{' :: '{' :: word.toList

/-- What ends a tag. -/
def close : List Char := ['}', '}']

/-- A tag with a word and an argument. -/
def written (word : String) (argument : List Char) : List Char :=
  opening word ++ argument ++ close

/-- The argument of the tag with a word at the head of a text. -/
def at? (word : String) (text : List Char) : Option (List Char) :=
  match Text.behind? (opening word) text with
  | none => none
  | some rest =>
      let argument := rest.takeWhile isInner
      if argument ≠ [] ∧ (Text.behind? close (rest.dropWhile isInner)).isSome then
        some argument
      else
        none

/-! ## Reading is the inverse of writing -/

theorem takeWhile_of_free {argument rest : List Char} (free : '}' ∉ argument) :
    (argument ++ '}' :: rest).takeWhile isInner = argument := by
  induction argument with
  | nil => simp [isInner]
  | cons c argument ih => simp_all [isInner, Ne.symm]

theorem dropWhile_of_free {argument rest : List Char} (free : '}' ∉ argument) :
    (argument ++ '}' :: rest).dropWhile isInner = '}' :: rest := by
  induction argument with
  | nil => simp [isInner]
  | cons c argument ih => simp_all [isInner, Ne.symm]

theorem not_mem_takeWhile (text : List Char) : '}' ∉ text.takeWhile isInner := by
  induction text with
  | nil => simp
  | cons c text ih => by_cases h : c = '}' <;> simp_all [isInner, Ne.symm]

/-- A text has an argument at its head exactly when it starts with the tag of a valid argument. -/
theorem at?_eq_some_iff {word : String} {text argument : List Char} :
    at? word text = some argument ↔
      Valid argument ∧ ∃ rest, text = written word argument ++ rest := by
  constructor
  · intro h
    simp only [at?] at h
    split at h
    · cases h
    · rename_i rest behind
      split at h
      · rename_i good
        cases h
        obtain ⟨tail, closed⟩ := Option.isSome_iff_exists.1 good.2
        refine ⟨⟨good.1, not_mem_takeWhile rest⟩, tail, ?_⟩
        rw [Text.behind?_eq_some_iff.1 behind, written, List.append_assoc, List.append_assoc,
          ← Text.behind?_eq_some_iff.1 closed, List.takeWhile_append_dropWhile]
      · cases h
  · rintro ⟨⟨nonempty, free⟩, rest, rfl⟩
    have behind : Text.behind? (opening word) (written word argument ++ rest) =
        some (argument ++ '}' :: '}' :: rest) :=
      Text.behind?_eq_some_iff.2 (by simp [written, close])
    simp only [at?, behind, takeWhile_of_free free, dropWhile_of_free free]
    simp [nonempty, close, Text.behind?]

end Argument
end Stencil
