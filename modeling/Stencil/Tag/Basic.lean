import Stencil.Tag.Argument
import Stencil.Text.Scan

/-!
# Tags — the notation that controls a template

* `Tag` — the six kinds of tags;
* `Tag.written`, `Tag.at?` — how a tag is written, and the tag at the head of a text;
* `Tag.at?_eq_some_iff` — the two agree on tags with valid arguments, so nothing else is a tag.
-/

namespace Stencil

/-- A control tag. -/
inductive Tag where
  /-- Stands for the value under a key. -/
  | value (key : String)
  /-- Opens a block that is repeated for the items under a key. -/
  | loop (key : String)
  /-- Opens a block that is shown under a condition. -/
  | test (condition : String)
  /-- Divides a block under a condition into the part for true and the part for false. -/
  | otherwise
  /-- Opens the text that stands between the repetitions of a loop. -/
  | separator
  /-- Closes the innermost open block. -/
  | close
  deriving DecidableEq, Repr

namespace Tag

/-- Whether a tag opens a block. -/
def opens : Tag → Bool
  | loop _ | test _ | separator => true
  | value _ | otherwise | close => false

/-- A tag that is a word between braces. -/
def bare (word : String) : List Char := Argument.opening word ++ Argument.close

/-- How a tag is written. -/
def written : Tag → List Char
  | value key => Argument.written "=" key.toList
  | loop key => Argument.written "for:" key.toList
  | test condition => Argument.written "if:" condition.toList
  | otherwise => bare "else"
  | separator => bare "sep"
  | close => bare "end"

/-- The text of a tag. -/
def toText (tag : Tag) : String := String.ofList tag.written

@[simp] theorem toList_toText (tag : Tag) : tag.toText.toList = tag.written := by
  simp [toText]

/-- The tag at the head of a text. -/
def at? (text : List Char) : Option Tag :=
  -- No text starts with two different tags, so the order of the attempts does not matter.
  if (Text.behind? (bare "end") text).isSome then some close
  else if (Text.behind? (bare "else") text).isSome then some otherwise
  else if (Text.behind? (bare "sep") text).isSome then some separator
  else
    ((Argument.at? "=" text).map fun key => value (String.ofList key)).or <|
    ((Argument.at? "for:" text).map fun key => loop (String.ofList key)).or <|
    (Argument.at? "if:" text).map fun condition => test (String.ofList condition)

/-- A tag whose argument, if it takes one, is valid. -/
def Valid : Tag → Prop
  | value key => Argument.Valid key.toList
  | loop key => Argument.Valid key.toList
  | test condition => Argument.Valid condition.toList
  | otherwise | separator | close => True

theorem valid_separator : separator.Valid := trivial

theorem valid_otherwise : otherwise.Valid := trivial

theorem valid_close : close.Valid := trivial

/-! ## Reading is the inverse of writing -/

theorem initial_iff_behind? {lead text : List Char} :
    lead <+: text ↔ (Text.behind? lead text).isSome := by
  simp only [Option.isSome_iff_exists, Text.behind?_eq_some_iff]
  exact ⟨fun ⟨rest, same⟩ => ⟨rest, same.symm⟩, fun ⟨rest, same⟩ => ⟨rest, same.symm⟩⟩

/-- The tag read at the head of a text is valid, and the text starts with it. -/
theorem valid_and_initial_of_at? {text : List Char} {tag : Tag} (h : at? text = some tag) :
    tag.Valid ∧ tag.written <+: text := by
  -- The three kinds with an argument differ only in their word.
  have argument {word : String} (make : String → Tag)
      (valid : ∀ key, Argument.Valid key.toList → (make key).Valid)
      (writes : ∀ key, (make key).written = Argument.written word key.toList)
      (h : (Argument.at? word text).map (fun key => make (String.ofList key)) = some tag) :
      tag.Valid ∧ tag.written <+: text := by
    obtain ⟨key, found, rfl⟩ := Option.map_eq_some_iff.1 h
    obtain ⟨good, rest, same⟩ := Argument.at?_eq_some_iff.1 found
    exact ⟨valid _ (by simpa using good), rest, by simp [writes, same]⟩
  unfold at? at h
  split at h
  · cases h; exact ⟨trivial, initial_iff_behind?.2 ‹_›⟩
  split at h
  · cases h; exact ⟨trivial, initial_iff_behind?.2 ‹_›⟩
  split at h
  · cases h; exact ⟨trivial, initial_iff_behind?.2 ‹_›⟩
  rcases Option.or_eq_some_iff.1 h with h | ⟨_, h⟩
  · exact argument value (fun _ good => good) (fun _ => rfl) h
  rcases Option.or_eq_some_iff.1 h with h | ⟨_, h⟩
  · exact argument loop (fun _ good => good) (fun _ => rfl) h
  · exact argument test (fun _ good => good) (fun _ => rfl) h

/-- A text starts with a bare tag only if its first word is that of the tag. -/
theorem not_behind?_bare (word other : String) (argument rest : List Char) {c d : Char}
    (first : word.toList.head? = some c) (first' : other.toList.head? = some d) (differ : c ≠ d) :
    Text.behind? (bare word) (Argument.written other argument ++ rest) = none := by
  obtain ⟨tail, h⟩ := List.head?_eq_some_iff.1 first
  obtain ⟨tail', h'⟩ := List.head?_eq_some_iff.1 first'
  simp [bare, Argument.written, Argument.opening, h, h', Text.behind?, differ]

/-- A text starts with a tag with an argument only if its first word is that of the tag. -/
theorem at?_written_of_ne (word other : String) (argument rest : List Char) {c d : Char}
    (first : word.toList.head? = some c) (first' : other.toList.head? = some d) (differ : c ≠ d) :
    Argument.at? word (Argument.written other argument ++ rest) = none := by
  obtain ⟨tail, h⟩ := List.head?_eq_some_iff.1 first
  obtain ⟨tail', h'⟩ := List.head?_eq_some_iff.1 first'
  simp [Argument.at?, Argument.written, Argument.opening, h, h', Text.behind?, differ]

/-- A tag stands at the head of a text exactly when it is valid and the text starts with it. -/
theorem at?_eq_some_iff {text : List Char} {tag : Tag} :
    at? text = some tag ↔ tag.Valid ∧ tag.written <+: text := by
  refine ⟨valid_and_initial_of_at?, fun ⟨good, rest, same⟩ => ?_⟩
  subst same
  have found (word : String) {key : String} (good : Argument.Valid key.toList) :
      Argument.at? word (Argument.written word key.toList ++ rest) = some key.toList :=
    Argument.at?_eq_some_iff.2 ⟨good, rest, rfl⟩
  cases tag with
  | close => simp [at?, written, bare, Argument.opening, Argument.close, Text.behind?]
  | otherwise => simp [at?, written, bare, Argument.opening, Argument.close, Text.behind?]
  | separator => simp [at?, written, bare, Argument.opening, Argument.close, Text.behind?]
  | value key =>
      simp only [written, at?,
        not_behind?_bare "end" "=" key.toList rest rfl rfl (by decide),
        not_behind?_bare "else" "=" key.toList rest rfl rfl (by decide),
        not_behind?_bare "sep" "=" key.toList rest rfl rfl (by decide),
        found "=" good]
      simp
  | loop key =>
      simp only [written, at?,
        not_behind?_bare "end" "for:" key.toList rest rfl rfl (by decide),
        not_behind?_bare "else" "for:" key.toList rest rfl rfl (by decide),
        not_behind?_bare "sep" "for:" key.toList rest rfl rfl (by decide),
        at?_written_of_ne "=" "for:" key.toList rest rfl rfl (by decide),
        found "for:" good]
      simp
  | test condition =>
      simp only [written, at?,
        not_behind?_bare "end" "if:" condition.toList rest rfl rfl (by decide),
        not_behind?_bare "else" "if:" condition.toList rest rfl rfl (by decide),
        not_behind?_bare "sep" "if:" condition.toList rest rfl rfl (by decide),
        at?_written_of_ne "=" "if:" condition.toList rest rfl rfl (by decide),
        at?_written_of_ne "for:" "if:" condition.toList rest rfl rfl (by decide),
        found "if:" good]
      simp

theorem written_ne_nil (tag : Tag) : tag.written ≠ [] := by
  cases tag <;> simp [written, bare, Argument.written, Argument.opening]

instance : Mark Tag where
  written := written
  at? := at?
  written_ne_nil := written_ne_nil
  initial_of_at? h := (valid_and_initial_of_at? h).2

end Tag
end Stencil
