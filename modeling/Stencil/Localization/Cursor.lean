import Stencil.Localization.Reference
import Stencil.Tag.Search

/-!
# Cursors — references replaced at byte offsets

References can be replaced in one pass over a text, without its pieces.  Two byte offsets go forward:
the one up to which the text is copied, and the one from which the next reference is looked for.  At two
braces that start no reference only the second one moves.  All calls write behind one another to the
same output, and share one stack with the keys whose texts are being put in.

* `Cursor.Desk` — the stack and the output;
* `Cursor.sweep?` — the pass over one text;
* `Cursor.put?` — the same with a pass over the text of each key, up to some depth;
* `Cursor.localize?` — so a whole text is localized, from an empty desk on.
-/

namespace Stencil
namespace Cursor

open Text (byteLength splitBytes?)

/-! ## The desk -/

/-- What all calls share: the keys whose texts are being put in, the last one first, and what is
written so far. -/
@[ext] structure Desk where
  stack : List String
  output : List Char

namespace Desk

/-- Nothing is being put in, and nothing is written. -/
def clear : Desk := ⟨[], []⟩

/-- Writes behind everything that is written. -/
def write (desk : Desk) (part : List Char) : Desk := { desk with output := desk.output ++ part }

/-- One more key whose text is being put in. -/
def push (desk : Desk) (key : String) : Desk := { desk with stack := key :: desk.stack }

/-- The text of the last key has been put in. -/
def pop (desk : Desk) : Desk := { desk with stack := desk.stack.tail }

/-- Whether the text of a key is being put in. -/
def isActive (desk : Desk) (key : String) : Bool := desk.stack.any (· = key)

end Desk

/-! ## One text -/

/-- The text between two byte offsets, or the empty text where none can be cut out. -/
def slice (text : List Char) (start stop : Nat) : List Char :=
  (Text.slice? text start stop).getD []

/-- The text from a byte offset on, or the empty text where none can be cut off. -/
def sliceFrom (text : List Char) (start : Nat) : List Char :=
  ((splitBytes? start text).map Prod.snd).getD []

/-- The reference at a byte offset of a text, with its length in bytes. -/
def reference? (text : List Char) (start : Nat) : Option (Reference × Nat) := do
  let (_, rest) ← splitBytes? start text
  let reference ← Reference.at? rest
  return (reference, byteLength reference.written)

theorem reference?_eq_some_iff {before rest : List Char} {found : Reference × Nat} :
    reference? (before ++ rest) (byteLength before) = some found ↔
      Reference.at? rest = some found.1 ∧ byteLength found.1.written = found.2 := by
  simp only [reference?, Text.splitBytes?_append, Option.bind_eq_bind, Option.bind_some,
    Option.bind_eq_some_iff, Option.pure_def, Option.some.injEq]
  constructor
  · rintro ⟨reference, hread, rfl⟩
    exact ⟨hread, rfl⟩
  · rintro ⟨hread, hlength⟩
    exact ⟨found.1, hread, by rw [hlength]⟩

/-- A reference is not empty. -/
theorem length_pos_of_reference? {text : List Char} {start : Nat} {found : Reference × Nat} :
    reference? text start = some found → 0 < found.2 := by
  intro h
  simp only [reference?, Option.bind_eq_bind, Option.bind_eq_some_iff, Option.pure_def,
    Option.some.injEq] at h
  rcases h with ⟨_, _, reference, _, rfl⟩
  refine Nat.pos_of_ne_zero fun hzero => ?_
  exact reference.written_ne_nil (Text.eq_nil_of_byteLength_eq_zero hzero)

/-- Replaces the references of a text from the byte offset `position` on, when it is copied up to the
byte offset `copied`.  What is done for the text of a key is left open. -/
def sweep? (enter? : String → Desk → Option Desk) (text : List Char) (copied position : Nat)
    (desk : Desk) : Option Desk :=
  match _found : Tag.candidate? text position with
  | none => some (desk.write (sliceFrom text copied))
  | some start =>
      match _read : reference? text start with
      -- Of three braces, the last two can still start a reference.
      | none => sweep? enter? text copied (start + 1) desk
      | some (reference, length) =>
          let stop := start + length
          let upToHere := desk.write (slice text copied start)
          -- Inside the text of its own key a reference is left as it is written.
          if upToHere.isActive reference.key then
            sweep? enter? text stop stop (upToHere.write (slice text start stop))
          else
            (enter? reference.key (upToHere.push reference.key)).bind fun inside =>
              sweep? enter? text stop stop inside.pop
termination_by byteLength text - position
decreasing_by
  all_goals have := Tag.candidate?_bounds _found
  · omega
  all_goals
    have := length_pos_of_reference? _read
    simp only at this
    omega

/-! ## The texts of keys -/

/-- Replaces the references of a text, inside the texts of the keys on the stack; `none` if more than
`limit` texts of keys stand inside it and one another. -/
def put? (textOf : String → String) : (limit : Nat) → (text : List Char) → Desk → Option Desk
  | 0, text, desk => sweep? (fun _ _ => none) text 0 0 desk
  | limit + 1, text, desk =>
      sweep? (fun key => put? textOf limit (textOf key).toList) text 0 0 desk

/-- A text with every reference replaced; `none` if more than `limit` texts of keys stand inside one
another. -/
def localize? (textOf : String → String) (limit : Nat) (text : String) : Option String :=
  (put? textOf limit text.toList .clear).map fun desk => String.ofList desk.output

end Cursor
end Stencil
