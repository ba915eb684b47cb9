import Stencil.Text.Bytes

/-!
# Positions — lines and columns

A place in a text is given by a byte offset and shown to a reader as a line and a column, both
counted from one.

* `Position.after` — the position behind a text;
* `Position.ofOffset` — the position at a byte offset of a text.
-/

namespace Stencil

/-- A line and a column, both counted from one; columns count characters. -/
structure Position where
  line : Nat
  column : Nat
  deriving DecidableEq, Repr

namespace Position

/-- The position of the first character of a text. -/
def start : Position := ⟨1, 1⟩

/-- The position behind one character. -/
def step (position : Position) (c : Char) : Position :=
  if c = '\n' then ⟨position.line + 1, 1⟩ else ⟨position.line, position.column + 1⟩

/-- The position behind a text that starts at the first line and column. -/
def after (text : List Char) : Position :=
  text.foldl step start

/-- The position at a byte offset of a text; an offset past the end or inside a character stands for
the end of the text. -/
def ofOffset (text : List Char) (offset : Nat) : Position :=
  match Text.splitBytes? offset text with
  | some (before, _) => after before
  | none => after text

@[simp] theorem after_nil : after [] = start := rfl

/-- Reading one more character moves the position by that character. -/
theorem after_concat (text : List Char) (c : Char) :
    after (text ++ [c]) = (after text).step c := by
  simp [after]

/-- At the end of an initial part stands the position behind it. -/
theorem ofOffset_byteLength (before rest : List Char) :
    ofOffset (before ++ rest) (Text.byteLength before) = after before := by
  simp [ofOffset, Text.splitBytes?_append]

end Position
end Stencil
