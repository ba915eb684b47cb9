import Stencil.Tag.Basic
import Stencil.Text.Bytes

/-!
# Lexemes — a template's text as literal runs and placed tags

A text is the sequence of its leftmost, non-overlapping tags and the literal runs between them.  A
tag carries the byte offset at which it stands.
-/

namespace Stencil

/-- A literal run, or a tag with its byte offset. -/
inductive Lexeme where
  | literal (run : List Char)
  | tag (found : Tag) (offset : Nat)
  deriving DecidableEq, Repr

namespace Lexeme

/-- The characters of a lexeme. -/
def written : Lexeme → List Char
  | literal run => run
  | tag found _ => found.written

/-- Places pieces from a byte offset on. -/
def place : Nat → List (Piece Tag) → List Lexeme
  | _, [] => []
  | offset, .literal run :: parts => literal run :: place (offset + Text.byteLength run) parts
  | offset, .mark found :: parts =>
      tag found offset :: place (offset + Text.byteLength found.written) parts

/-- The lexemes of a text that starts at a byte offset. -/
def ofText (offset : Nat) (text : List Char) : List Lexeme :=
  place offset (Mark.pieces text)

/-- The text of a sequence of lexemes. -/
def concat (lexemes : List Lexeme) : List Char := lexemes.flatMap written

@[simp] theorem concat_nil : concat [] = [] := rfl

@[simp] theorem concat_cons (lexeme : Lexeme) (lexemes : List Lexeme) :
    concat (lexeme :: lexemes) = lexeme.written ++ concat lexemes := by
  simp [concat]

@[simp] theorem concat_append (left right : List Lexeme) :
    concat (left ++ right) = concat left ++ concat right := by
  simp [concat]

theorem concat_place (offset : Nat) (parts : List (Piece Tag)) :
    concat (place offset parts) = Mark.concat parts := by
  induction parts generalizing offset with
  | nil => simp [place]
  | cons piece parts ih =>
      cases piece <;> simp [place, written, Piece.written, ih, Mark.written]

/-- The lexemes of a text make up the text. -/
theorem concat_ofText (offset : Nat) (text : List Char) : concat (ofText offset text) = text := by
  rw [ofText, concat_place, Mark.concat_pieces]

end Lexeme
end Stencil
