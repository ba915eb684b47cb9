import Stencil.Text.Position

/-!
# Parse errors — why a text is no template, and where

Causes are data; `message` is the only place where they become words.
-/

namespace Stencil

/-- Why a text is no template. -/
inductive ParseError.Cause where
  /-- A block is open at the end of the text. -/
  | unclosedBlock (tag : String)
  /-- A tag stands where it means nothing. -/
  | unexpectedTag (tag : String)
  /-- A separator is not the first thing in a loop. -/
  | misplacedSeparator
  /-- A block under a condition is divided twice. -/
  | duplicateElse
  /-- No tag that opens a block stands at a place where one is asked for. -/
  | notAnOpeningTag (found : String)
  deriving DecidableEq, Repr

/-- The words for a cause. -/
def ParseError.Cause.message : Cause → String
  | unclosedBlock tag => "Missing '\x7b\x7bend\x7d\x7d' for '" ++ tag ++ "'"
  | unexpectedTag tag => "Unexpected tag '" ++ tag ++ "'"
  | misplacedSeparator =>
      "'\x7b\x7bsep\x7d\x7d' must be the first construct of a loop body"
  | duplicateElse =>
      "'\x7b\x7bif\x7d\x7d' block has more than one '\x7b\x7belse\x7d\x7d'"
  | notAnOpeningTag found => "Expected an opening tag, found '" ++ found ++ "'"

/-- Why a text is no template, and where. -/
structure ParseError where
  position : Position
  cause : ParseError.Cause
  deriving DecidableEq, Repr

namespace ParseError

/-- The error at a byte offset of a text. -/
def atOffset (text : List Char) (offset : Nat) (cause : Cause) : ParseError :=
  ⟨Position.ofOffset text offset, cause⟩

/-- The words for a parse error. -/
def message (error : ParseError) : String :=
  "Parse error at line " ++ toString error.position.line ++ ", column " ++
    toString error.position.column ++ ": " ++ error.cause.message

end ParseError

end Stencil
