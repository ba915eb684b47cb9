/-!
# UTF-16 units — the order in which texts are compared

Two texts are ordered by their sequences of 16-bit units, unit by unit.  This differs from the order
of code points: a character above `U+FFFF` is written with two surrogate units and therefore comes
before the characters from `U+E000` to `U+FFFF`.
-/

namespace Stencil
namespace Text

/-- The 16-bit units of one character: itself, or a pair of surrogates above `U+FFFF`. -/
def unitsOfChar (c : Char) : List Nat :=
  if c.toNat < 0x10000 then
    [c.toNat]
  else
    [0xD800 + (c.toNat - 0x10000) / 0x400, 0xDC00 + (c.toNat - 0x10000) % 0x400]

/-- The 16-bit units of a text. -/
def units (text : String) : List Nat :=
  text.toList.flatMap unitsOfChar

/-- The order of two texts by their units; a proper initial part comes first. -/
def compareUnits (left right : String) : Ordering :=
  List.compareLex compare (units left) (units right)

/-! ## The orders of units and of code points differ -/

example : compareUnits "a" "ab" = .lt := by decide +kernel
example : compareUnits "\uffff" "😀" = .gt ∧ "\uffff" < "😀" := by decide +kernel

end Text
end Stencil
