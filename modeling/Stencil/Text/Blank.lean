/-!
# Blank characters — the spaces and line ends of Unicode

A character is blank when it carries the Unicode property `White_Space`.  Blanks are dropped around
numbers written in data, and they are the only thing allowed between a loop's tag and its separator.

* `Text.isBlank` — the property, from a table of ranges;
* `Text.dropBlank`, `Text.trimBlank` — a text without the blanks at its start, or at both ends.
-/

namespace Stencil
namespace Text

/-- The code points with the property `White_Space`, as inclusive ranges in ascending order. -/
def blankRanges : List (Nat × Nat) :=
  [(0x09, 0x0D), (0x20, 0x20), (0x85, 0x85), (0xA0, 0xA0), (0x1680, 0x1680), (0x2000, 0x200A),
    (0x2028, 0x2029), (0x202F, 0x202F), (0x205F, 0x205F), (0x3000, 0x3000)]

/-- A character is blank when its code point lies in one of the ranges. -/
def isBlank (c : Char) : Bool :=
  blankRanges.any fun range => range.1 ≤ c.toNat && c.toNat ≤ range.2

/-- The text from its first character that is not blank. -/
def dropBlank (text : List Char) : List Char :=
  text.dropWhile isBlank

/-- The text without the blanks at either end. -/
def trimBlank (text : List Char) : List Char :=
  (dropBlank (dropBlank text).reverse).reverse

/-! ## Small laws -/

/-- The table lists twenty-five characters. -/
example : (blankRanges.map fun range => range.2 + 1 - range.1).sum = 25 := by decide

theorem isBlank_openBrace : isBlank '{' = false := by decide

theorem dropBlank_of_not_blank {text : List Char} (h : ∀ c ∈ text, isBlank c = false) :
    dropBlank text = text := by
  cases text with
  | nil => rfl
  | cons c text => simp [dropBlank, h c]

/-- Nothing is dropped from a text without blanks. -/
theorem trimBlank_of_not_blank {text : List Char} (h : ∀ c ∈ text, isBlank c = false) :
    trimBlank text = text := by
  have reversed : ∀ c ∈ text.reverse, isBlank c = false := by simpa using h
  rw [trimBlank, dropBlank_of_not_blank h, dropBlank_of_not_blank reversed, List.reverse_reverse]

end Text
end Stencil
