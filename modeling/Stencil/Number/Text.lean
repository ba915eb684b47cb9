import Stencil.Number.Layout
import Stencil.Number.Shortest
import Stencil.Text.Blank

/-!
# Numbers as template text — how they are written and how text counts as a number

* `Number.toText` — the text that stands for a number in a page;
* `Number.ofText` — the number that a text counts as in a comparison, not-a-number if it is none.
-/

namespace Stencil
namespace Number

/-! ## Writing -/

/-- Numbers from a millionth up to below `10 ^ 21` are written without an exponent, and whole ones
without a fraction. -/
def textLayout : Layout where
  leastPoint := -5
  greatestPoint := 21
  fractionOfWhole := []

/-- The text of a number: its shortest decimal, ties going up, and zero without a sign. -/
def toText : Number → String
  | nan => "NaN"
  | infinite negative => if negative then "-Infinity" else "Infinity"
  | finite negative units _ =>
      if units = 0 then "0"
      else String.ofList (textLayout.write (shortest .up negative units))

/-! ## Reading -/

/-- The base that a two-character mark announces: `0x`, `0o` or `0b`, in either case. -/
def baseOf? : Char → Option Nat
  | 'x' | 'X' => some 16
  | 'o' | 'O' => some 8
  | 'b' | 'B' => some 2
  | _ => none

/-- The number of the digits behind a base mark, which may follow one plus sign and must stay below
`2 ^ 64`. -/
def readBased (base : Nat) (text : List Char) : Number :=
  let digits := match text with
    | '+' :: digits => digits
    | digits => digits
  if digits ≠ [] ∧ digits.all (Digits.isOfBase base) ∧ Digits.toNat base digits < UInt64.size then
    ofNat (Digits.toNat base digits)
  else
    nan

/-- Whether a character is a plus or a minus sign. -/
def isSign (c : Char) : Bool := c = '+' || c = '-'

/-- The number of a text without a base mark: a word for infinity with at most one sign, or a
decimal numeral. -/
def readDecimal (text : List Char) : Number :=
  let unsigned := text.dropWhile isSign
  if unsigned = "Infinity".toList ∧ text.length ≤ unsigned.length + 1 then
    .infinite (text.head? = some '-')
  else
    ((Decimal.read? text).map (ofDecimal .double)).getD nan

/-- The number that a text counts as.  Blanks around it do not matter, and a blank text is zero. -/
def ofText (text : String) : Number :=
  match Text.trimBlank text.toList with
  | [] => zero false
  | '0' :: mark :: digits =>
      match baseOf? mark with
      | some base => readBased base digits
      | none => readDecimal ('0' :: mark :: digits)
  | trimmed => readDecimal trimmed

/-! ## The formats at their boundaries -/

example : (ofInt (-30)).toText = "-30" ∧ (zero true).toText = "0" := by decide +kernel
example : (ofDecimal .double ⟨false, 1, -6⟩).toText = "0.000001" := by decide +kernel
example : (ofDecimal .double ⟨false, 1, -7⟩).toText = "1e-7" := by decide +kernel
example : (ofDecimal .double ⟨false, 1, 21⟩).toText = "1e+21" := by decide +kernel
example : ofText " 0x1F " = ofInt 31 ∧ ofText "" = zero false := by decide +kernel
example : ofText "1_0" = nan ∧ ofText "0x" = nan := by decide +kernel

end Number
end Stencil
