import Stencil.Number.Basic
import Stencil.Number.Digits

/-!
# Decimals — exact decimal numbers and their numerals

A decimal is a signed integer coefficient with a power of ten.  It is what a numeral denotes before
it is rounded to a binary number.

* `Decimal.read?` — the decimal of a numeral: digits with an optional point and exponent;
* `Number.ofDecimal` — the nearest number.
-/

namespace Stencil

-- Powers of natural numbers are the core library's own, whatever algebra is in scope.
attribute [local instance (high)] instPowNat

/-- The number `± coefficient * 10 ^ exponent`. -/
structure Decimal where
  negative : Bool
  coefficient : Nat
  exponent : Int
  deriving DecidableEq, Repr

/-! ## Numerals -/

namespace Decimal

/-- Whether a text starts with a minus sign, and the text without its sign. -/
def splitSign : List Char → Bool × List Char
  | '-' :: text => (true, text)
  | '+' :: text => (false, text)
  | text => (false, text)

/-- The digits behind a decimal point at the start of a text, and the text behind them. -/
def splitFraction : List Char → List Char × List Char
  | '.' :: text => (Digits.leading text, Digits.behind text)
  | text => ([], text)

/-- The exponent that a text is, the absent one being zero: a letter `e`, an optional sign and
digits. -/
def readExponent? : List Char → Option Int
  | [] => some 0
  | letter :: text =>
      let (negative, digits) := splitSign text
      if (letter = 'e' ∨ letter = 'E') ∧ digits ≠ [] ∧ digits.all Char.isDigit then
        some (Number.signed negative (Digits.toNat 10 digits))
      else
        none

/-- The decimal with the given digits before and behind the point. -/
def ofDigits (negative : Bool) (whole fraction : List Char) (exponent : Int) : Decimal :=
  ⟨negative, Digits.toNat 10 (whole ++ fraction), exponent - fraction.length⟩

/-- The decimal of a numeral: an optional sign, digits with an optional point of which there is at
least one, and an optional exponent. -/
def read? (text : List Char) : Option Decimal :=
  let (negative, unsigned) := splitSign text
  let whole := Digits.leading unsigned
  let (fraction, rest) := splitFraction (Digits.behind unsigned)
  if whole = [] ∧ fraction = [] then
    none
  else
    (readExponent? rest).map (ofDigits negative whole fraction)

/-- The decimal with at most `limit` digits of its own.  If it has more, a single digit one stands in
the place of all the others and says that something follows, whatever they are. -/
def limitDigits (limit : Nat) (decimal : Decimal) : Decimal :=
  if decimal.coefficient < 10 ^ limit then
    decimal
  else
    let extra := (Digits.ofNat decimal.coefficient).length - limit
    { decimal with
      coefficient := 10 * (decimal.coefficient / 10 ^ extra) + 1
      exponent := decimal.exponent + extra - 1 }

/-- A decimal with few digits is kept as it is. -/
theorem limitDigits_of_lt {limit : Nat} {decimal : Decimal}
    (few : decimal.coefficient < 10 ^ limit) : decimal.limitDigits limit = decimal := by
  simp [limitDigits, few]

example : limitDigits 3 ⟨false, 120000, -3⟩ = ⟨false, 1201, -1⟩ := by decide +kernel

/-- A decimal without its sign as a quotient of units. -/
def ratio (decimal : Decimal) : Nat × Nat :=
  (decimal.coefficient * 10 ^ decimal.exponent.toNat * Number.unitsPerOne,
    10 ^ (-decimal.exponent).toNat)

end Decimal

namespace Number

/-- The number of a precision that is nearest to a decimal.  Exponents far outside the range of
binary64 are settled without computing their powers of ten. -/
def ofDecimal (precision : Precision) (decimal : Decimal) : Number :=
  -- Finite numbers lie below `10 ^ 309`, and half the least positive one above `10 ^ -325`.
  if decimal.coefficient = 0 ∨ decimal.exponent < -400 - (decimal.coefficient.log2 + 1 : Nat) then
    zero decimal.negative
  else if 400 < decimal.exponent then
    .infinite decimal.negative
  else
    ofRatio precision decimal.negative decimal.ratio.1 decimal.ratio.2

end Number
end Stencil
