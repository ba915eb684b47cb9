import Stencil.Number.Decimal

/-!
# Layouts — how decimals are written

A layout says for which numbers the digits are written in place, and for which with an exponent.
-/

namespace Stencil

/-- How decimals are written: between two positions of the decimal point without an exponent, else
with one; a whole number may get a fraction digit. -/
structure Layout where
  leastPoint : Int
  greatestPoint : Int
  fractionOfWhole : List Char

namespace Layout

/-- Digits with the decimal point behind the first `point` of them. -/
def writePositional (layout : Layout) (digits : List Char) (point : Int) : List Char :=
  if point ≤ 0 then
    '0' :: '.' :: (List.replicate (-point).toNat '0' ++ digits)
  else if digits.length ≤ point then
    digits ++ List.replicate (point.toNat - digits.length) '0' ++ layout.fractionOfWhole
  else
    digits.take point.toNat ++ '.' :: digits.drop point.toNat

/-- Digits with the decimal point behind the first one, and the exponent that makes up for it. -/
def writeExponential (digits : List Char) (point : Int) : List Char :=
  let exponent := point - 1
  digits.take 1 ++ (if digits.length ≤ 1 then [] else '.' :: digits.drop 1) ++
    'e' :: (if exponent < 0 then '-' else '+') :: Digits.ofNat exponent.natAbs

/-- The numeral of a decimal whose coefficient is not zero. -/
def write (layout : Layout) (decimal : Decimal) : List Char :=
  let digits := Digits.ofNat decimal.coefficient
  let point := digits.length + decimal.exponent
  let unsigned :=
    if layout.leastPoint ≤ point ∧ point ≤ layout.greatestPoint then
      layout.writePositional digits point
    else
      writeExponential digits point
  if decimal.negative then '-' :: unsigned else unsigned

end Layout
end Stencil
