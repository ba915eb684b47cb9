/-!
# Digits — natural numbers in positional notation

Digits stand with the most significant one first.
-/

namespace Stencil
namespace Digits

/-- The value of a digit in bases up to sixteen. -/
def value (digit : Char) : Nat :=
  if digit.isDigit then
    digit.toNat - '0'.toNat
  else
    digit.toLower.toNat - 'a'.toNat + 10

/-- Whether a character is a digit of a base up to sixteen. -/
def isOfBase (base : Nat) (digit : Char) : Bool :=
  (digit.isDigit || ('a' ≤ digit.toLower && digit.toLower ≤ 'f')) && value digit < base

/-- The number that digits denote, the most significant first. -/
def toNat (base : Nat) (digits : List Char) : Nat :=
  digits.foldl (fun total digit => base * total + value digit) 0

/-- The decimal digits of a number, without leading zeros. -/
def ofNat (number : Nat) : List Char := Nat.toDigits 10 number

/-- Digits without the zeros at their end, which add nothing to a fraction. -/
def dropFinalZeros (digits : List Char) : List Char :=
  (digits.reverse.dropWhile (· = '0')).reverse

/-- The digits at the start of a text. -/
def leading (text : List Char) : List Char := text.takeWhile Char.isDigit

/-- The text behind its leading digits. -/
def behind (text : List Char) : List Char := text.dropWhile Char.isDigit

end Digits
end Stencil
