import Stencil.Json.Standard.Quoted
import Stencil.Json.Tree
import Stencil.Number.Layout

/-!
# Writing JSON — documents without blanks

* `Standard.write` — the characters of a document for a tree;
* `Standard.toText` — the document.
-/

namespace Stencil
namespace Json
namespace Standard

/-- Numbers with a fraction are written without an exponent from a hundred thousandth up to below
`10 ^ 16`, and always with a fraction then. -/
def numberLayout : Layout where
  leastPoint := -4
  greatestPoint := 16
  fractionOfWhole := ['.', '0']

/-- A decimal as it is written. -/
def writeDecimal (decimal : Decimal) : List Char :=
  if decimal.coefficient = 0 then
    (if decimal.negative then ['-'] else []) ++ ['0', '.', '0']
  else
    numberLayout.write decimal

/-- A string with its quotes. -/
def writeString (text : Option String) : List Char := Quoted.write (Quoted.ofText? text)

mutual

/-- A document for a tree, without blanks. -/
def write : Tree → List Char
  | .null => "null".toList
  | .bool value => if value then "true".toList else "false".toList
  | .integer negative magnitude => (if negative then ['-'] else []) ++ Digits.ofNat magnitude
  | .decimal value => writeDecimal value
  | .string text => writeString text
  | .array [] => ['[', ']']
  | .array (item :: items) => '[' :: (write item ++ (writeItems items ++ [']']))
  | .object [] => ['{', '}']
  | .object ((key, value) :: members) =>
      '{' :: (writeString key ++ ':' :: (write value ++ (writeMembers members ++ ['}'])))

/-- Items behind the first one, each with a comma. -/
def writeItems : List Tree → List Char
  | [] => []
  | item :: items => ',' :: (write item ++ writeItems items)

/-- Members behind the first one, each with a comma. -/
def writeMembers : List (Option String × Tree) → List Char
  | [] => []
  | (key, value) :: members =>
      ',' :: (writeString key ++ ':' :: (write value ++ writeMembers members))

end

/-- A document for a tree as a text. -/
def toText (tree : Tree) : String := String.ofList (write tree)

example : toText (.decimal ⟨false, 1, 0⟩) = "1.0" := by decide +kernel
example : toText (.decimal ⟨false, 1, 15⟩) = "1000000000000000.0" := by decide +kernel
example : toText (.decimal ⟨false, 1, 16⟩) = "1e+16" := by decide +kernel

end Standard
end Json
end Stencil
