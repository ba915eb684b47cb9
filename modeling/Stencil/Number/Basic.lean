import Stencil.Number.Rounding

/-!
# Numbers — binary64 as exact magnitudes

A number is not-a-number, an infinity, or a sign with a magnitude of binary64 in units of
`2 ^ -1074`.  Both zeros are there and differ as values, though they compare equal.

* `Number.ofRatio`, `Number.ofInt` — the number nearest to a quotient of units, or to an integer;
* `Number.partialCompare`, `Number.equals` — the order of the number line, which leaves
  not-a-number out.
-/

namespace Stencil

/-- A binary64 number. -/
inductive Number where
  | nan
  | infinite (negative : Bool)
  | finite (negative : Bool) (units : Nat) (representable : Number.Representable units)
  deriving DecidableEq

namespace Number

-- Powers of natural numbers are the core library's own, whatever algebra is in scope.
attribute [local instance (high)] instPowNat

/-- The binary logarithm of the number of units in one. -/
def scale : Nat := 1074

/-- The number of units in one. -/
def unitsPerOne : Nat := 2 ^ scale

/-- A zero of either sign. -/
def zero (negative : Bool) : Number := .finite negative 0 representable_zero

instance : Inhabited Number := ⟨zero false⟩

/-- The number of a precision that is nearest to `num / den` units; beyond the largest it is
infinite. -/
def ofRatio (precision : Precision) (negative : Bool) (num den : Nat) : Number :=
  if small : (roundUnits precision num den).log2 < precision.overflow then
    .finite negative (roundUnits precision num den) (representable_roundUnits small)
  else
    .infinite negative

/-- The number nearest to an integer; zero is positive. -/
def ofInt (value : Int) : Number :=
  ofRatio .double (value < 0) (value.natAbs * unitsPerOne) 1

/-- The number nearest to a natural number. -/
def ofNat (value : Nat) : Number := ofInt value

/-- Whether this is not-a-number. -/
def isNan : Number → Bool
  | nan => true
  | infinite _ | finite .. => false

/-- Whether a number is finite. -/
def isFinite : Number → Bool
  | finite .. => true
  | nan | infinite _ => false

theorem ofRatio_ne_nan (precision : Precision) (negative : Bool) (num den : Nat) :
    ofRatio precision negative num den ≠ nan := by
  unfold ofRatio
  split <;> simp

theorem ofNat_ne_nan (value : Nat) : ofNat value ≠ nan :=
  ofRatio_ne_nan _ _ _ _

/-! ## The number line -/

/-- A magnitude with its sign. -/
def signed (negative : Bool) (magnitude : Nat) : Int :=
  if negative then -(magnitude : Int) else magnitude

/-- The place on the number line: finite numbers by their units, between the infinities. -/
def place? : Number → Option (Int × Int)
  | nan => none
  | infinite negative => some (signed negative 1, 0)
  | finite negative units _ => some (0, signed negative units)

/-- The order of two numbers; not-a-number has none. -/
def partialCompare (left right : Number) : Option Ordering := do
  let (outer, inner) ← left.place?
  let (outer', inner') ← right.place?
  return (compare outer outer').then (compare inner inner')

/-- Equality on the number line: the zeros are equal, and not-a-number differs from itself. -/
def equals (left right : Number) : Bool :=
  left.partialCompare right = some .eq

example : (zero true).equals (zero false) = true := by decide
example : nan.equals nan = false := by decide

end Number
end Stencil
