import Stencil.Number.Decimal

/-!
# Shortest decimals — the fewest digits that read back

Many decimals round to the same number.  The one written for a number has the fewest digits among
them and is the nearest to the number among those; a rule settles which of two equally near ones it
is.

The search goes from coarse to fine grids of decimals.  On each grid the two neighbours of the
number are tried, so the first grid with a decimal that reads back has the fewest digits.  Seventeen
digits are always enough; behind them stands the exact decimal of the number.
-/

namespace Stencil
namespace Number
namespace Shortest

-- Powers of natural numbers are the core library's own, whatever algebra is in scope.
attribute [local instance (high)] instPowNat

/-- A magnitude as a quotient of steps of `10 ^ exponent`. -/
def steps (units : Nat) (exponent : Int) : Nat × Nat :=
  (units * 10 ^ (-exponent).toNat, 10 ^ exponent.toNat * unitsPerOne)

/-- Whether `coefficient * 10 ^ exponent` rounds to a magnitude. -/
def readsBack (units coefficient : Nat) (exponent : Int) : Bool :=
  let ratio := Decimal.ratio ⟨false, coefficient, exponent⟩
  roundUnits .double ratio.1 ratio.2 = units

/-- The coefficient on the grid of `10 ^ exponent` that reads back as a magnitude and is the nearest
to it. -/
def onGrid? (tie : Tie) (units : Nat) (exponent : Int) : Option Nat :=
  let (num, den) := steps units exponent
  let nearest := roundQuotient tie num den
  -- The neighbour on the other side of the magnitude.
  let other := if nearest = num / den then nearest + 1 else num / den
  if readsBack units nearest exponent then some nearest
  else if readsBack units other exponent then some other
  else none

/-- The coefficient of a magnitude as a decimal with `scale` places, which is exact. -/
def exactCoefficient (units : Nat) : Nat := units * 5 ^ scale

/-- Searches grids downwards from `10 ^ exponent`, as many as allowed. -/
def search (tie : Tie) (units : Nat) : Nat → Int → Nat × Int
  | 0, _ => (exactCoefficient units, -scale)
  | more + 1, exponent =>
      ((onGrid? tie units exponent).map fun coefficient => (coefficient, exponent)).getD
        (search tie units more (exponent - 1))

theorem search_zero (tie : Tie) (units : Nat) (exponent : Int) :
    search tie units 0 exponent = (exactCoefficient units, -(scale : Int)) := rfl

theorem search_succ (tie : Tie) (units more : Nat) (exponent : Int) :
    search tie units (more + 1) exponent =
      ((onGrid? tie units exponent).map fun coefficient => (coefficient, exponent)).getD
        (search tie units more (exponent - 1)) := rfl

/-- The least exponent of a power of ten above a magnitude. -/
def ceilingExponent (units : Nat) : Int :=
  (Digits.ofNat (exactCoefficient units)).length - scale

end Shortest

/-- The shortest decimal that reads back as a magnitude with a sign, and the nearest of those. -/
def shortest (tie : Tie) (negative : Bool) (units : Nat) : Decimal :=
  -- The first grid is coarser than the magnitude, and each of the others adds a digit.
  let found := Shortest.search tie units 18 (Shortest.ceilingExponent units)
  ⟨negative, found.1, found.2⟩

end Number
end Stencil
