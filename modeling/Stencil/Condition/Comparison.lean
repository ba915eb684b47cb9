import Stencil.Text.Units
import Stencil.Value.Basic

/-!
# Comparisons — loose equality and order of operands

The sides of a comparison are coerced to operands: null, a truth value, a number or a text.  Two
texts are compared as texts; everything else meets on the number line, where null counts as zero but
equals only itself.

* `Comparison` — the six relations, with their symbols;
* `Operand.ofSide` — what a side of a comparison stands for in a context;
* `Operand.looselyEquals`, `Operand.looseOrder`, `Comparison.holds`.
-/

namespace Stencil

/-- A relation between the two sides of a comparison. -/
inductive Comparison where
  | equal
  | different
  | greater
  | less
  | greaterOrEqual
  | lessOrEqual
  deriving DecidableEq, Repr

/-- How a relation is written. -/
def Comparison.symbol : Comparison → String
  | equal => "=="
  | different => "!="
  | greater => ">"
  | less => "<"
  | greaterOrEqual => ">="
  | lessOrEqual => "<="

/-- The relations in the order in which they are tried at one place: a longer symbol comes before
the shorter one it starts with. -/
def Comparison.inOrder : List Comparison :=
  [greaterOrEqual, greater, lessOrEqual, less, equal, different]

/-- A side of a comparison after coercion. -/
inductive Operand where
  | null
  | bool (value : Bool)
  | number (value : Number)
  | text (value : String)
  deriving DecidableEq

namespace Operand

/-- The operand that a value is coerced to; lists and objects count as their texts. -/
def ofValue : Value → Operand
  | .null => null
  | .bool value => bool value
  | .number value => number value
  | .text value => text value
  | .list items => text (Value.list items).toText
  | .object entries => text (Value.object entries).toText

/-- A side that names a key stands for the value under it, any other side for its own text. -/
def ofSide (context : Context) (side : String) : Operand :=
  ((context.get? side).map ofValue).getD (text side)

/-- The number an operand counts as. -/
def toNumber : Operand → Number
  | null => Number.zero false
  | bool value => Number.ofNat value.toNat
  | number value => value
  | text value => Number.ofText value

/-- Loose equality. -/
def looselyEquals : Operand → Operand → Bool
  | null, null => true
  | null, _ | _, null => false
  | text left, text right => left = right
  | left, right => left.toNumber.equals right.toNumber

/-- The loose order; operands that count as not-a-number have none. -/
def looseOrder : Operand → Operand → Option Ordering
  | text left, text right => some (Text.compareUnits left right)
  | left, right => left.toNumber.partialCompare right.toNumber

end Operand

/-- Whether a relation holds between two operands. -/
def Comparison.holds (comparison : Comparison) (left right : Operand) : Bool :=
  match comparison with
  | equal => left.looselyEquals right
  | different => !left.looselyEquals right
  | greater => left.looseOrder right = some .gt
  | less => left.looseOrder right = some .lt
  | greaterOrEqual => (left.looseOrder right).any (·.isGE)
  | lessOrEqual => (left.looseOrder right).any (·.isLE)

end Stencil
