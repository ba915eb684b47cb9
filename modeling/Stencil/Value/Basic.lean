import Stencil.Dict.Basic
import Stencil.Number.Text

/-!
# Values — the data that templates are rendered with

A value is untyped in the way the template language is: it has a truth value, a text, and a number
it counts as.  Objects hold named values; the object a template is rendered with is its context.

* `Value`, `Context`, with `Value.toText` and `Value.isTruthy`;
* `Value.scope` — what a loop over a value lets its body see;
* `Value.equals` — equality of data, with the number line's equality at the leaves;
* `ToValue` — the plain data that can be put into a context.
-/

namespace Stencil

/-- A piece of template data. -/
inductive Value where
  | null
  | bool (value : Bool)
  | number (value : Number)
  | text (value : String)
  | list (items : List Value)
  | object (entries : Ascending Value none)

/-- The named values that a template is rendered with. -/
abbrev Context : Type := Dict Value

namespace Value

instance : Inhabited Value := ⟨null⟩

/-! ## Observing a value -/

/-- Null, false, zero, not-a-number and the empty text are false; all else is true. -/
def isTruthy : Value → Bool
  | null => false
  | bool value => value
  | number value => !value.isNan && !value.equals (Number.zero false)
  | text value => value ≠ ""
  | list _ | object _ => true

/-- Whether a value is null. -/
def isNull : Value → Bool
  | null => true
  | bool _ | number _ | text _ | list _ | object _ => false

/-- The items of a list. -/
def items? : Value → Option (List Value)
  | list items => some items
  | null | bool _ | number _ | text _ | object _ => none

/-- The entries of an object. -/
def entries? : Value → Option Context
  | object entries => some entries
  | null | bool _ | number _ | text _ | list _ => none

/-- What the body of a loop sees of the item it is rendered for: nothing at all for null, the
entries of an object, and no entries for any other item. -/
def scope : Value → Option Context
  | null => none
  | object entries => some entries
  | bool _ | number _ | text _ | list _ => some ∅

/-! ## Text -/

mutual

/-- The text of a value.  The items of a list are joined by commas. -/
def toText : Value → String
  | null => "null"
  | bool value => if value then "true" else "false"
  | number value => value.toText
  | text value => value
  | list items => String.intercalate "," (itemTexts items)
  | object _ => "[object Object]"

/-- The texts of the items of a list, where null has none. -/
def itemTexts : List Value → List String
  | [] => []
  | null :: items => "" :: itemTexts items
  | item :: items => toText item :: itemTexts items

end

/-! ## Equality -/

mutual

/-- Equality of values, where numbers are compared on the number line. -/
def equals : Value → Value → Bool
  | null, null => true
  | bool left, bool right => left = right
  | number left, number right => left.equals right
  | text left, text right => left = right
  | list left, list right => equalItems left right
  | object left, object right => equalEntries left right
  | _, _ => false

/-- Equality of lists, item by item. -/
def equalItems : List Value → List Value → Bool
  | [], [] => true
  | left :: lefts, right :: rights => equals left right && equalItems lefts rights
  | _, _ => false

/-- Equality of entries, key by key. -/
def equalEntries : {low high : Option String} → Ascending Value low → Ascending Value high → Bool
  | _, _, .nil, .nil => true
  | _, _, .cons key left _ lefts, .cons key' right _ rights =>
      key = key' && equals left right && equalEntries lefts rights
  | _, _, _, _ => false

end

end Value

/-! ## Plain data as values -/

/-- Data that can be put into a context. -/
class ToValue (α : Type) where
  toValue : α → Value

export ToValue (toValue)

instance : ToValue Value := ⟨id⟩
instance : ToValue Bool := ⟨.bool⟩
instance : ToValue Number := ⟨.number⟩
instance : ToValue Int := ⟨fun value => .number (Number.ofInt value)⟩
instance : ToValue String := ⟨.text⟩
instance : ToValue Context := ⟨.object⟩

/-- Absent data is null. -/
instance {α : Type} [ToValue α] : ToValue (Option α) :=
  ⟨fun data => data.elim .null toValue⟩

instance {α : Type} [ToValue α] : ToValue (List α) :=
  ⟨fun data => .list (data.map toValue)⟩

end Stencil
