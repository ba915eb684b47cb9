import Stencil.Json.Library
import Stencil.Json.Standard.Reader
import Stencil.Json.Standard.Writer
import Stencil.Number.Shortest

/-!
# A JSON library — the reader and the writer that are there, with the usual conventions

* `Standard.float?`, `Standard.ofNumber` — decimals as numbers and numbers as decimals;
* `Standard.fields?` — the fields of a record, by name or by place;
* `Standard.content?`, `Standard.data?` — documents as content and as dynamic values;
* `standard` — the library.
-/

namespace Stencil
namespace Json
namespace Standard

/-! ## Numbers -/

/-- A decimal as a floating-point number, unless it is too large for one.  No number halfway between
two neighbours has more digits than the limit, so a decimal that goes on behind them with anything but
zeros is still rounded to the nearest number.  Digits past the limit count as something above zero even
if they are zeros, so a tie that is written with them goes away from zero. -/
def float? (decimal : Decimal) : Option Number :=
  match Number.ofDecimal .double (decimal.limitDigits digitLimit) with
  | .finite negative units representable => some (.finite negative units representable)
  | .nan | .infinite _ => none

/-- The number of an integer literal.  It is exact when it is a signed or unsigned integer of 64 bits;
any other, minus zero included, is a floating-point number. -/
def integer? (negative : Bool) (magnitude : Nat) : Option Numeral :=
  if negative = false ∧ magnitude < UInt64.size then
    some (.integer magnitude)
  else if negative = true ∧ 0 < magnitude ∧ magnitude ≤ UInt64.size / 2 then
    some (.integer (-magnitude))
  else
    (float? ⟨negative, magnitude, 0⟩).map .float

/-- The number of a tree. -/
def numeral? : Tree → Option Numeral
  | .integer negative magnitude => integer? negative magnitude
  | .decimal value => (float? value).map .float
  | _ => none

/-- A number as it is written: its shortest decimal, ties going to the even one; null unless it is
finite. -/
def ofNumber : Number → Tree
  | .nan | .infinite _ => .null
  | .finite negative units _ =>
      .decimal (if units = 0 then ⟨negative, 0, 0⟩ else Number.shortest .even negative units)

/-! ## Declared types -/

/-- The text of a string. -/
def text? : Tree → Option String
  | .string text => text
  | _ => none

/-- A natural number below `2 ^ 64`, written as an integer without a sign. -/
def word? : Tree → Option Nat
  | .integer false magnitude => if magnitude < UInt64.size then some magnitude else none
  | _ => none

/-- An object as a dictionary, where the last value under a key counts. -/
def dict? {α : Type} (read? : Tree → Option α) : Tree → Option (Dict α)
  | .object members => (Tree.entries? read? members).map Dict.ofList
  | _ => none

/-- Adds the members whose keys are names of fields; other members may hold anything, but no field
may come twice. -/
def collect? (names : List String) : Dict Tree → List (Option String × Tree) → Option (Dict Tree)
  | fields, [] => some fields
  | fields, (key, value) :: members => do
      let name ← key
      -- What stands under other names is not looked at.
      if name ∉ names then collect? names fields members
      else if fields.contains name then none
      else collect? names (fields.insert name value) members

/-- The fields of a record with the given names: the members of an object, or the items of an array
in the order of the names, of which the last ones may be left out. -/
def fields? (names : List String) : Tree → Option (Dict Tree)
  | .object members => collect? names ∅ members
  | .array items =>
      if items.length ≤ names.length then some (Dict.ofList (names.zip items)) else none
  | _ => none

/-- The value of a field: that of its tree, or the default. -/
def field? {α : Type} (default : Option α) (read? : Tree → Option α) : Option Tree → Option α
  | none => default
  | some tree => read? tree

/-- A named alternative: its name alone, or an object with its name as the key of its content. -/
def alternative (name : String) : Option Tree → Tree
  | none => .text name
  | some content => .record [(name, content)]

/-- The name of an alternative, with its content if it stands in an object. -/
def alternative? : Tree → Option (String × Option Tree)
  | .string text => text.map fun name => (name, none)
  | .object [(key, content)] => key.map fun name => (name, some content)
  | _ => none

/-- Whether an alternative has no content: none is written, or null is. -/
def isBare : Option Tree → Bool
  | none | some .null => true
  | some _ => false

/-! ## Content -/

mutual

/-- The content of a tree. -/
def content? : Tree → Option Content
  | .null => some .null
  | .bool value => some (.bool value)
  | .integer negative magnitude => (integer? negative magnitude).map .number
  | .decimal value => (float? value).map fun value => .number (.float value)
  | .string text => text.map .text
  | .array items => (contentOfItems? items).map .array
  | .object members => (contentOfMembers? members).map .object

/-- The contents of items. -/
def contentOfItems? : List Tree → Option (List Content)
  | [] => some []
  | item :: items => do return (← content? item) :: (← contentOfItems? items)

/-- The contents of members. -/
def contentOfMembers? : List (Option String × Tree) → Option (List (String × Content))
  | [] => some []
  | (key, value) :: members => do
      let entry := (← key, ← content? value)
      return entry :: (← contentOfMembers? members)

end

/-- Null stands for nothing. -/
def asNull? : Content → Option Unit
  | .null => some ()
  | _ => none

/-- A truth value. -/
def asBool? : Content → Option Bool
  | .bool value => some value
  | _ => none

/-- A floating-point number; an integer is rounded. -/
def asNumber? : Content → Option Number
  | .number (.integer value) => some (.ofInt value)
  | .number (.float value) => some value
  | _ => none

/-- A text. -/
def asText? : Content → Option String
  | .text value => some value
  | _ => none

/-! ## Dynamic values -/

mutual

/-- The dynamic value of a tree. -/
def data? : Tree → Option Data
  | .null => some .null
  | .bool value => some (.bool value)
  | .integer negative magnitude => (integer? negative magnitude).map .number
  | .decimal value => (float? value).map fun value => .number (.float value)
  | .string text => text.map .text
  | .array items => (dataOfItems? items).map .array
  | .object members => (dataOfMembers? members).map fun entries => .object (Dict.ofList entries)

/-- The dynamic values of items. -/
def dataOfItems? : List Tree → Option (List Data)
  | [] => some []
  | item :: items => do return (← data? item) :: (← dataOfItems? items)

/-- The dynamic values of members. -/
def dataOfMembers? : List (Option String × Tree) → Option (List (String × Data))
  | [] => some []
  | (key, value) :: members => do
      let entry := (← key, ← data? value)
      return entry :: (← dataOfMembers? members)

end

/-- The number of a dynamic value as a floating-point number. -/
def toNumber? : Numeral → Option Number
  | .integer value => some (.ofInt value)
  | .float value => some value

end Standard

/-- The library with the reader and the writer that are there. -/
@[reducible] def standard : Library where
  read? := Standard.read?
  write := Standard.toText
  depthLimit := 127
  bounded? tree := if tree.depth ≤ 127 then some tree else none
  ofNumber := Standard.ofNumber
  record := .record
  alternative := Standard.alternative
  text? := Standard.text?
  word? := Standard.word?
  dict? := Standard.dict?
  fields? := Standard.fields?
  field? := Standard.field?
  alternative? := Standard.alternative?
  isBare := Standard.isBare
  numeral? := Standard.numeral?
  content? := Standard.content?
  asNull? := Standard.asNull?
  asBool? := Standard.asBool?
  asNumber? := Standard.asNumber?
  asText? := Standard.asText?
  first? results := results.findSome? id
  data? := Standard.data?
  toNumber? := Standard.toNumber?

end Json
end Stencil
