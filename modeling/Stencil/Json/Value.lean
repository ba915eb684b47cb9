import Stencil.Json.Library
import Stencil.Value.Basic

/-!
# Template data as JSON

The variants of template data have no names in a document.  When a document is read, it is kept as
content first, and the variants are tried on it one after the other.

* `Value.toTree` — the tree of template data;
* `Value.ofContent?`, `Value.ofTree?` — template data read directly;
* `Value.ofData` — the template data that a dynamic value stands for;
* forms for values and for contexts, which are dictionaries of values.
-/

namespace Stencil
namespace Value

open Json (Tree Content Data Library)

variable [Library]

/-! ## Writing -/

mutual

/-- The tree of a value. -/
def toTree : Value → Tree
  | null => .null
  | bool value => .bool value
  | number value => Library.ofNumber value
  | text value => .text value
  | list items => .array (itemTrees items)
  | object entries => .record (memberTrees entries)

/-- The trees of items. -/
def itemTrees : List Value → List Tree
  | [] => []
  | item :: items => toTree item :: itemTrees items

/-- The members for entries, in key order. -/
def memberTrees : {low : Option String} → Ascending Value low → List (String × Tree)
  | _, .nil => []
  | _, .cons key value _ rest => (key, toTree value) :: memberTrees rest

end

/-! ## Reading -/

mutual

/-- The value of the first variant that takes a content: null, truth values, numbers, texts, lists and
objects are tried in this order. -/
def ofContent? (content : Content) : Option Value :=
  let asList? := match content with
    | .array items => ofItems? items
    | _ => none
  let asObject? := match content with
    | .object members => ofMembers? members
    | _ => none
  Library.first? [(Library.asNull? content).map fun _ => null, (Library.asBool? content).map bool,
    (Library.asNumber? content).map number, (Library.asText? content).map text, asList?.map list,
    asObject?.map fun entries => object (Dict.ofList entries)]

/-- The values of items, each of the first variant that takes it. -/
def ofItems? : List Content → Option (List Value)
  | [] => some []
  | item :: items => do return (← ofContent? item) :: (← ofItems? items)

/-- The values of members, each of the first variant that takes it. -/
def ofMembers? : List (String × Content) → Option (List (String × Value))
  | [] => some []
  | (key, value) :: members => do return (key, ← ofContent? value) :: (← ofMembers? members)

end

/-- The value of a tree, whatever its depth. -/
def ofTree? (tree : Tree) : Option Value := (Library.content? tree).bind ofContent?

instance : Json.Form Value where
  toTree := toTree
  ofTree? tree := (Library.bounded? tree).bind ofTree?

instance : Json.Form Context where
  toTree context := toTree (object context)
  ofTree? tree := (Library.bounded? tree).bind (Library.dict? ofTree?)

/-! ## Dynamic values -/

mutual

/-- Template data of a dynamic value.  A number that is none of floating point is not-a-number. -/
def ofData : Data → Value
  | .null => null
  | .bool value => bool value
  | .number value => number ((Library.toNumber? value).getD .nan)
  | .text value => text value
  | .array items => list (ofDataItems items)
  | .object members => object (ofDataMembers members)

/-- Template data of items. -/
def ofDataItems : List Data → List Value
  | [] => []
  | item :: items => ofData item :: ofDataItems items

/-- Template data of members. -/
def ofDataMembers : {low : Option String} → Ascending Data low → Ascending Value low
  | _, .nil => .nil
  | _, .cons key value above rest => .cons key (ofData value) above (ofDataMembers rest)

end

/-- The template data of a document that is read as a dynamic value first. -/
def decodeDynamic? (document : String) : Option Value :=
  (((Library.read? document).bind Library.bounded?).bind Library.data?).map ofData

end Value
end Stencil
