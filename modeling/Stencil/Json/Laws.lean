import Mathlib.Data.List.Forall2
import Stencil.Json.Library

/-!
# Laws of JSON libraries — what is known of reading, writing and conventions

Nothing is assumed of a library as such.  What its documentation says stands here as laws, in groups,
so that each result can name the ones it rests on.

* `Reads` — a tree is read where another one was written;
* `Faithful` — a document is read as it was written;
* `Rounded` — numbers are written as decimals that round to them, and decimals are read rounded;
* `Declared` — how texts, dictionaries, records and named alternatives stand in documents;
* `Undeclared` — how documents are gone through whose shape is not known beforehand.
-/

namespace Stencil
namespace Json

/-! ## Documents -/

section

variable [Library]

/-- Where the first tree was written, the second one is read. -/
def Reads (source tree : Tree) : Prop := Library.read? (Library.write source) = some tree

/-- Members with the same keys, of which each is read where the other one was written. -/
def ReadsMember (source tree : String × Tree) : Prop :=
  source.1 = tree.1 ∧ Reads source.2 tree.2

end

/-- A document is read as it was written.  Numbers with a fraction or an exponent are left out, since
they may be written and read as other decimals. -/
class Faithful [Library] : Prop where
  reads_null : Reads .null .null
  reads_bool (value : Bool) : Reads (.bool value) (.bool value)
  reads_natural {value : Nat} :
    value < UInt64.size → Reads (.natural value) (.natural value)
  reads_text (value : String) : Reads (.text value) (.text value)
  reads_array {sources trees : List Tree} :
    List.Forall₂ Reads sources trees → Reads (.array sources) (.array trees)
  reads_record {sources trees : List (String × Tree)} :
    List.Forall₂ ReadsMember sources trees → Reads (.record sources) (.record trees)

/-! ## Numbers -/

/-- Numbers come back from their decimals: one that is not finite is written as null, any other one as
a decimal that rounds to it, and decimals of not too many digits are read as the nearest number.  Only
integers of 64 bits are kept as integers. -/
class Rounded [Library] : Prop where
  ofNumber_of_not_finite {value : Number} : value.isFinite = false → Library.ofNumber value = .null
  reads_ofNumber {value : Number} : value.isFinite →
    ∃ decimal : Decimal, Reads (Library.ofNumber value) (.decimal decimal) ∧
      Short decimal ∧ Number.ofDecimal .double decimal = value
  numeral?_decimal {decimal : Decimal} :
    Short decimal → (Number.ofDecimal .double decimal).isFinite →
      Library.numeral? (.decimal decimal) = some (.float (.ofDecimal .double decimal))
  numeral?_unsigned {magnitude : Nat} : magnitude < UInt64.size →
    Library.numeral? (.integer false magnitude) = some (.integer magnitude)
  numeral?_signed {magnitude : Nat} : 0 < magnitude → magnitude ≤ UInt64.size / 2 →
    Library.numeral? (.integer true magnitude) = some (.integer (-magnitude))
  numeral?_other {negative : Bool} {magnitude : Nat} :
    (if negative then magnitude = 0 ∨ UInt64.size / 2 < magnitude else UInt64.size ≤ magnitude) →
      Short ⟨negative, magnitude, 0⟩ →
      (Number.ofDecimal .double ⟨negative, magnitude, 0⟩).isFinite →
        Library.numeral? (.integer negative magnitude) =
          some (.float (.ofDecimal .double ⟨negative, magnitude, 0⟩))

/-! ## Declared types -/

/-- The fields of a record among entries: those with a known name, if none comes twice. -/
def knownFields? (names : List String) (entries : List (String × Tree)) : Option (Dict Tree) :=
  let known := entries.filter (·.1 ∈ names)
  if (known.map Prod.fst).Nodup then some (Dict.ofList known) else none

/-- The conventions for data of declared types. -/
class Declared [Library] : Prop where
  /-- A record is an object with a member for each field. -/
  record_eq (fields : List (String × Tree)) : Library.record fields = .record fields
  /-- An alternative without content is its name. -/
  alternative_none (name : String) : Library.alternative name none = .text name
  /-- An alternative with content is an object with its name as the only key. -/
  alternative_some (name : String) (content : Tree) :
    Library.alternative name (some content) = .record [(name, content)]
  text?_string (value : Option String) : Library.text? (.string value) = value
  text?_other {tree : Tree} : (∀ value, tree ≠ .string value) → Library.text? tree = none
  word?_natural {value : Nat} : value < UInt64.size → Library.word? (.natural value) = some value
  /-- The last value under a key counts in a dictionary. -/
  dict?_object {α : Type} (read? : Tree → Option α) (members : List (Option String × Tree)) :
    Library.dict? read? (.object members) = (Tree.entries? read? members).map Dict.ofList
  dict?_other {α : Type} (read? : Tree → Option α) {tree : Tree} :
    (∀ members, tree ≠ .object members) → Library.dict? read? tree = none
  /-- Members that are no fields are passed over in a record, and no field may come twice. -/
  fields?_object (names : List String) (members : List (Option String × Tree)) :
    Library.fields? names (.object members) =
      (Tree.entries? some members).bind (knownFields? names)
  field?_none {α : Type} (default : Option α) (read? : Tree → Option α) :
    Library.field? default read? none = default
  field?_some {α : Type} (default : Option α) (read? : Tree → Option α) (tree : Tree) :
    Library.field? default read? (some tree) = read? tree
  alternative?_text (name : String) : Library.alternative? (.text name) = some (name, none)
  alternative?_record (name : String) (content : Tree) :
    Library.alternative? (.record [(name, content)]) = some (name, some content)
  isBare_none : Library.isBare none

/-! ## Undeclared types -/

/-- How documents are gone through whose shape is not known beforehand, as content or as dynamic
values, and what is made of content. -/
class Undeclared [Library] : Prop where
  bounded?_eq (tree : Tree) :
    Library.bounded? tree = if tree.depth ≤ Library.depthLimit then some tree else none
  content?_null : Library.content? .null = some .null
  content?_bool (value : Bool) : Library.content? (.bool value) = some (.bool value)
  content?_integer (negative : Bool) (magnitude : Nat) :
    Library.content? (.integer negative magnitude) =
      (Library.numeral? (.integer negative magnitude)).map .number
  content?_decimal (value : Decimal) :
    Library.content? (.decimal value) = (Library.numeral? (.decimal value)).map .number
  content?_string (value : Option String) : Library.content? (.string value) = value.map .text
  content?_array (items : List Tree) :
    Library.content? (.array items) = (items.mapM Library.content?).map .array
  /-- Content keeps all members, also those under one key. -/
  content?_object (members : List (Option String × Tree)) :
    Library.content? (.object members) =
      (Tree.entries? Library.content? members).map .object
  asNull?_eq (content : Content) :
    Library.asNull? content = match content with
      | .null => some ()
      | _ => none
  asBool?_eq (content : Content) :
    Library.asBool? content = match content with
      | .bool value => some value
      | _ => none
  /-- An integer is rounded when a floating-point number is asked for. -/
  asNumber?_eq (content : Content) :
    Library.asNumber? content = match content with
      | .number (.integer value) => some (.ofInt value)
      | .number (.float value) => some value
      | _ => none
  asText?_eq (content : Content) :
    Library.asText? content = match content with
      | .text value => some value
      | _ => none
  first?_eq {α : Type} (results : List (Option α)) : Library.first? results = results.findSome? id
  data?_null : Library.data? .null = some .null
  data?_bool (value : Bool) : Library.data? (.bool value) = some (.bool value)
  data?_integer (negative : Bool) (magnitude : Nat) :
    Library.data? (.integer negative magnitude) =
      (Library.numeral? (.integer negative magnitude)).map .number
  data?_decimal (value : Decimal) :
    Library.data? (.decimal value) = (Library.numeral? (.decimal value)).map .number
  data?_string (value : Option String) : Library.data? (.string value) = value.map .text
  data?_array (items : List Tree) :
    Library.data? (.array items) = (items.mapM Library.data?).map .array
  /-- The last value under a key counts in a dynamic value. -/
  data?_object (members : List (Option String × Tree)) :
    Library.data? (.object members) =
      (Tree.entries? Library.data? members).map fun entries => .object (Dict.ofList entries)
  toNumber?_integer (value : Int) : Library.toNumber? (.integer value) = some (.ofInt value)
  toNumber?_float (value : Number) : Library.toNumber? (.float value) = some value

end Json
end Stencil
