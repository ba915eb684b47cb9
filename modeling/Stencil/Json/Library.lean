import Stencil.Dict.Basic
import Stencil.Json.Tree
import Stencil.Number.Basic

/-!
# JSON libraries — documents, and the conventions by which data stands in them

Documents are read and written by a library, which also has the conventions for data in them: how
numbers, records and named alternatives stand in a document, and what is made of a document that is
read before it is known what it stands for.

* `Library` — the operations of a library;
* `Content`, `Data` — documents whose reading is put off, and documents as dynamic values;
* `Tree.ofDict` — the tree of a dictionary;
* `Form` — a type whose values have trees, with `decode?` and `encode` between values and documents.
-/

namespace Stencil
namespace Json

/-- A number that was read: an integer that is kept exactly, or one that was rounded. -/
inductive Numeral where
  | integer (value : Int)
  | float (value : Number)

/-- How many digits of a decimal are sure to be heeded when it is rounded. -/
def digitLimit : Nat := 768

-- Powers of natural numbers are the core library's own, whatever algebra is in scope.
attribute [local instance (high)] instPowNat in
/-- A decimal of which all digits are sure to be heeded when it is rounded. -/
def Short (decimal : Decimal) : Prop := decimal.coefficient < 10 ^ digitLimit

/-- A document that was read before it is known what it stands for.  Members stand in their order and
may repeat a key. -/
inductive Content where
  | null
  | bool (value : Bool)
  | number (value : Numeral)
  | text (value : String)
  | array (items : List Content)
  | object (members : List (String × Content))

/-- A document as a dynamic value, where a key has one value. -/
inductive Data where
  | null
  | bool (value : Bool)
  | number (value : Numeral)
  | text (value : String)
  | array (items : List Data)
  | object (members : Ascending Data none)

/-- A dictionary as an object, in key order. -/
def Tree.ofDict {α : Type} (toTree : α → Tree) (dict : Dict α) : Tree :=
  record (dict.toList.map fun (key, value) => (key, toTree value))

/-- A library that reads and writes documents. -/
class Library where
  /-- The tree of a document. -/
  read? : String → Option Tree
  /-- A document for a tree. -/
  write : Tree → String
  /-- How many arrays and objects may stand inside one another in a tree that is gone through. -/
  depthLimit : Nat
  /-- The tree itself, if it is not nested too deep to be gone through. -/
  bounded? : Tree → Option Tree
  /-- The tree of a floating-point number. -/
  ofNumber : Number → Tree
  /-- The tree of a record with the given fields. -/
  record : List (String × Tree) → Tree
  /-- The tree of a named alternative, with or without content. -/
  alternative : String → Option Tree → Tree
  /-- A text. -/
  text? : Tree → Option String
  /-- A natural number of 64 bits. -/
  word? : Tree → Option Nat
  /-- A dictionary, given how its values are read. -/
  dict? {α : Type} : (Tree → Option α) → Tree → Option (Dict α)
  /-- The fields of a record with the given names. -/
  fields? : List String → Tree → Option (Dict Tree)
  /-- The value of a field that may be missing, given its default, if it has one. -/
  field? {α : Type} : Option α → (Tree → Option α) → Option Tree → Option α
  /-- The name of an alternative, with its content if it has any. -/
  alternative? : Tree → Option (String × Option Tree)
  /-- Whether an alternative without content may have this one. -/
  isBare : Option Tree → Bool
  /-- The number of a tree. -/
  numeral? : Tree → Option Numeral
  /-- The content of a tree, whose reading is put off. -/
  content? : Tree → Option Content
  /-- Content that stands for nothing. -/
  asNull? : Content → Option Unit
  /-- Content that stands for a truth value. -/
  asBool? : Content → Option Bool
  /-- Content that stands for a floating-point number. -/
  asNumber? : Content → Option Number
  /-- Content that stands for a text. -/
  asText? : Content → Option String
  /-- What alternatives without names make of a content, which are tried in their order. -/
  first? {α : Type} : List (Option α) → Option α
  /-- The dynamic value of a tree. -/
  data? : Tree → Option Data
  /-- The number of a dynamic value as a floating-point number. -/
  toNumber? : Numeral → Option Number

/-- A type with a form as JSON documents. -/
class Form (α : Type) where
  toTree : α → Tree
  ofTree? : Tree → Option α

section

variable [Library] {α : Type} [Form α]

/-- The value that a document stands for. -/
def decode? (document : String) : Option α := (Library.read? document).bind Form.ofTree?

/-- A document for a value. -/
def encode (value : α) : String := Library.write (Form.toTree value)

end

end Json
end Stencil
