import Stencil.Json.Laws
import Stencil.Json.Value

/-!
# Variants — which variant of template data takes a tree

The variants have no names in a document and are tried one after the other.  No two of them take a
content of one shape, so the shape alone tells which one it is, and the parts of lists and objects are
read in turn.

* `Value.ofContent?_array`, `Value.ofContent?_object`, … — the variant that takes a content;
* `Value.ofTree?_array`, `Value.ofTree?_object`, … — what a tree of each shape is read as;
* `Value.dict?_ofTree?` — a dictionary of values is what an object is read as, and nothing else.
-/

namespace Stencil

namespace Json

/-! ## Reading in two steps -/

/-- Items that are read in two steps are read in both steps one by one. -/
theorem mapM_bind {ι α β : Type} {first : ι → Option α} {second : α → Option β} (items : List ι) :
    (items.mapM first).bind (·.mapM second) = items.mapM fun item => (first item).bind second := by
  induction items with
  | nil => rfl
  | cons item items ih =>
      rw [List.mapM_cons, List.mapM_cons, ← ih]
      cases first item <;> cases items.mapM first <;> simp

/-- Entries whose values are read in two steps are read in both steps one by one. -/
theorem entries?_bind {α β : Type} {first : Tree → Option α} {second : α → Option β}
    (members : List (Option String × Tree)) :
    (Tree.entries? first members).bind
        (·.mapM fun entry => (second entry.2).map fun value => (entry.1, value)) =
      Tree.entries? (fun tree => (first tree).bind second) members := by
  induction members with
  | nil => rfl
  | cons member members ih =>
      rcases member with ⟨key, value⟩
      rw [Tree.entries?, Tree.entries?, ← ih]
      -- What cannot be read in the first step cannot be read at all.
      cases key with
      | none => rfl
      | some key =>
          cases first value with
          | none => rfl
          | some value =>
              cases hvalue : second value <;> cases Tree.entries? first members <;> simp [hvalue]

end Json

namespace Value

open Json (Tree Content Library Declared Undeclared)

section

variable [Library]

theorem ofItems?_eq (items : List Content) : ofItems? items = items.mapM ofContent? := by
  induction items with
  | nil => rfl
  | cons item items ih => rw [ofItems?, List.mapM_cons, ih]

theorem ofMembers?_eq (members : List (String × Content)) :
    ofMembers? members =
      members.mapM fun member => (ofContent? member.2).map fun value => (member.1, value) := by
  induction members with
  | nil => rfl
  | cons member members ih =>
      rw [ofMembers?, List.mapM_cons, ih]
      cases ofContent? member.2 <;> rfl

end

variable [Library] [Undeclared]

/-! ## Contents -/

theorem ofContent?_null : ofContent? .null = some null := by
  simp [ofContent?, Undeclared.first?_eq, Undeclared.asNull?_eq]

theorem ofContent?_bool (value : Bool) : ofContent? (.bool value) = some (bool value) := by
  simp [ofContent?, Undeclared.first?_eq, Undeclared.asNull?_eq, Undeclared.asBool?_eq]

/-- A number is taken by the variant of numbers, and an integer is rounded only then. -/
theorem ofContent?_number (value : Json.Numeral) :
    ofContent? (.number value) = (Library.asNumber? (.number value)).map number := by
  cases value <;>
    simp [ofContent?, Undeclared.first?_eq, Undeclared.asNull?_eq, Undeclared.asBool?_eq,
      Undeclared.asNumber?_eq]

theorem ofContent?_text (value : String) : ofContent? (.text value) = some (text value) := by
  simp [ofContent?, Undeclared.first?_eq, Undeclared.asNull?_eq, Undeclared.asBool?_eq,
    Undeclared.asNumber?_eq, Undeclared.asText?_eq]

theorem ofContent?_array (items : List Content) :
    ofContent? (.array items) = (items.mapM ofContent?).map list := by
  rw [← ofItems?_eq]
  cases hitems : ofItems? items <;>
    simp [ofContent?, Undeclared.first?_eq, Undeclared.asNull?_eq, Undeclared.asBool?_eq,
      Undeclared.asNumber?_eq, Undeclared.asText?_eq, hitems]

theorem ofContent?_object (members : List (String × Content)) :
    ofContent? (.object members) =
      (members.mapM fun member => (ofContent? member.2).map fun value => (member.1, value)).map
        fun entries => object (Dict.ofList entries) := by
  rw [← ofMembers?_eq]
  simp [ofContent?, Undeclared.first?_eq, Undeclared.asNull?_eq, Undeclared.asBool?_eq,
    Undeclared.asNumber?_eq, Undeclared.asText?_eq]

/-! ## Trees -/

theorem ofTree?_null : ofTree? .null = some null := by
  rw [ofTree?, Undeclared.content?_null, Option.bind_some, ofContent?_null]

theorem ofTree?_bool (value : Bool) : ofTree? (.bool value) = some (bool value) := by
  rw [ofTree?, Undeclared.content?_bool, Option.bind_some, ofContent?_bool]

theorem ofTree?_integer (negative : Bool) (magnitude : Nat) :
    ofTree? (.integer negative magnitude) =
      ((Library.numeral? (.integer negative magnitude)).bind
        fun value => Library.asNumber? (.number value)).map number := by
  rw [ofTree?, Undeclared.content?_integer, Option.bind_map, Option.map_bind]
  exact congrArg _ (funext ofContent?_number)

theorem ofTree?_decimal (value : Decimal) :
    ofTree? (.decimal value) =
      ((Library.numeral? (.decimal value)).bind
        fun value => Library.asNumber? (.number value)).map number := by
  rw [ofTree?, Undeclared.content?_decimal, Option.bind_map, Option.map_bind]
  exact congrArg _ (funext ofContent?_number)

theorem ofTree?_string (value : Option String) : ofTree? (.string value) = value.map text := by
  rw [ofTree?, Undeclared.content?_string]
  cases value with
  | none => rfl
  | some value => exact ofContent?_text value

/-- The items of an array are read one by one. -/
theorem ofTree?_array (items : List Tree) :
    ofTree? (.array items) = (items.mapM ofTree?).map list := by
  have hitems : items.mapM ofTree? = (items.mapM Library.content?).bind (·.mapM ofContent?) :=
    (Json.mapM_bind items).symm
  rw [ofTree?, Undeclared.content?_array, hitems, Option.bind_map, Option.map_bind]
  exact congrArg _ (funext ofContent?_array)

/-- The members of an object are read one by one, and the last value under a key counts. -/
theorem ofTree?_object (members : List (Option String × Tree)) :
    ofTree? (.object members) =
      (Tree.entries? ofTree? members).map fun entries => object (Dict.ofList entries) := by
  have hmembers : Tree.entries? ofTree? members =
      (Tree.entries? Library.content? members).bind
        (·.mapM fun member => (ofContent? member.2).map fun value => (member.1, value)) :=
    (Json.entries?_bind members).symm
  rw [ofTree?, Undeclared.content?_object, hmembers, Option.bind_map, Option.map_bind]
  exact congrArg _ (funext ofContent?_object)

/-! ## Contexts -/

/-- A dictionary of values is what an object is read as, and nothing else. -/
theorem dict?_ofTree? [Declared] (tree : Tree) :
    Library.dict? ofTree? tree = (ofTree? tree).bind entries? := by
  have hnumber (value : Option Number) : (value.map number).bind entries? = none := by
    cases value <;> rfl
  cases tree with
  | object members =>
      rw [Declared.dict?_object, ofTree?_object]
      cases Tree.entries? ofTree? members <;> rfl
  | null => rw [Declared.dict?_other _ (by simp), ofTree?_null]; rfl
  | bool value => rw [Declared.dict?_other _ (by simp), ofTree?_bool]; rfl
  | integer negative magnitude => rw [Declared.dict?_other _ (by simp), ofTree?_integer, hnumber]
  | decimal value => rw [Declared.dict?_other _ (by simp), ofTree?_decimal, hnumber]
  | string value =>
      rw [Declared.dict?_other _ (by simp), ofTree?_string]
      cases value <;> rfl
  | array items =>
      rw [Declared.dict?_other _ (by simp), ofTree?_array]
      cases items.mapM ofTree? <;> rfl

end Value
end Stencil
