import Stencil.Number.Decimal

/-!
# JSON trees — what a document says

A tree keeps what a document says and not what it means: numbers are exact decimals, and the members
of an object stand in their order and may repeat a key.

* `Tree`, `Tree.depth` — the tree, and how far arrays and objects are nested in it;
* `Tree.record` — an object with texts as keys;
* `Tree.entries?` — the members of an object as entries.
-/

namespace Stencil
namespace Json

/-- What a document says. -/
inductive Tree where
  | null
  | bool (value : Bool)
  /-- A number without a fraction or an exponent; zero may have a minus sign. -/
  | integer (negative : Bool) (magnitude : Nat)
  /-- A number with a fraction or an exponent. -/
  | decimal (value : Decimal)
  /-- A string, which denotes no text if it holds half of a pair of surrogates. -/
  | string (text : Option String)
  | array (items : List Tree)
  | object (members : List (Option String × Tree))

namespace Tree

instance : Inhabited Tree := ⟨null⟩

mutual

/-- How many arrays and objects stand inside one another. -/
def depth : Tree → Nat
  | null | bool _ | integer .. | decimal _ | string _ => 0
  | array items => depthOfItems items + 1
  | object members => depthOfMembers members + 1

/-- The greatest depth among items. -/
def depthOfItems : List Tree → Nat
  | [] => 0
  | item :: items => max (depth item) (depthOfItems items)

/-- The greatest depth among members. -/
def depthOfMembers : List (Option String × Tree) → Nat
  | [] => 0
  | (_, value) :: members => max (depth value) (depthOfMembers members)

end

/-- The tree of a text. -/
def text (value : String) : Tree := string (some value)

/-- The tree of a natural number. -/
def natural (value : Nat) : Tree := integer false value

/-- An object with texts as keys. -/
def record (members : List (String × Tree)) : Tree :=
  object (members.map fun (key, value) => (some key, value))

/-- The members of an object as entries, where every key is a text and every value can be read. -/
def entries? {α : Type} (read? : Tree → Option α) :
    List (Option String × Tree) → Option (List (String × α))
  | [] => some []
  | (key, value) :: members => do
      let entry := (← key, ← read? value)
      return entry :: (← entries? read? members)

end Tree
end Json
end Stencil
