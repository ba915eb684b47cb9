import Stencil.Json.Standard.Token

/-!
# Reading JSON — from tokens to a tree

Tokens are read from left to right with a stack of the arrays and objects that are still open.

* `Reader.run` — the reader from a state on;
* `Standard.read?` — the tree of a document, which must be a single value.
-/

namespace Stencil
namespace Json

namespace Reader

/-- An array or object that is still open, with what was read of it so far, the latest first. -/
inductive Frame where
  | array (items : List Tree)
  | object (members : List (Option String × Tree)) (key : Option String)

/-- What may come next. -/
inductive State where
  /-- A value. -/
  | value
  /-- A value, or the end of an array without items. -/
  | firstItem
  /-- The key of a member after the given ones. -/
  | member (members : List (Option String × Tree))
  /-- The key of a member, or the end of an object without members. -/
  | firstMember
  /-- What may stand behind a value. -/
  | behind (value : Tree)

/-- Reads tokens from a state on, within open arrays and objects. -/
def run : State → List Frame → List Token → Option Tree
  | .behind value, [], [] => some value
  | _, _, [] => none
  | .behind value, .array items :: stack, .comma :: tokens =>
      run .value (.array (value :: items) :: stack) tokens
  | .behind value, .array items :: stack, .closeArray :: tokens =>
      run (.behind (.array (value :: items).reverse)) stack tokens
  | .behind value, .object members key :: stack, .comma :: tokens =>
      run (.member ((key, value) :: members)) stack tokens
  | .behind value, .object members key :: stack, .closeObject :: tokens =>
      run (.behind (.object ((key, value) :: members).reverse)) stack tokens
  | .behind _, _, _ :: _ => none
  | .firstItem, stack, .closeArray :: tokens => run (.behind (.array [])) stack tokens
  | .firstItem, stack, .openArray :: tokens => run .firstItem (.array [] :: stack) tokens
  | .firstItem, stack, .openObject :: tokens => run .firstMember (.array [] :: stack) tokens
  | .firstItem, stack, .string text :: tokens =>
      run (.behind (.string text)) (.array [] :: stack) tokens
  | .firstItem, stack, .scalar value :: tokens =>
      run (.behind value) (.array [] :: stack) tokens
  | .value, stack, .openArray :: tokens => run .firstItem stack tokens
  | .value, stack, .openObject :: tokens => run .firstMember stack tokens
  | .value, stack, .string text :: tokens => run (.behind (.string text)) stack tokens
  | .value, stack, .scalar value :: tokens => run (.behind value) stack tokens
  | .firstMember, stack, .closeObject :: tokens => run (.behind (.object [])) stack tokens
  | .firstMember, stack, .string key :: .colon :: tokens =>
      run .value (.object [] key :: stack) tokens
  | .member members, stack, .string key :: .colon :: tokens =>
      run .value (.object members key :: stack) tokens
  | .firstItem, _, _ :: _ | .value, _, _ :: _ | .firstMember, _, _ :: _
  | .member _, _, _ :: _ => none

end Reader

/-- The tree of a document. -/
def Standard.read? (text : String) : Option Tree :=
  (Token.ofText? text.toList).bind (Reader.run .value [])

end Json
end Stencil
