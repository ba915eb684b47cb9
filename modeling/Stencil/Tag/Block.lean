import Stencil.ParseError
import Stencil.Tag.Lexeme

/-!
# Blocks — which closing tag belongs to an opening one

Blocks of all kinds nest alike: every opening tag is matched by one closing tag, and the tag that
closes a block is the first one at which more blocks were closed than opened inside it.

* `Block.split?` — the contents of an open block, its closing tag, and what follows;
* `Block.locateEnd` — the byte offset of the tag that closes the block opened at an offset.
-/

namespace Stencil

/-- A block that was closed: the lexemes inside, the byte offset of the closing tag, and the lexemes
behind it. -/
structure Block where
  contents : List Lexeme
  close : Nat
  rest : List Lexeme
  deriving DecidableEq, Repr

namespace Block

/-- The block with one more lexeme at the start of its contents. -/
def cons (lexeme : Lexeme) (block : Block) : Block :=
  { block with contents := lexeme :: block.contents }

/-- The block whose contents the lexemes start with, when `depth` further blocks are open inside
it. -/
def split? : (depth : Nat) → List Lexeme → Option Block
  | _, [] => none
  | depth, .literal run :: lexemes => (split? depth lexemes).map (cons (.literal run))
  | depth, .tag tag offset :: lexemes =>
      match tag, depth with
      -- More blocks are closed than opened: this is the end.
      | .close, 0 => some ⟨[], offset, lexemes⟩
      | .close, depth + 1 => (split? depth lexemes).map (cons (.tag tag offset))
      | .loop _, depth | .test _, depth | .separator, depth =>
          (split? (depth + 1) lexemes).map (cons (.tag tag offset))
      | .value _, depth | .otherwise, depth =>
          (split? depth lexemes).map (cons (.tag tag offset))

/-- Contents, closing tag and rest are all there is. -/
theorem eq_of_split? {depth : Nat} {lexemes : List Lexeme} {block : Block}
    (h : split? depth lexemes = some block) :
    lexemes = block.contents ++ .tag .close block.close :: block.rest := by
  fun_induction split? depth lexemes generalizing block with
  | case1 => cases h
  | case3 offset lexemes => cases h; rfl
  | case2 _ _ _ ih | case4 _ _ _ ih | case5 _ _ _ _ ih | case6 _ _ _ _ ih | case7 _ _ _ ih
  | case8 _ _ _ _ ih | case9 _ _ _ ih =>
      obtain ⟨inner, found, rfl⟩ := Option.map_eq_some_iff.1 h
      simp [cons, ih found]

/-- The contents of a block are fewer than the lexemes it is split from. -/
theorem length_contents_lt {depth : Nat} {lexemes : List Lexeme} {block : Block}
    (h : split? depth lexemes = some block) : block.contents.length < lexemes.length := by
  rw [eq_of_split? h]
  simp

/-- So is the rest behind it. -/
theorem length_rest_lt {depth : Nat} {lexemes : List Lexeme} {block : Block}
    (h : split? depth lexemes = some block) : block.rest.length < lexemes.length := by
  rw [eq_of_split? h]
  simp
  omega

/-- The character at the head of a text, for a message. -/
def headText : List Char → String
  | [] => "end of input"
  | c :: _ => c.toString

/-- The byte offset of the tag that closes the block opened at a byte offset. -/
def locateEnd (text : String) (offset : Nat) : Except ParseError Nat :=
  let fail cause := .error (ParseError.atOffset text.toList offset cause)
  match Text.splitBytes? offset text.toList with
  | none => fail (.notAnOpeningTag (headText []))
  | some (_, rest) =>
      match (Tag.at? rest).filter Tag.opens with
      | none => fail (.notAnOpeningTag (headText rest))
      | some tag =>
          let inside := Lexeme.ofText (offset + Text.byteLength tag.written)
            (rest.drop tag.written.length)
          match split? 0 inside with
          | none => fail (.unclosedBlock tag.toText)
          | some block => .ok block.close

end Block
end Stencil
