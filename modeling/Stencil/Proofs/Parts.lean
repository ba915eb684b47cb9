import Stencil.Proofs.Grammar
import Stencil.Proofs.Seam

/-!
# Parts — templates inside other texts

A text can be put together from tags and from texts that are templates of their own.  Such a part is
parsed as it is parsed alone: its place makes a difference to where errors are reported, and to
nothing else.

* `Parser.nodes_move` — moved lexemes are parsed alike, and a flaw in them is moved;
* `Template.derives_of_parse` — a template's text derives its tree wherever it stands;
* `Template.Separate` — no tag starts in one text and ends in the next;
* `Template.ofText_tag_behind` — a tag between two such texts is read as itself.
-/

namespace Stencil

/-! ## Moved lexemes -/

namespace Block

/-- A block of a text that starts further to the right. -/
def move (distance : Nat) (block : Block) : Block where
  contents := block.contents.map (Lexeme.move distance)
  close := block.close + distance
  rest := block.rest.map (Lexeme.move distance)

theorem split?_move (distance inner : Nat) (lexemes : List Lexeme) :
    split? inner (lexemes.map (Lexeme.move distance)) =
      (split? inner lexemes).map (move distance) := by
  induction lexemes generalizing inner with
  | nil =>
      simp [split?]
  | cons lexeme lexemes ih =>
      cases lexeme with
      | literal run =>
          simp [split?, Lexeme.move, ih, Function.comp_def, move, cons]
      | tag tag offset =>
          cases tag with
          | close =>
              cases inner <;>
                simp [split?, Lexeme.move, ih, Function.comp_def, move, cons]
          | _ =>
              simp [split?, Lexeme.move, ih, Function.comp_def, move, cons]

theorem split?_move_of_none {inner : Nat} {lexemes : List Lexeme} (distance : Nat) :
    split? inner lexemes = none → split? inner (lexemes.map (Lexeme.move distance)) = none := by
  intro h
  rw [split?_move, h, Option.map_none]

theorem split?_move_of_some {inner : Nat} {lexemes : List Lexeme} {block : Block}
    (distance : Nat) :
    split? inner lexemes = some block →
      split? inner (lexemes.map (Lexeme.move distance)) = some (block.move distance) := by
  intro h
  rw [split?_move, h, Option.map_some]

end Block

namespace Parser

/-- A flaw of a text that starts further to the right. -/
def Flaw.move (distance : Nat) (flaw : Flaw) : Flaw :=
  { flaw with offset := flaw.offset + distance }

/-- A separator of a text that starts further to the right. -/
def Separator.move (distance : Nat) (separator : Separator) : Separator where
  gap := separator.gap
  offset := separator.offset + distance
  behind := separator.behind.map (Lexeme.move distance)

theorem separator?_move (distance : Nat) (lexemes : List Lexeme) :
    separator? (lexemes.map (Lexeme.move distance)) =
      (separator? lexemes).map (Separator.move distance) := by
  cases lexemes with
  | nil =>
      rfl
  | cons first lexemes =>
      cases first with
      | tag tag offset =>
          cases tag <;> rfl
      | literal run =>
          cases lexemes with
          | nil =>
              rfl
          | cons second lexemes =>
              cases second with
              | literal other =>
                  rfl
              | tag tag offset =>
                  cases tag with
                  | separator =>
                      by_cases hblank : run.all Text.isBlank <;>
                        simp [separator?, Lexeme.move, Separator.move, hblank]
                  | _ =>
                      rfl

theorem separator?_move_of_some {lexemes : List Lexeme} {separator : Separator} (distance : Nat) :
    separator? lexemes = some separator →
      separator? (lexemes.map (Lexeme.move distance)) = some (separator.move distance) := by
  intro h
  rw [separator?_move, h, Option.map_some]

theorem mapError_map {α β ε : Type} (f : α → β) (g : Flaw → ε) (result : Except Flaw α) :
    (result.map f).mapError g = (result.mapError g).map f := by
  cases result <;> rfl

theorem mapError_bind {α β ε : Type} (f : α → Except Flaw β) (g : Flaw → ε)
    (result : Except Flaw α) :
    (result.bind f).mapError g = (result.mapError g).bind fun a => (f a).mapError g := by
  cases result <;> rfl

/-- Moved lexemes are parsed as they are elsewhere, and a flaw in them is moved with them. -/
theorem nodes_move (distance : Nat) :
    ∀ (rule : ElseRule) (lexemes : List Lexeme),
      nodes rule (lexemes.map (Lexeme.move distance)) =
        (nodes rule lexemes).mapError (Flaw.move distance) := by
  -- Splitting off a block commutes with moving, so the induction is the parser's own.
  refine nodes.induct
    (fun rule lexemes => nodes rule (lexemes.map (Lexeme.move distance)) =
      (nodes rule lexemes).mapError (Flaw.move distance))
    (fun key contents => loop key (contents.map (Lexeme.move distance)) =
      (loop key contents).mapError (Flaw.move distance))
    ?nil ?literal ?value ?loopUnclosed ?loop ?testUnclosed ?test ?otherwiseRefused ?otherwiseTaken
    ?otherwiseAllowed ?separator ?close ?plain ?joinedUnclosed ?joined
  case nil =>
    intro rule
    simp [Except.mapError]
  case literal =>
    intro rule run lexemes ih
    simp [Lexeme.move, ih, mapError_map]
  case value =>
    intro rule key offset lexemes ih
    simp [Lexeme.move, ih, mapError_map]
  case loopUnclosed =>
    intro rule key offset lexemes hnone
    have hmoved := Block.split?_move_of_none distance hnone
    rw [nodes_loop_of_unclosed hnone]
    exact nodes_loop_of_unclosed hmoved
  case loop =>
    intro rule key offset lexemes block hfound ihLoop ih
    have hmoved := Block.split?_move_of_some distance hfound
    simp [Lexeme.move, nodes_loop hfound, nodes_loop hmoved, Block.move, ihLoop, ih, mapError_bind,
      mapError_map]
  case testUnclosed =>
    intro rule condition offset lexemes hnone
    have hmoved := Block.split?_move_of_none distance hnone
    rw [nodes_test_of_unclosed hnone]
    exact nodes_test_of_unclosed hmoved
  case test =>
    intro rule condition offset lexemes block hfound ihContents ih
    have hmoved := Block.split?_move_of_some distance hfound
    simp [Lexeme.move, nodes_test hfound, nodes_test hmoved, Block.move, ihContents, ih,
      mapError_bind, mapError_map]
  case otherwiseRefused =>
    intro offset lexemes
    simp [Lexeme.move, Except.mapError, Flaw.move]
  case otherwiseTaken =>
    intro offset lexemes
    simp [Lexeme.move, Except.mapError, Flaw.move]
  case otherwiseAllowed =>
    intro offset lexemes ih
    simp [Lexeme.move, ih, mapError_map]
  case separator =>
    intro rule offset lexemes
    simp [Lexeme.move, Except.mapError, Flaw.move]
  case close =>
    intro rule offset lexemes
    simp [Lexeme.move, Except.mapError, Flaw.move]
  case plain =>
    intro key contents hfirst ih
    have hmoved : separator? (contents.map (Lexeme.move distance)) = none := by
      simp [separator?_move, hfirst]
    simp [loop_of_no_separator hfirst, loop_of_no_separator hmoved, ih, mapError_map]
  case joinedUnclosed =>
    intro key contents separator hfirst hnone
    have hmoved := separator?_move_of_some distance hfirst
    rw [loop_of_unclosed_separator hfirst hnone]
    exact loop_of_unclosed_separator hmoved (Block.split?_move_of_none distance hnone)
  case joined =>
    intro key contents separator hfirst block hfound ihBetween ihBody
    have hmoved := separator?_move_of_some distance hfirst
    have hmovedFound := Block.split?_move_of_some distance hfound
    rw [loop_of_separator hfirst hfound, loop_of_separator hmoved hmovedFound]
    simp [Block.move, Separator.move, ihBetween, ihBody, mapError_bind, mapError_map]

end Parser

namespace Grammar

theorem Derives.move {lexemes : List Lexeme} {tree : List Node} (distance : Nat) :
    Derives lexemes tree → Derives (lexemes.map (Lexeme.move distance)) tree := by
  intro h
  have hmoved := Parser.nodes_move distance .refused lexemes
  rw [nodes_eq_ok_iff.2 h] at hmoved
  exact nodes_eq_ok_iff.1 hmoved

end Grammar

namespace Template

open Grammar (Derives)

/-! ## Templates as parts -/

/-- A template's text derives its tree wherever it stands. -/
theorem derives_of_parse {text : String} {template : Template} (offset : Nat) :
    parse text = .ok template → Derives (Lexeme.ofText offset text.toList) template.nodes := by
  intro h
  have hderives := (derivation_iff.1 (parse_eq_ok_iff.1 h).2).move offset
  rw [← Lexeme.ofText_move, Nat.zero_add] at hderives
  exact hderives

theorem parse_of_derives {text : String} {tree : List Node} :
    Derives (Lexeme.ofText 0 text.toList) tree → parse text = .ok ⟨text, tree⟩ := by
  intro h
  exact parse_eq_ok_iff.2 ⟨rfl, derivation_iff.2 h⟩

/-! ## Tags between parts -/

/-- No tag of two texts, one behind the other, starts in the first and ends in the second. -/
def Separate (left right : String) : Prop :=
  Lexeme.Uncrossed 0 left.toList right.toList

instance (left right : String) : Decidable (Separate left right) :=
  inferInstanceAs (Decidable (Lexeme.Uncrossed _ _ _))

theorem ofText_tag_before {behind : String} {tag : Tag} (valid : tag.Valid) :
    ∃ start, Lexeme.ofText 0 (tag.toText ++ behind).toList =
      .tag tag 0 :: Lexeme.ofText start behind.toList := by
  have hread := @Lexeme.ofText_tag_append 0 behind.toList tag valid
  exact ⟨_, by simpa using hread⟩

/-- A tag behind a text is read as such, and then what follows it. -/
theorem ofText_tag_behind {front behind : String} {tag : Tag} (valid : tag.Valid) :
    Separate front (tag.toText ++ behind) →
      ∃ offset start, Lexeme.ofText 0 (front ++ tag.toText ++ behind).toList =
        Lexeme.ofText 0 front.toList ++ .tag tag offset :: Lexeme.ofText start behind.toList := by
  intro h
  have huncrossed : Lexeme.Uncrossed 0 front.toList (tag.written ++ behind.toList) := by
    simpa [Separate] using h
  have hread := Lexeme.ofText_append_tag valid huncrossed
  exact ⟨_, _, by simpa using hread⟩

theorem ofText_close {text : String} :
    Separate text Tag.close.toText →
      ∃ close, Lexeme.ofText 0 (text ++ Tag.close.toText).toList =
        Lexeme.ofText 0 text.toList ++ [.tag .close close] := by
  intro h
  have hsame : Separate text (Tag.close.toText ++ "") := by simpa using h
  rcases ofText_tag_behind Tag.valid_close hsame with ⟨close, start, hread⟩
  exact ⟨close, by simpa using hread⟩

/-- A block is read as its two tags with the lexemes of its contents between them. -/
theorem ofText_block {contents : String} {tag : Tag} (valid : tag.Valid) :
    Separate (tag.toText ++ contents) Tag.close.toText →
      ∃ start close, Lexeme.ofText 0 (tag.toText ++ contents ++ Tag.close.toText).toList =
        .tag tag 0 :: (Lexeme.ofText start contents.toList ++ [.tag .close close]) := by
  intro h
  rcases @ofText_tag_before contents tag valid with ⟨start, hopening⟩
  rcases ofText_close h with ⟨close, hclose⟩
  exact ⟨start, close, by rw [hclose, hopening, List.cons_append]⟩

/-- A seam stays uncrossed when a text behind another such seam is cut off. -/
theorem Separate.cut {left middle right : String} :
    Separate left (middle ++ right) → Separate (left ++ middle) right → Separate left middle := by
  intro hfirst hsecond
  apply @Lexeme.Uncrossed.cut 0 _ _ right.toList
  · simpa [Separate] using hfirst
  · simpa [Separate] using hsecond

end Template
end Stencil
