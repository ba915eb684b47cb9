import Stencil.Proofs.Parts

/-!
# Concatenation — a text behind a template

Behind a template, a text is parsed and rendered as it is alone, as long as no tag crosses the seam.
Runs that meet at the seam are one literal, which is rendered as the two literals are.

* `Grammar.Derives.item_induction` — induction over a derivation, node by node;
* `Grammar.Behind`, `Grammar.Derives.behind` — what the parser makes of joined lexemes;
* `Template.parse_append` — templates can be put together, and taken apart, at such a seam.
-/

namespace Stencil

namespace Grammar

open Stencil.Parser (Branches Flaw nodes)

/-- A derivation is followed node by node: a node is that of a literal, or that of lexemes which end
with a tag. -/
theorem Derives.item_induction {motive : List Lexeme → List Node → Prop}
    (nil : motive [] [])
    (literal : ∀ run lexemes tree, Derives lexemes tree → motive lexemes tree →
      motive (.literal run :: lexemes) (.literal (String.ofList run) :: tree))
    (item : ∀ front tag offset node lexemes tree, Derives (front ++ [.tag tag offset]) [node] →
      motive lexemes tree → motive (front ++ .tag tag offset :: lexemes) (node :: tree))
    {lexemes : List Lexeme} {tree : List Node} :
    Derives lexemes tree → motive lexemes tree := by
  intro h
  induction h with
  | nil =>
      exact nil
  | literal hrest ih =>
      exact literal _ _ _ hrest ih
  -- The lexemes of any other node end with a tag: its own or the one that closes its block.
  | value _ ih =>
      exact item [] _ _ _ _ _ (.value .nil) ih
  | loop hbody _ _ ih =>
      exact item (_ :: _) _ _ _ _ _ (.loop hbody .nil) ih
  | joined hgap hseparator hbody _ _ _ ih =>
      exact item (_ :: _) _ _ _ _ _ (.joined hgap hseparator hbody .nil) ih
  | guarded hbody _ _ ih =>
      exact item (_ :: _) _ _ _ _ _ (.guarded hbody .nil) ih
  | choice hbody hotherwise _ _ _ ih =>
      exact item (_ :: _) _ _ _ _ _ (.choice hbody hotherwise .nil) ih

/-- The result of parsing a sequence, and that of parsing it behind a tree: the same flaw, or nodes
that are rendered behind those of the tree. -/
inductive Behind (tree : List Node) : Except Flaw Branches → Except Flaw Branches → Prop where
  | error (flaw : Flaw) : Behind tree (.error flaw) (.error flaw)
  | ok {branches whole : Branches} :
      (∀ context, Node.renderAll context whole.body =
        Node.renderAll context tree ++ Node.renderAll context branches.body) →
      Behind tree (.ok branches) (.ok whole)

theorem Behind.cons {tree : List Node} {result whole : Except Flaw Branches} (node : Node) :
    Behind tree result whole → Behind (node :: tree) result (whole.map (Branches.cons node)) := by
  intro h
  cases h with
  | error flaw =>
      exact .error flaw
  | ok hrender =>
      rename_i branches whole
      refine .ok fun context => ?_
      calc
        Node.renderAll context ([node] ++ whole.body)
            = Node.renderAll context [node] ++ (Node.renderAll context tree ++
                Node.renderAll context branches.body) := by
              rw [Node.renderAll_append, hrender]
        _ = Node.renderAll context ([node] ++ tree) ++ Node.renderAll context branches.body := by
              rw [Node.renderAll_append, String.append_assoc]

theorem behind_nil (result : Except Flaw Branches) : Behind [] result result := by
  cases result with
  | error flaw =>
      exact .error flaw
  | ok branches =>
      refine .ok fun context => ?_
      cases context <;> simp [Node.sources]

/-- Where a run meets another one, they are one literal, which is rendered as the two are. -/
theorem behind_weld (run : List Char) (right : List Lexeme) :
    Behind [.literal (String.ofList run)] (nodes .refused right)
      (nodes .refused (Lexeme.weld run right)) := by
  have hplain := (behind_nil (nodes .refused right)).cons (.literal (String.ofList run))
  rw [← Parser.nodes_literal] at hplain
  cases right with
  | nil =>
      exact hplain
  | cons next behind =>
      cases next with
      | tag tag offset =>
          exact hplain
      | literal more =>
          simp only [Lexeme.weld, Parser.nodes_literal]
          cases nodes .refused behind with
          | error flaw =>
              exact .error flaw
          | ok branches =>
              refine .ok fun context => ?_
              cases context <;>
                simp [Branches.cons, Node.render, Node.sources, Node.source, String.append_assoc]

/-- What follows a derivable sequence is parsed as it is alone. -/
theorem Derives.behind {left right : List Lexeme} {tree : List Node} :
    Derives left tree →
      Behind tree (nodes .refused right) (nodes .refused (Lexeme.join left right)) := by
  intro h
  refine Derives.item_induction
    (motive := fun left tree =>
      Behind tree (nodes .refused right) (nodes .refused (Lexeme.join left right)))
    ?nil ?literal ?item h
  case nil =>
    exact behind_nil _
  case literal =>
    intro run lexemes tree hrest ih
    cases lexemes with
    | nil =>
        -- This run is the last lexeme, so it is the one that may meet another.
        cases hrest
        exact behind_weld run right
    | cons next lexemes =>
        simpa [Lexeme.join] using ih.cons (.literal (String.ofList run))
  case item =>
    intro front tag offset node lexemes tree hitem ih
    have hnodes := hitem.nodes_append .refused (Lexeme.join lexemes right)
    simp only [List.append_assoc, List.singleton_append] at hnodes
    rw [Lexeme.join_append_tag, hnodes]
    exact ih.cons node

end Grammar

namespace Template

open Text (byteLength)

/-- The nodes of a text behind a template, or the flaw in it. -/
theorem behind_of_parse {left right : String} {first : Template} :
    parse left = .ok first → Separate left right →
      Grammar.Behind first.nodes
        ((Parser.nodes .refused (Lexeme.ofText 0 right.toList)).mapError
          (Parser.Flaw.move (byteLength left.toList)))
        (Parser.nodes .refused (Lexeme.ofText 0 (left ++ right).toList)) := by
  intro hleft hseparate
  have hjoined : Lexeme.ofText 0 (left ++ right).toList =
      Lexeme.join (Lexeme.ofText 0 left.toList)
        (Lexeme.ofText (byteLength left.toList) right.toList) := by
    simpa using Lexeme.ofText_seam hseparate
  have hmoved : Lexeme.ofText (byteLength left.toList) right.toList =
      (Lexeme.ofText 0 right.toList).map (Lexeme.move (byteLength left.toList)) := by
    simpa using Lexeme.ofText_move 0 (byteLength left.toList) right.toList
  rw [← Parser.nodes_move, ← hmoved, hjoined]
  exact (derives_of_parse 0 hleft).behind

/-- A text behind a template is a template exactly when it is one alone.  Both are rendered one
behind the other, and an error in the second is what is wrong with the whole. -/
theorem parse_append {left right : String} {first : Template} (parsed : parse left = .ok first)
    (separate : Separate left right) :
    ((∃ whole, parse (left ++ right) = .ok whole) ↔ ∃ second, parse right = .ok second) ∧
      (∀ whole second, parse (left ++ right) = .ok whole → parse right = .ok second →
        ∀ context, whole.render context = first.render context ++ second.render context) ∧
      ∀ error, parse right = .error error →
        ∃ moved, parse (left ++ right) = .error moved ∧ moved.cause = error.cause := by
  have hbehind := behind_of_parse parsed separate
  -- Neither text can have a flaw while the other has none.
  cases hright : Parser.nodes .refused (Lexeme.ofText 0 right.toList) with
  | ok branches =>
      cases hwhole : Parser.nodes .refused (Lexeme.ofText 0 (left ++ right).toList) with
      | error flaw =>
          rw [hright, hwhole] at hbehind
          cases hbehind
      | ok both =>
          rw [hright, hwhole] at hbehind
          cases hbehind with
          | ok hrender =>
              simpa [parse_of_nodes hright, parse_of_nodes hwhole, render] using hrender
  | error flaw =>
      cases hwhole : Parser.nodes .refused (Lexeme.ofText 0 (left ++ right).toList) with
      | ok both =>
          rw [hright, hwhole] at hbehind
          cases hbehind
      | error other =>
          rw [hright, hwhole] at hbehind
          have hother : other = flaw.move (byteLength left.toList) := by
            cases hbehind
            rfl
          have hsecond := parse_eq_error_iff.2 ⟨flaw, hright, rfl⟩
          have hboth := parse_eq_error_iff.2 ⟨other, hwhole, rfl⟩
          simp [hsecond, hboth, hother, Parser.Flaw.move, ParseError.atOffset]

theorem parse_append_at_brace :
    let left := (Tag.test "x").toText ++ "!" ++ Tag.close.toText ++ "\x7b"
    let right := (Tag.value "k").toText ++ ","
    let broken := "(" ++ (Tag.loop "k").toText
    (∃ first whole second, parse left = .ok first ∧ parse (left ++ right) = .ok whole ∧
      parse right = .ok second ∧
      ∀ context, whole.render context = first.render context ++ second.render context) ∧
    ∃ moved, parse (left ++ broken) = .error moved ∧
      moved.cause = .unclosedBlock (Tag.loop "k").toText := by
  intro left right broken
  have hleft : parse left = .ok ⟨left, [.guarded (.truthy "x") [.literal "!"], .literal "\x7b"]⟩ := by
    subst left
    with_unfolding_all rfl
  have hright : parse right = .ok ⟨right, [.value "k", .literal ","]⟩ := by
    subst right
    with_unfolding_all rfl
  have hbroken : parse broken = .error ⟨⟨1, 2⟩, .unclosedBlock (Tag.loop "k").toText⟩ := by
    subst broken
    with_unfolding_all rfl
  have hseparate : Separate left right := by
    subst left right
    decide +kernel
  have hseparateBroken : Separate left broken := by
    subst left broken
    decide +kernel
  rcases parse_append hleft hseparate with ⟨hparses, hrender, _⟩
  rcases parse_append hleft hseparateBroken with ⟨_, _, herror⟩
  rcases hparses.2 ⟨_, hright⟩ with ⟨whole, hwhole⟩
  exact ⟨⟨_, whole, _, hleft, hwhole, hright, hrender whole _ hwhole hright⟩, herror _ hbroken⟩

end Template
end Stencil
