import Stencil.Proofs.Parts

/-!
# Branches — what a block under a condition is rendered as

A block under a condition stands for the part in front of its `else` tag or for the part behind it.
Both parts are templates of their own, as long as no tag crosses their ends, and an `else` tag inside
one of them divides a block of that part and nothing else.

* `Template.derives_choice`, `Template.derives_guarded` — such blocks with and without an `else` tag;
* `Template.branch_renders_side` — they are rendered as the part that the condition chooses.
-/

namespace Stencil
namespace Template

open Grammar (Derives)

section Blocks

variable {condition left : String} {first : Template}

theorem derives_guarded (valid : Argument.Valid condition.toList) :
    parse left = .ok first → Separate ((Tag.test condition).toText ++ left) Tag.close.toText →
      Derives
        (Lexeme.ofText 0 ((Tag.test condition).toText ++ left ++ Tag.close.toText).toList)
        [.guarded (Condition.ofText condition) first.nodes] := by
  intro hleft hend
  have hvalid : (Tag.test condition).Valid := valid
  rcases ofText_block hvalid hend with ⟨start, close, hblock⟩
  rw [hblock]
  exact Derives.guarded (derives_of_parse start hleft) .nil

theorem derives_choice {right : String} {second : Template}
    (valid : Argument.Valid condition.toList) :
    parse left = .ok first → parse right = .ok second →
      Separate ((Tag.test condition).toText ++ left)
        (Tag.otherwise.toText ++ right ++ Tag.close.toText) →
      Separate ((Tag.test condition).toText ++ left ++ Tag.otherwise.toText ++ right)
        Tag.close.toText →
      Derives
        (Lexeme.ofText 0 ((Tag.test condition).toText ++ left ++ Tag.otherwise.toText ++ right ++
          Tag.close.toText).toList)
        [.choice (Condition.ofText condition) first.nodes second.nodes] := by
  intro hleft hright hmiddle hend
  have hvalid : (Tag.test condition).Valid := valid
  -- The `else` tag is read as such in front of the second part alone.
  have hcut : Separate ((Tag.test condition).toText ++ left) (Tag.otherwise.toText ++ right) :=
    hmiddle.cut (by simpa only [String.append_assoc] using hend)
  rcases @ofText_tag_before left _ hvalid with ⟨start, hopening⟩
  rcases ofText_tag_behind Tag.valid_otherwise hcut with ⟨otherwise, secondStart, hbetween⟩
  rcases ofText_close hend with ⟨close, hclose⟩
  rw [hclose, hbetween, hopening]
  exact Derives.choice (derives_of_parse start hleft) (derives_of_parse secondStart hright) .nil

end Blocks

/-- A block under a condition is rendered as its first part where the condition is true, and else as
the part behind its `else` tag or as nothing.  Its tree holds the trees of both parts as they are, so
each block in them keeps its own `else` tag. -/
theorem branch_renders_side {condition left : String} {first : Template}
    (valid : Argument.Valid condition.toList) (parsed : parse left = .ok first) :
    (∀ (right : String) (second : Template), parse right = .ok second →
      Separate ((Tag.test condition).toText ++ left)
        (Tag.otherwise.toText ++ right ++ Tag.close.toText) →
      Separate ((Tag.test condition).toText ++ left ++ Tag.otherwise.toText ++ right)
        Tag.close.toText →
      ∃ template,
        parse ((Tag.test condition).toText ++ left ++ Tag.otherwise.toText ++ right ++
          Tag.close.toText) = .ok template ∧
        template.nodes = [.choice (Condition.ofText condition) first.nodes second.nodes] ∧
        ∀ context, template.render (some context) =
          if (Condition.ofText condition).holds context then first.render (some context)
          else second.render (some context)) ∧
      (Separate ((Tag.test condition).toText ++ left) Tag.close.toText →
        ∃ template,
          parse ((Tag.test condition).toText ++ left ++ Tag.close.toText) = .ok template ∧
          template.nodes = [.guarded (Condition.ofText condition) first.nodes] ∧
          ∀ context, template.render (some context) =
            if (Condition.ofText condition).holds context then first.render (some context)
            else "") := by
  constructor
  · intro right second hright hmiddle hend
    have hderives := derives_choice valid parsed hright hmiddle hend
    refine ⟨_, parse_of_derives hderives, rfl, ?_⟩
    intro context
    simp [render, Node.render]
  · intro hend
    have hderives := derives_guarded valid parsed hend
    refine ⟨_, parse_of_derives hderives, rfl, ?_⟩
    intro context
    simp [render, Node.render]

theorem branch_renders_side_nested :
    let left := (Tag.test "x").toText ++ "1" ++ Tag.otherwise.toText ++ "2" ++ Tag.close.toText
    let right := (Tag.loop "l").toText ++ (Tag.test "y").toText ++ Tag.otherwise.toText ++ "-" ++
      Tag.close.toText ++ Tag.close.toText
    let context : Context := Dict.ofList [("n", .text "2"), ("l", .list [.bool true])]
    (∃ template,
      parse ((Tag.test "n==2").toText ++ left ++ Tag.otherwise.toText ++ right ++
        Tag.close.toText) = .ok template ∧
      template.render (some context) = "2" ∧
      template.render (some (context.erase "n")) = "-") ∧
    ∃ template,
      parse ((Tag.test "n==2").toText ++ left ++ Tag.close.toText) = .ok template ∧
      template.render (some context) = "2" ∧
      template.render (some (context.erase "n")) = "" := by
  intro left right context
  have hleft : parse left =
      .ok ⟨left, [.choice (.truthy "x") [.literal "1"] [.literal "2"]]⟩ := by
    subst left
    with_unfolding_all rfl
  have hright : parse right =
      .ok ⟨right, [.loop "l" [.choice (.truthy "y") [] [.literal "-"]]]⟩ := by
    subst right
    with_unfolding_all rfl
  have hmiddle : Separate ((Tag.test "n==2").toText ++ left)
      (Tag.otherwise.toText ++ right ++ Tag.close.toText) := by
    subst left right
    decide +kernel
  have hend : Separate ((Tag.test "n==2").toText ++ left ++ Tag.otherwise.toText ++ right)
      Tag.close.toText := by
    subst left right
    decide +kernel
  have hplain : Separate ((Tag.test "n==2").toText ++ left) Tag.close.toText := by
    subst left
    decide +kernel
  have hcondition : Argument.Valid "n==2".toList := by decide
  have htrue : (Condition.ofText "n==2").holds context = true := by
    subst context
    decide +kernel
  have hfalse : (Condition.ofText "n==2").holds (context.erase "n") = false := by
    subst context
    decide +kernel
  rcases branch_renders_side hcondition hleft with ⟨hdivided, hguarded⟩
  rcases hdivided right _ hright hmiddle hend with ⟨template, hparse, _, hrender⟩
  rcases hguarded hplain with ⟨guarded, hparseGuarded, _, hrenderGuarded⟩
  refine ⟨⟨template, hparse, ?_, ?_⟩, guarded, hparseGuarded, ?_, ?_⟩
  · rw [hrender, htrue]
    with_unfolding_all rfl
  · rw [hrender, hfalse]
    with_unfolding_all rfl
  · rw [hrenderGuarded, htrue]
    with_unfolding_all rfl
  · rw [hrenderGuarded, hfalse]
    rfl

end Template
end Stencil
