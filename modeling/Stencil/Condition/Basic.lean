import Stencil.Condition.Comparison
import Stencil.Text.Lead

/-!
# Conditions — what an `if` tag tests

A condition is a key whose value is tested for truth, or a comparison.  Its text is split at the
rightmost relation symbol that leaves something on both sides.

* `Condition.ofText`, `Condition.toText` — between a condition and its text;
* `Condition.holds` — whether it is true in a context.
-/

namespace Stencil

/-- What an `if` tag tests. -/
inductive Condition where
  | truthy (key : String)
  | compare (left : String) (comparison : Comparison) (right : String)
  deriving DecidableEq, Repr

namespace Condition

/-- The first relation whose symbol stands at the head of a text and leaves something behind it. -/
def relationAt? (text : List Char) : Option (Comparison × List Char) :=
  Comparison.inOrder.findSome? fun comparison =>
    match Text.behind? comparison.symbol.toList text with
    -- A relation without a right side is no relation.
    | none | some [] => none
    | some right => some (comparison, right)

/-- The rightmost place of a text where a relation stands: the text before it, the relation, and the
text behind it. -/
def lastRelation? : List Char → Option (List Char × Comparison × List Char)
  | [] => none
  | c :: text =>
      match lastRelation? text with
      | some (left, comparison, right) => some (c :: left, comparison, right)
      | none => (relationAt? (c :: text)).map fun (comparison, right) => ([], comparison, right)

/-- The condition with a text. -/
def ofText (text : String) : Condition :=
  match text.toList with
  | [] => truthy text
  | first :: rest =>
      -- The left side is never empty, so the search starts behind the first character.
      match lastRelation? rest with
      | some (left, comparison, right) =>
          compare (String.ofList (first :: left)) comparison (String.ofList right)
      | none => truthy text

/-- The text of a condition. -/
def toText : Condition → String
  | truthy key => key
  | compare left comparison right => left ++ comparison.symbol ++ right

/-- Whether a condition is true in a context; a key without a value is not. -/
def holds (context : Context) : Condition → Bool
  | truthy key => (context.get? key).any Value.isTruthy
  | compare left comparison right =>
      comparison.holds (Operand.ofSide context left) (Operand.ofSide context right)

example : ofText "a>=b" = compare "a" .greaterOrEqual "b" := by decide +kernel
example : ofText "a==b==c" = compare "a==b" .equal "c" := by decide +kernel
example : ofText "==b" = truthy "==b" := by decide +kernel

/-! ## Every condition gives its text back -/

theorem eq_of_relationAt? {text right : List Char} {comparison : Comparison}
    (h : relationAt? text = some (comparison, right)) :
    text = comparison.symbol.toList ++ right ∧ right ≠ [] := by
  obtain ⟨tried, _, hit⟩ := List.exists_of_findSome?_eq_some h
  split at hit
  · cases hit
  · cases hit
  · rename_i nonempty behind
    cases hit
    exact ⟨Text.behind?_eq_some_iff.1 behind, nonempty⟩

theorem eq_of_lastRelation? {text left right : List Char} {comparison : Comparison}
    (h : lastRelation? text = some (left, comparison, right)) :
    text = left ++ comparison.symbol.toList ++ right ∧ right ≠ [] := by
  induction text generalizing left with
  | nil => cases h
  | cons c text ih =>
      simp only [lastRelation?] at h
      split at h
      · rename_i left' _ _ later
        cases h
        obtain ⟨same, nonempty⟩ := ih later
        exact ⟨by simp [same], nonempty⟩
      · obtain ⟨⟨found, behind⟩, here, same⟩ := Option.map_eq_some_iff.1 h
        cases same
        simpa using eq_of_relationAt? here

/-- A condition read from a text has that text. -/
theorem toText_ofText (text : String) : (ofText text).toText = text := by
  apply String.toList_injective
  unfold ofText
  split
  · rfl
  · rename_i first rest whole
    split
    · rename_i left comparison right split
      simp [toText, whole, (eq_of_lastRelation? split).1]
    · rfl

end Condition
end Stencil
