/-!
# Leads — what a text starts with

`Text.behind? lead text` is the text behind a lead, if the text starts with it.
-/

namespace Stencil
namespace Text

/-- The text behind `lead`, if the text starts with it. -/
def behind? : (lead text : List Char) → Option (List Char)
  | [], text => some text
  | _ :: _, [] => none
  | l :: lead, c :: text => if l = c then behind? lead text else none

/-- A text starts with a lead exactly when it is the lead with something behind it. -/
theorem behind?_eq_some_iff {lead text rest : List Char} :
    behind? lead text = some rest ↔ text = lead ++ rest := by
  fun_induction behind? lead text with
  | case1 text => simp
  | case2 => simp
  | case3 lead c text ih => simp [ih]
  | case4 l lead c text other =>
      simp only [List.cons_append, List.cons.injEq, reduceCtorEq, false_iff]
      exact fun same => other same.1.symm

end Text
end Stencil
