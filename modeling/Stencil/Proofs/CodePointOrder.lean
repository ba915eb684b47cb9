import Mathlib.Order.Defs.Unbundled
import Stencil.Proofs.LooseOrder

/-!
# Code points in order — the order of texts, told by their characters

Texts are ordered by their units.  The units of a character above `U+FFFF` are surrogates, which lie
between the characters up to `U+D7FF` and those from `U+E000` on.  So the order of texts is one of
characters too, if the characters are taken in three blocks.

* `Text.CharBefore`, `Text.Before` — the order of characters block by block, and that of texts;
* `Text.compareUnits_eq_lt_iff` — the order of units is that of characters;
* `Comparison.less_text` — so comparisons of texts are a strict total order that agrees with their
  equality.
-/

namespace Stencil
namespace Text

/-- The block of a character: the characters below the surrogates come first, then those that are
written with a pair of them, then the others. -/
def blockOf (c : Char) : Nat :=
  if c.toNat ≤ 0xD7FF then 0 else if 0x10000 ≤ c.toNat then 1 else 2

/-- A character stands in an earlier block than another one, or before it in the same block. -/
def CharBefore (c d : Char) : Prop :=
  blockOf c < blockOf d ∨ blockOf c = blockOf d ∧ c.toNat < d.toNat

/-- A text is a proper initial part of another one, or has the earlier character at the first place
where they differ. -/
def Before (left right : List Char) : Prop :=
  (left <+: right ∧ left ≠ right) ∨
    ∃ shared c d leftRest rightRest, left = shared ++ c :: leftRest ∧
      right = shared ++ d :: rightRest ∧ c ≠ d ∧ CharBefore c d

/-! ## Characters -/

theorem blockOf_cases (c : Char) :
    c.toNat ≤ 0xD7FF ∧ blockOf c = 0 ∨ (0x10000 ≤ c.toNat ∧ c.toNat < 0x110000) ∧ blockOf c = 1 ∨
      (0xE000 ≤ c.toNat ∧ c.toNat < 0x10000) ∧ blockOf c = 2 := by
  have hvalid := toNat_not_surrogate c
  unfold blockOf
  grind

theorem CharBefore.ne {c d : Char} : CharBefore c d → c ≠ d := by
  rintro h rfl
  unfold CharBefore at h
  omega

/-- The first units of two sequences settle which one comes first, unless they belong to the same
character. -/
theorem compareLex_unitsOfChar {c d : Char} {left right : List Nat} :
    List.compareLex compare (unitsOfChar c ++ left) (unitsOfChar d ++ right) = .lt ↔
      CharBefore c d ∨ c = d ∧ List.compareLex compare left right = .lt := by
  have hc := blockOf_cases c
  have hd := blockOf_cases d
  rw [← Char.toNat_inj, CharBefore]
  unfold unitsOfChar
  -- Each character is one unit or a pair of surrogates, from which its number can be told.
  split <;> split <;>
    simp only [List.cons_append, List.nil_append, List.compareLex_cons_cons, Ordering.then_eq_lt,
      Nat.compare_eq_lt, Nat.compare_eq_eq] <;>
    by_cases hrest : List.compareLex compare left right = .lt <;>
    simp only [hrest, and_true, and_false, or_false] <;> omega

/-! ## Texts -/

theorem not_before_nil (left : List Char) : ¬ Before left [] := by
  rintro (⟨hinitial, hne⟩ | ⟨shared, c, d, leftRest, rightRest, -, hright, -⟩)
  · exact hne (List.prefix_nil.1 hinitial)
  · simp at hright

theorem before_nil_cons (d : Char) (right : List Char) : Before [] (d :: right) :=
  .inl ⟨List.nil_prefix, by simp⟩

theorem before_cons_iff {c d : Char} {left right : List Char} :
    Before (c :: left) (d :: right) ↔ CharBefore c d ∨ c = d ∧ Before left right := by
  constructor
  · rintro (⟨hinitial, hne⟩ | ⟨shared, x, y, leftRest, rightRest, hleft, hright, hdiffer, hbefore⟩)
    · rcases List.cons_prefix_cons.1 hinitial with ⟨rfl, hrest⟩
      exact .inr ⟨rfl, .inl ⟨hrest, by simpa using hne⟩⟩
    · cases shared with
      | nil =>
          cases hleft
          cases hright
          exact .inl hbefore
      | cons z shared =>
          cases hleft
          cases hright
          exact .inr ⟨rfl, .inr ⟨shared, x, y, leftRest, rightRest, rfl, rfl, hdiffer, hbefore⟩⟩
  · rintro (hbefore | ⟨rfl, hbefore⟩)
    · exact .inr ⟨[], c, d, left, right, rfl, rfl, hbefore.ne, hbefore⟩
    · rcases hbefore with ⟨hinitial, hne⟩ | ⟨shared, x, y, leftRest, rightRest, rfl, rfl, hlater⟩
      · exact .inl ⟨List.cons_prefix_cons.2 ⟨rfl, hinitial⟩, by simpa using hne⟩
      · exact .inr ⟨c :: shared, x, y, leftRest, rightRest, rfl, rfl, hlater⟩

/-- The order of units is that of characters. -/
theorem compareUnits_eq_lt_iff {left right : String} :
    compareUnits left right = .lt ↔ Before left.toList right.toList := by
  unfold compareUnits units
  -- By induction on the one text, with the other one cut at the same place.
  generalize left.toList = front
  generalize right.toList = back
  induction front generalizing back with
  | nil =>
      cases back with
      | nil =>
          simp [not_before_nil, List.compareLex_nil_nil]
      | cons d back =>
          have hunits : (d :: back).flatMap unitsOfChar ≠ [] := by simp [unitsOfChar_ne_nil]
          rcases List.exists_cons_of_ne_nil hunits with ⟨unit, rest, hcons⟩
          rw [hcons]
          exact iff_of_true rfl (before_nil_cons d back)
  | cons c front ih =>
      cases back with
      | nil =>
          refine iff_of_false ?_ (not_before_nil _)
          cases hfront : (c :: front).flatMap unitsOfChar <;>
            simp [List.compareLex_nil_nil, List.compareLex_cons_nil]
      | cons d back =>
          rw [List.flatMap_cons, List.flatMap_cons, compareLex_unitsOfChar, ih, before_cons_iff]

end Text

/-! ## Comparisons of texts -/

namespace Comparison

open Text (Before)

theorem less_text_iff {left right : String} :
    less.holds (.text left) (.text right) ↔ Text.compareUnits left right = .lt := by
  simp [holds, Operand.looseOrder]

theorem greater_text_iff {left right : String} :
    greater.holds (.text left) (.text right) ↔ Text.compareUnits right left = .lt := by
  rw [← less_text_iff]
  exact (lawful (.text right) (.text left)).less_iff_greater.symm

theorem eq_iff_not_less_text {left right : String} :
    (¬ less.holds (.text left) (.text right) ∧ ¬ greater.holds (.text left) (.text right)) ↔
      left = right := by
  have hswap : Text.compareUnits right left = (Text.compareUnits left right).swap :=
    Std.OrientedCmp.eq_swap
  have hequal : Text.compareUnits left right = .eq ↔ left = right :=
    Std.LawfulEqCmp.compare_eq_iff_eq
  rw [less_text_iff, greater_text_iff, hswap, ← hequal]
  cases Text.compareUnits left right <;> decide

/-- Comparisons order all texts strictly and totally, and agree with their equality.  A text is less
than another one if it is a proper initial part of it, or if it has, at the first place where they
differ, the character of the earlier block or the lesser one of the same block. -/
theorem less_text :
    IsStrictTotalOrder String (fun left right => less.holds (.text left) (.text right)) ∧
    ∀ left right : String,
      (less.holds (.text left) (.text right) ↔ Before left.toList right.toList) ∧
      (greater.holds (.text left) (.text right) ↔ Before right.toList left.toList) ∧
      (¬ less.holds (.text left) (.text right) ∧ ¬ greater.holds (.text left) (.text right) ↔
        left = right) ∧
      (equal.holds (.text left) (.text right) ↔ left = right) := by
  have hless : (fun left right => less.holds (.text left) (.text right) = true) =
      fun left right => Text.compareUnits left right = .lt := by
    funext left right
    exact propext less_text_iff
  refine ⟨?_, fun left right => ⟨?_, ?_, eq_iff_not_less_text, ?_⟩⟩
  · rw [hless]
    exact {
      trichotomous := by
        intro left right hless hgreater
        refine eq_iff_not_less_text.1 ⟨?_, ?_⟩
        · rwa [less_text_iff]
        · rwa [greater_text_iff]
      irrefl := by
        intro text
        have hself : Text.compareUnits text text = .eq := Std.ReflCmp.compare_self
        rw [hself]
        decide
      trans := fun _ _ _ => Std.TransCmp.lt_trans }
  · rw [less_text_iff, Text.compareUnits_eq_lt_iff]
  · rw [greater_text_iff, Text.compareUnits_eq_lt_iff]
  · simp [holds, Operand.looselyEquals]

end Comparison
end Stencil
