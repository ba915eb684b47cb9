import Stencil.Condition.Comparison
import Stencil.Proofs.UnitOrder

/-!
# Loose order — the laws of comparisons

Equality and order of operands are two functions with their own cases: null is set apart in the one
only, and two texts are compared by their units in the other only.  Still they fit together, up to
two exceptions that are part of the laws: null equals nothing else but is ordered as zero, and
not-a-number has no place in the order.

* `Number.partialCompare_swap`, `Number.partialCompare_eq_none_iff` — the order of the number line;
* `Operand.Incomparable`, `Operand.looseOrder_eq_none_iff` — the operands that have no order;
* `Operand.looselyEquals_iff` — equal operands are those that the order does not tell apart, if null
  does not stand alone;
* `Comparison.Lawful`, `Comparison.holds_lawful` — the laws, and that all operands keep them.
-/

namespace Stencil

/-! ## The number line -/

namespace Number

theorem partialCompare_swap (left right : Number) :
    right.partialCompare left = (left.partialCompare right).map Ordering.swap := by
  unfold partialCompare
  cases left.place? with
  | none =>
      cases right.place? <;> rfl
  | some first =>
      cases right.place? with
      | none =>
          rfl
      | some second =>
          have houter : compare second.1 first.1 = (compare first.1 second.1).swap :=
            Std.OrientedCmp.eq_swap
          have hinner : compare second.2 first.2 = (compare first.2 second.2).swap :=
            Std.OrientedCmp.eq_swap
          simp [houter, hinner, Ordering.swap_then]

/-- Not-a-number has no order, and everything else has one. -/
theorem partialCompare_eq_none_iff {left right : Number} :
    left.partialCompare right = none ↔ left = nan ∨ right = nan := by
  cases left <;> cases right <;> simp [partialCompare, place?]

theorem equals_self (number : Number) : number.equals number = !number.isNan := by
  cases number with
  | nan =>
      rfl
  | infinite negative =>
      cases negative <;> rfl
  | finite negative units representable =>
      simp [equals, partialCompare, place?, isNan]

theorem equals_self_iff {number : Number} : number.equals number ↔ number ≠ nan := by
  cases number <;> simp [equals_self, isNan]

end Number

/-! ## Operands -/

namespace Operand

/-- Operands that are compared as numbers although one of them is none. -/
def Incomparable (left right : Operand) : Prop :=
  ¬ ((∃ text, left = .text text) ∧ ∃ text, right = .text text) ∧
    (left.toNumber = .nan ∨ right.toNumber = .nan)

/-- The operand that the order takes in place of null. -/
def orZero : Operand → Operand
  | null => number (Number.zero false)
  | bool value => bool value
  | number value => number value
  | text value => text value

theorem looseOrder_swap (left right : Operand) :
    right.looseOrder left = (left.looseOrder right).map Ordering.swap := by
  cases left with
  | text first =>
      cases right with
      | text second =>
          have h : Text.compareUnits second first = (Text.compareUnits first second).swap :=
            Std.OrientedCmp.eq_swap
          simp [looseOrder, h]
      | null | bool value | number value =>
          exact Number.partialCompare_swap _ _
  | null | bool value | number value =>
      cases right <;> exact Number.partialCompare_swap _ _

theorem looseOrder_eq_none_iff {left right : Operand} :
    left.looseOrder right = none ↔ Incomparable left right := by
  cases left <;> cases right <;>
    simp [looseOrder, Incomparable, Number.partialCompare_eq_none_iff]

theorem looseOrder_orZero (left right : Operand) :
    left.orZero.looseOrder right.orZero = left.looseOrder right := by
  cases left <;> cases right <;> rfl

/-- Operands are equal exactly when the order does not tell them apart, unless one alone is null. -/
theorem looselyEquals_iff {left right : Operand} :
    (left = null ↔ right = null) →
      (left.looselyEquals right ↔ left.looseOrder right = some .eq) := by
  intro h
  cases left with
  | null =>
      rw [h.1 rfl]
      decide
  | text first =>
      cases right with
      | null =>
          cases h.2 rfl
      | text second =>
          simp [looselyEquals, looseOrder, Std.LawfulEqCmp.compare_eq_iff_eq]
      | bool value | number value =>
          exact decide_eq_true_iff
  | bool value | number value =>
      cases right with
      | null =>
          cases h.2 rfl
      | text second | bool second | number second =>
          exact decide_eq_true_iff

theorem not_looselyEquals_of_null {left right : Operand} :
    ¬ (left = null ↔ right = null) → left.looselyEquals right = false := by
  intro h
  cases left <;> cases right <;> simp [looselyEquals] at h ⊢

theorem looseOrder_eq_some_swap_iff (left right : Operand) (order : Ordering) :
    right.looseOrder left = some order.swap ↔ left.looseOrder right = some order := by
  rw [looseOrder_swap]
  cases left.looseOrder right with
  | none =>
      simp
  | some other =>
      cases other <;> cases order <;> decide

theorem looselyEquals_comm (left right : Operand) :
    left.looselyEquals right = right.looselyEquals left := by
  by_cases h : left = null ↔ right = null
  · rw [Bool.eq_iff_iff, looselyEquals_iff h, looselyEquals_iff h.symm]
    exact (looseOrder_eq_some_swap_iff left right .eq).symm
  · rw [not_looselyEquals_of_null h, not_looselyEquals_of_null fun h' => h h'.symm]

theorem looselyEquals_self_iff {operand : Operand} :
    operand.looselyEquals operand ↔ operand ≠ number .nan := by
  cases operand with
  | null | text value =>
      simp [looselyEquals]
  | bool value =>
      exact iff_of_true (Number.equals_self_iff.2 (Number.ofNat_ne_nan value.toNat)) (by simp)
  | number value =>
      exact Number.equals_self_iff.trans (by simp [toNumber])

theorem ofSide_eq_nan_iff {context : Context} {side : String} :
    ofSide context side = number .nan ↔ context.get? side = some (.number .nan) := by
  cases hvalue : context.get? side with
  | none =>
      simp [ofSide, hvalue]
  | some value =>
      cases value <;> simp [ofSide, hvalue, ofValue]

/-- A side of a comparison equals itself, unless it names not-a-number. -/
theorem looselyEquals_ofSide_self (context : Context) (side : String) :
    (ofSide context side).looselyEquals (ofSide context side) ↔
      context.get? side ≠ some (.number .nan) :=
  looselyEquals_self_iff.trans (not_congr ofSide_eq_nan_iff)

end Operand

/-! ## The laws of comparisons -/

namespace Comparison

open Operand (Incomparable ofSide orZero)

/-- The laws that comparisons of two operands keep. -/
structure Lawful (left right : Operand) : Prop where
  different_iff : different.holds left right ↔ ¬ equal.holds left right
  equal_comm : equal.holds left right ↔ equal.holds right left
  less_iff_greater : less.holds left right ↔ greater.holds right left
  lessOrEqual_iff_greaterOrEqual : lessOrEqual.holds left right ↔ greaterOrEqual.holds right left
  asymm : ¬ (less.holds left right ∧ greater.holds left right)
  lessOrEqual_iff : lessOrEqual.holds left right ↔
    less.holds left right ∨ lessOrEqual.holds left right ∧ greaterOrEqual.holds left right
  equal_iff : (left = .null ↔ right = .null) →
    (equal.holds left right ↔ lessOrEqual.holds left right ∧ greaterOrEqual.holds left right)
  not_equal_of_null : ¬ (left = .null ↔ right = .null) → ¬ equal.holds left right
  null_as_zero : ∀ relation, relation ≠ equal → relation ≠ different →
    (relation.holds left right ↔ relation.holds left.orZero right.orZero)
  total : ¬ Incomparable left right →
    less.holds left right ∨ greater.holds left right ∨
      lessOrEqual.holds left right ∧ greaterOrEqual.holds left right
  incomparable : Incomparable left right → ∀ relation, relation ≠ different →
    ¬ relation.holds left right

/-- What a relation says, told from what is known of the order. -/
theorem holds_iff (left right : Operand) :
    (less.holds left right ↔ left.looseOrder right = some .lt) ∧
      (greater.holds left right ↔ left.looseOrder right = some .gt) ∧
      (lessOrEqual.holds left right ↔
        left.looseOrder right = some .lt ∨ left.looseOrder right = some .eq) ∧
      (greaterOrEqual.holds left right ↔
        left.looseOrder right = some .gt ∨ left.looseOrder right = some .eq) := by
  cases horder : left.looseOrder right with
  | none =>
      simp [holds, horder]
  | some order =>
      cases order <;> simp [holds, horder]

theorem holds_orZero {relation : Comparison} (left right : Operand) :
    relation ≠ equal → relation ≠ different →
      (relation.holds left right ↔ relation.holds left.orZero right.orZero) := by
  intro hequal hdifferent
  cases relation with
  | equal =>
      exact absurd rfl hequal
  | different =>
      exact absurd rfl hdifferent
  | greater | less | greaterOrEqual | lessOrEqual =>
      simp [holds, Operand.looseOrder_orZero]

theorem not_holds_of_incomparable {left right : Operand} {relation : Comparison} :
    Incomparable left right → relation ≠ different → ¬ relation.holds left right := by
  intro h hdifferent
  have hnone := Operand.looseOrder_eq_none_iff.2 h
  cases relation with
  | different =>
      exact absurd rfl hdifferent
  | equal =>
      intro hequal
      by_cases hnull : left = .null ↔ right = .null
      · simp [(Operand.looselyEquals_iff hnull).1 hequal] at hnone
      · simp [holds, Operand.not_looselyEquals_of_null hnull] at hequal
  | greater | less | greaterOrEqual | lessOrEqual =>
      simp [holds, hnone]

theorem lawful (left right : Operand) : Lawful left right := by
  rcases holds_iff left right with ⟨hless, hgreater, hlessOrEqual, hgreaterOrEqual⟩
  rcases holds_iff right left with ⟨-, hgreater', -, hgreaterOrEqual'⟩
  -- From the other side the order is the opposite one.
  have hlt := Operand.looseOrder_eq_some_swap_iff left right .lt
  have heq := Operand.looseOrder_eq_some_swap_iff left right .eq
  rw [Ordering.swap_lt] at hlt
  rw [Ordering.swap_eq] at heq
  constructor
  case different_iff =>
      simp [holds]
  case equal_comm =>
      simp [holds, Operand.looselyEquals_comm]
  case less_iff_greater =>
      rw [hless, hgreater', hlt]
  case lessOrEqual_iff_greaterOrEqual =>
      rw [hlessOrEqual, hgreaterOrEqual', hlt, heq]
  case asymm =>
      rw [hless, hgreater]
      rintro ⟨hfirst, hsecond⟩
      simp [hfirst] at hsecond
  case lessOrEqual_iff =>
      rw [hless, hlessOrEqual, hgreaterOrEqual]
      grind
  case equal_iff =>
      intro h
      rw [hlessOrEqual, hgreaterOrEqual, holds, Operand.looselyEquals_iff h]
      grind
  case not_equal_of_null =>
      intro h
      simp [holds, Operand.not_looselyEquals_of_null h]
  case null_as_zero =>
      exact fun relation => holds_orZero left right
  case total =>
      intro h
      rw [hless, hgreater, hlessOrEqual, hgreaterOrEqual]
      cases horder : left.looseOrder right with
      | none =>
          exact absurd (Operand.looseOrder_eq_none_iff.1 horder) h
      | some order =>
          cases order <;> simp
  case incomparable =>
      exact fun h relation => not_holds_of_incomparable h

/-- All operands keep the laws of comparisons, and what a side of a comparison stands for equals
itself, unless it is not-a-number. -/
theorem holds_lawful :
    (∀ left right : Operand, Lawful left right) ∧
      ∀ (context : Context) (side : String),
        equal.holds (ofSide context side) (ofSide context side) ↔
          context.get? side ≠ some (.number .nan) :=
  ⟨lawful, Operand.looselyEquals_ofSide_self⟩

example : lessOrEqual.holds .null (.number (Number.zero true)) ∧
    ¬ equal.holds .null (.number (Number.zero true)) := by
  decide

end Comparison
end Stencil
