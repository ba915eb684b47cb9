/-!
# Rounding — quotients to integers, and to a binary precision

Magnitudes of binary64 numbers are integers in *units* of `2 ^ -1074`, the least positive magnitude
of the format.  Rounding a quotient of units to a precision keeps a limited number of leading binary
digits; the rest is rounded to the nearest multiple, a half going to the even one.

* `Tie`, `roundQuotient` — the nearest integer to a quotient, with a rule for halves;
* `Precision`, `roundUnits` — the nearest magnitude of a precision;
* `Representable` — the magnitudes of binary64; `representable_roundUnits` says that rounding ends
  there as long as it does not overflow.
-/

namespace Stencil
namespace Number

-- Powers of natural numbers are the core library's own, whatever algebra is in scope.
attribute [local instance (high)] instPowNat

/-! ## The nearest integer -/

/-- Where a quotient halfway between two integers goes. -/
inductive Tie where
  | even
  | up
  deriving DecidableEq, Repr

/-- The integer nearest to `num / den`, a half going as the rule says. -/
def roundQuotient (tie : Tie) (num den : Nat) : Nat :=
  let low := num / den
  let twice := 2 * (num % den)
  if twice < den ∨ twice = den ∧ tie = .even ∧ low % 2 = 0 then low else low + 1

/-- A quotient that is at most an integer is rounded to at most that integer. -/
theorem roundQuotient_le {tie : Tie} {num den bound : Nat} (positive : 0 < den)
    (h : num ≤ bound * den) : roundQuotient tie num den ≤ bound := by
  have low_le : num / den ≤ bound := Nat.div_le_of_le_mul (by rwa [Nat.mul_comm])
  simp only [roundQuotient]
  split
  · exact low_le
  · rename_i up
    rcases Nat.lt_or_eq_of_le low_le with less | same
    · exact less
    · -- A quotient that is the bound itself leaves no remainder, so it is not rounded up.
      have whole : num % den = 0 := by
        have := Nat.div_add_mod num den
        have : den * bound = bound * den := Nat.mul_comm ..
        rw [same] at *
        omega
      exact absurd (.inl (by omega)) up

/-! ## Precisions -/

/-- A binary precision: the count of leading binary digits kept, the binary logarithm of its least
step in units, and the binary logarithm in units of the first magnitude that overflows. -/
structure Precision where
  digits : Nat
  step : Nat
  overflow : Nat
  digits_le : digits ≤ 53 := by decide
  overflow_le : overflow ≤ 2098 := by decide

/-- The precision of binary64. -/
def Precision.double : Precision where
  digits := 53
  step := 0
  overflow := 2098

/-- The precision of binary32. -/
def Precision.single : Precision where
  digits := 24
  step := 925
  overflow := 1202

/-- How many binary digits of a quotient of units fall below the precision. -/
def Precision.shift (precision : Precision) (num den : Nat) : Nat :=
  max precision.step ((num / den).log2 + 1 - precision.digits)

/-- The magnitude of the precision that is nearest to `num / den` units, a half going to the even
neighbour; overflow is not yet considered. -/
def roundUnits (precision : Precision) (num den : Nat) : Nat :=
  let shift := precision.shift num den
  roundQuotient .even num (den * 2 ^ shift) * 2 ^ shift

/-- The rounded quotient has no more digits than the precision keeps. -/
theorem roundQuotient_shift_le (precision : Precision) (num den : Nat) :
    roundQuotient .even num (den * 2 ^ precision.shift num den) ≤ 2 ^ precision.digits := by
  have one_le := Nat.one_le_two_pow (n := precision.digits)
  rcases Nat.eq_zero_or_pos den with rfl | positive
  · simp only [Nat.zero_mul, roundQuotient, Nat.div_zero, Nat.mod_zero]
    split <;> omega
  · have positive' : 0 < den * 2 ^ precision.shift num den :=
      Nat.mul_pos positive Nat.one_le_two_pow
    refine roundQuotient_le positive' ?_
    -- The quotient is below a power of two, whose exponent the shift makes up for.
    have below : num < (num / den + 1) * den := by
      have := Nat.div_add_mod num den
      have := Nat.mod_lt num positive
      rw [Nat.succ_mul, Nat.mul_comm]
      omega
    have fits : num / den + 1 ≤ 2 ^ (precision.digits + precision.shift num den) := by
      refine Nat.le_trans (Nat.lt_log2_self (n := num / den)) ?_
      exact Nat.pow_le_pow_right (by decide) (by simp only [Precision.shift]; omega)
    calc
      num ≤ (num / den + 1) * den := Nat.le_of_lt below
      _ ≤ 2 ^ (precision.digits + precision.shift num den) * den := Nat.mul_le_mul_right _ fits
      _ = 2 ^ precision.digits * (den * 2 ^ precision.shift num den) := by
          rw [Nat.pow_add, Nat.mul_assoc, Nat.mul_comm (2 ^ _) den]

/-! ## The magnitudes of binary64 -/

/-- A magnitude of binary64: below the overflow, with nothing behind its first 53 binary digits. -/
def Representable (units : Nat) : Prop :=
  units.log2 < 2098 ∧ 2 ^ (units.log2 - 52) ∣ units

instance (units : Nat) : Decidable (Representable units) :=
  inferInstanceAs (Decidable (_ ∧ _))

theorem representable_zero : Representable 0 := ⟨by decide, by decide⟩

/-- At most 53 binary digits, shifted, are a magnitude of binary64 unless they overflow. -/
theorem representable_mul_pow {digits shift : Nat} (few : digits ≤ 2 ^ Precision.double.digits)
    (small : (digits * 2 ^ shift).log2 < 2098) : Representable (digits * 2 ^ shift) := by
  refine ⟨small, ?_⟩
  -- Digits that do not all fit are the bound itself, so the product is a power of two.
  rcases Nat.lt_or_ge shift ((digits * 2 ^ shift).log2 - 52) with large | fits
  · have nonzero : digits * 2 ^ shift ≠ 0 := by
      intro zero
      rw [zero] at large
      simp at large
    have lower : 2 ^ (Precision.double.digits + shift) ≤ digits * 2 ^ shift :=
      (Nat.le_log2 nonzero).1 (by simp only [Precision.double]; omega)
    rw [Nat.pow_add] at lower
    have same : digits = 2 ^ Precision.double.digits :=
      Nat.le_antisymm few (Nat.le_of_mul_le_mul_right lower (Nat.two_pow_pos shift))
    rw [same, ← Nat.pow_add, Nat.log2_two_pow]
    exact Nat.pow_dvd_pow 2 (by omega)
  · exact Nat.dvd_trans (Nat.pow_dvd_pow 2 fits) (Nat.dvd_mul_left ..)

/-- What is rounded to a precision is a magnitude of binary64 unless it overflows. -/
theorem representable_roundUnits {precision : Precision} {num den : Nat}
    (small : (roundUnits precision num den).log2 < precision.overflow) :
    Representable (roundUnits precision num den) :=
  representable_mul_pow
    (Nat.le_trans (roundQuotient_shift_le precision num den)
      (Nat.pow_le_pow_right (by decide) precision.digits_le))
    (Nat.lt_of_lt_of_le small precision.overflow_le)

end Number
end Stencil
