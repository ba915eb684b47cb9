import Stencil.Proofs.Significant
import Stencil.Value.Basic

/-!
# Integers — whole numbers are written in whole

An integer becomes the nearest number, and that number is written with the fewest digits that read
back.  Up to `2 ^ 53` both steps lose nothing, so the text is the numeral of the integer.  Beyond that
the number is whole all the same, and as far as 64 bits go its text has neither a fraction nor an
exponent: zeros stand in the place of the digits that are left out.

* `Number.ofDecimal_signed` — an integer has the same nearest number as the decimal that it is;
* `Number.roundUnits_whole` — an integer is rounded to an integer, and to itself up to `2 ^ 53`;
* `Number.exists_whole_shortest` — the search for the shortest decimal of an integer ends at tenths at
  the latest, so the decimal is whole;
* `Layout.write_whole` — a whole decimal with few digits is written as a numeral;
* `Value.toText_toValue` — the text of an integer.
-/

namespace Stencil

/-! ## The number nearest to an integer -/

namespace Number

-- Powers of natural numbers are the core library's own, whatever algebra is in scope.
attribute [local instance (high)] instPowNat

theorem ofInt_zero : ofInt 0 = zero false := by
  have hround : roundUnits .double 0 1 = 0 := roundUnits_eq_zero (by decide)
  have hsmall : 0 < Precision.double.overflow := by decide
  simp [ofInt, ofRatio, hround, hsmall, zero]

/-- An integer of 64 bits is not too large for a number. -/
theorem exists_ofInt_eq_finite {value : Int} :
    value.natAbs ≤ UInt64.size →
      ∃ representable, ofInt value =
        finite (value < 0) (roundUnits .double (value.natAbs * unitsPerOne) 1) representable := by
  intro h
  have hsize : UInt64.size = 2 ^ 64 := by decide
  have hnum : value.natAbs * unitsPerOne ≤ 2 ^ (64 + scale) * 1 := by
    rw [Nat.mul_one, Nat.pow_add, ← hsize, unitsPerOne]
    exact Nat.mul_le_mul_right _ h
  have hround := roundUnits_le_two_pow (by decide : 0 < 1) hnum
  have hlog : (roundUnits .double (value.natAbs * unitsPerOne) 1).log2 <
      Precision.double.overflow := by
    by_cases hzero : roundUnits .double (value.natAbs * unitsPerOne) 1 = 0
    · rw [hzero]
      decide
    · have hexponent : 64 + scale < Precision.double.overflow := by decide
      exact (Nat.log2_lt hzero).2
        (Nat.lt_of_le_of_lt hround (Nat.pow_lt_pow_right (by decide) hexponent))
  exact ⟨representable_roundUnits hlog, dif_pos hlog⟩

end Number

/-! ## Numerals of whole decimals -/

namespace Digits

attribute [local instance (high)] instPowNat

/-- A number gets zeros behind its digits when it is multiplied by powers of ten. -/
theorem ofNat_mul_pow {number : Nat} (positive : 0 < number) (count : Nat) :
    ofNat (number * 10 ^ count) = ofNat number ++ List.replicate count '0' := by
  induction count with
  | zero => simp
  | succ count ih =>
      have hpositive : 0 < number * 10 ^ count := Nat.mul_pos positive (Nat.pow_pos (by decide))
      calc
        ofNat (number * 10 ^ (count + 1)) = ofNat (10 * (number * 10 ^ count) + 0) := by
            rw [Nat.pow_succ, ← Nat.mul_assoc, Nat.mul_comm _ 10, Nat.add_zero]
        _ = ofNat (number * 10 ^ count) ++ ['0'] :=
            (Nat.toDigits_append_toDigits (by decide) hpositive (by decide)).symm
        _ = ofNat number ++ List.replicate (count + 1) '0' := by
            rw [ih, List.append_assoc, ← List.replicate_succ']

/-- A number below a power of ten has no more digits than the power has zeros. -/
theorem length_ofNat_le {number count : Nat} (few : 0 < count) :
    number < 10 ^ count → (ofNat number).length ≤ count :=
  (Nat.length_toDigits_le_iff (by decide) few).2

end Digits

namespace Layout

attribute [local instance (high)] instPowNat

/-- A whole decimal with at most 21 digits is written as the numeral of an integer. -/
theorem write_whole {decimal : Decimal} {magnitude : Nat} (whole : 0 ≤ decimal.exponent)
    (positive : 0 < decimal.coefficient)
    (amount : decimal.coefficient * 10 ^ decimal.exponent.toNat = magnitude) :
    magnitude < 10 ^ (21 : Nat) →
      Number.textLayout.write decimal =
        if decimal.negative then '-' :: Digits.ofNat magnitude else Digits.ofNat magnitude := by
  intro hfew
  rcases decimal with ⟨negative, coefficient, exponent⟩
  obtain ⟨zeros, rfl⟩ := Int.eq_ofNat_of_zero_le whole
  have hnumeral : Digits.ofNat magnitude =
      Digits.ofNat coefficient ++ List.replicate zeros '0' := by
    rw [← amount]
    exact Digits.ofNat_mul_pow positive zeros
  have hlength := Digits.length_ofNat_le (by decide) hfew
  rw [hnumeral, List.length_append, List.length_replicate] at hlength
  -- So the point stands behind all digits, and not too far to be written out.
  have hdigits : 0 < (Digits.ofNat coefficient).length := Nat.length_toDigits_pos
  have hrange : Number.textLayout.leastPoint ≤ ((Digits.ofNat coefficient).length : Int) + zeros ∧
      ((Digits.ofNat coefficient).length : Int) + zeros ≤ Number.textLayout.greatestPoint := by
    simp only [Number.textLayout]
    omega
  have hpositional : Number.textLayout.writePositional (Digits.ofNat coefficient)
      ((Digits.ofNat coefficient).length + zeros) = Digits.ofNat magnitude := by
    have hzeros : (((Digits.ofNat coefficient).length : Int) + zeros).toNat -
        (Digits.ofNat coefficient).length = zeros := by
      omega
    rw [writePositional, if_neg (by omega), if_pos (by omega), hzeros, hnumeral]
    exact List.append_nil _
  simp only [write]
  rw [if_pos hrange, hpositional]

end Layout

namespace Number

attribute [local instance (high)] instPowNat

/-! ## Integers are rounded to integers -/

theorem unitsPerOne_pos : 0 < unitsPerOne := Nat.two_pow_pos scale

theorem mul_unitsPerOne_ne_zero {magnitude : Nat} (positive : 0 < magnitude) :
    magnitude * unitsPerOne ≠ 0 :=
  Nat.mul_ne_zero (Nat.ne_of_gt positive) (Nat.ne_of_gt unitsPerOne_pos)

/-- Up to `2 ^ 53`, integers are magnitudes of binary64. -/
theorem representable_whole {magnitude : Nat} :
    magnitude ≤ 2 ^ Precision.double.digits → Representable (magnitude * unitsPerOne) := by
  intro hsmall
  refine representable_mul_pow hsmall ?_
  by_cases hzero : magnitude * 2 ^ scale = 0
  · rw [hzero]
    decide
  · change _ < Precision.double.overflow
    refine (Nat.log2_lt hzero).2 ?_
    calc
      magnitude * 2 ^ scale ≤ 2 ^ Precision.double.digits * 2 ^ scale :=
          Nat.mul_le_mul_right _ hsmall
      _ = 2 ^ (Precision.double.digits + scale) := (Nat.pow_add ..).symm
      _ < 2 ^ Precision.double.overflow := Nat.pow_lt_pow_right (by decide) (by decide)

theorem roundUnits_of_small {magnitude : Nat} :
    magnitude ≤ 2 ^ Precision.double.digits →
      roundUnits .double (magnitude * unitsPerOne) 1 = magnitude * unitsPerOne := by
  intro hsmall
  simpa using roundUnits_mul (representable_whole hsmall) Nat.one_pos

/-- An integer is rounded to an integer. -/
theorem roundUnits_whole (magnitude : Nat) :
    ∃ rounded, roundUnits .double (magnitude * unitsPerOne) 1 = rounded * unitsPerOne := by
  simp only [roundUnits, Nat.one_mul]
  generalize Precision.double.shift (magnitude * unitsPerOne) 1 = shift
  rcases Nat.le_total shift scale with hfine | hcoarse
  · -- The grid of the rounding has all integers, so nothing is rounded.
    have hsplit : unitsPerOne = 2 ^ (scale - shift) * 2 ^ shift := by
      rw [unitsPerOne, ← Nat.pow_add, Nat.sub_add_cancel hfine]
    refine ⟨magnitude, ?_⟩
    rw [hsplit, ← Nat.mul_assoc, roundQuotient_mul _ _ (Nat.two_pow_pos _)]
  · -- The grid has integers only.
    have hsplit : 2 ^ shift = 2 ^ (shift - scale) * unitsPerOne := by
      rw [unitsPerOne, ← Nat.pow_add, Nat.sub_add_cancel hcoarse]
    refine ⟨roundQuotient .even (magnitude * unitsPerOne) (2 ^ shift) * 2 ^ (shift - scale), ?_⟩
    rw [Nat.mul_assoc, ← hsplit]

/-- Integers of 64 bits are rounded neither to zero nor far up. -/
theorem roundUnits_bounds {magnitude : Nat} (positive : 0 < magnitude) :
    magnitude ≤ UInt64.size →
      0 < roundUnits .double (magnitude * unitsPerOne) 1 ∧
        roundUnits .double (magnitude * unitsPerOne) 1 < 2 ^ (65 + scale) := by
  intro hsize
  have hsplit : ∀ exponent, 2 ^ (exponent + scale) = 2 ^ exponent * unitsPerOne :=
    fun exponent => Nat.pow_add 2 exponent scale
  constructor
  · have hone : 2 ^ (0 + scale) ≤ magnitude * unitsPerOne / 1 := by
      rw [Nat.div_one, hsplit]
      exact Nat.mul_le_mul_right _ positive
    exact Nat.lt_of_lt_of_le (Nat.two_pow_pos _) (two_pow_le_roundUnits hone)
  · have hword : magnitude * unitsPerOne ≤ 2 ^ (64 + scale) * 1 := by
      rw [Nat.mul_one, hsplit]
      exact Nat.mul_le_mul_right _ hsize
    calc
      roundUnits .double (magnitude * unitsPerOne) 1 ≤ 2 ^ (64 + scale) :=
          roundUnits_le_two_pow Nat.one_pos hword
      _ < 2 ^ (65 + scale) := Nat.pow_lt_pow_right (by decide) (by decide)

/-! ## The shortest decimal of an integer -/

/-- The exact decimal of an integer has its digits, and zeros behind them. -/
theorem ceilingExponent_whole {magnitude : Nat} (positive : 0 < magnitude) :
    Shortest.ceilingExponent (magnitude * unitsPerOne) = (Digits.ofNat magnitude).length := by
  have hexact : Shortest.exactCoefficient (magnitude * unitsPerOne) = magnitude * 10 ^ scale := by
    rw [Shortest.exactCoefficient, unitsPerOne, Nat.mul_assoc, ← Nat.mul_pow]
  rw [Shortest.ceilingExponent, hexact, Digits.ofNat_mul_pow positive, List.length_append,
    List.length_replicate]
  omega

/-- On the grid of the integers, an integer reads back. -/
theorem isSome_onGrid?_zero {magnitude : Nat} (tie : Tie) :
    Representable (magnitude * unitsPerOne) →
      (Shortest.onGrid? tie (magnitude * unitsPerOne) 0).isSome := by
  intro hrepresentable
  have hnearest : roundQuotient tie (Shortest.steps (magnitude * unitsPerOne) 0).1
      (Shortest.steps (magnitude * unitsPerOne) 0).2 = magnitude := by
    simp only [Shortest.steps, Int.neg_zero, Int.toNat_zero, Nat.pow_zero, Nat.mul_one, Nat.one_mul]
    exact roundQuotient_mul tie magnitude unitsPerOne_pos
  have hreads : Shortest.readsBack (magnitude * unitsPerOne) magnitude 0 := by
    rw [Shortest.readsBack_iff]
    simpa using roundUnits_mul hrepresentable Nat.one_pos
  simp only [Shortest.onGrid?]
  rw [hnearest, if_pos hreads]
  rfl

/-- The shortest decimal of an integer is whole. -/
theorem exponent_shortest_nonneg {magnitude : Nat} (tie : Tie) (negative : Bool)
    (positive : 0 < magnitude) :
    Representable (magnitude * unitsPerOne) →
      0 ≤ (shortest tie negative (magnitude * unitsPerOne)).exponent := by
  intro hrepresentable
  have hceiling := ceilingExponent_whole positive
  have hunits := mul_unitsPerOne_ne_zero positive
  -- The search comes to the grid of the integers, unless seventeen digits end it before that.
  have hgrid : ∃ grid < 18, grid ≤ (Digits.ofNat magnitude).length ∧
      (Shortest.onGrid? tie (magnitude * unitsPerOne)
        (Shortest.ceilingExponent (magnitude * unitsPerOne) - (grid : Nat))).isSome := by
    rcases Nat.lt_or_ge (Digits.ofNat magnitude).length 18 with hfew | hmany
    · refine ⟨_, hfew, Nat.le_refl _, ?_⟩
      rw [hceiling, Int.sub_self]
      exact isSome_onGrid?_zero tie hrepresentable
    · exact ⟨17, by decide, by omega,
        Shortest.isSome_onGrid?_of_le tie hrepresentable hunits (Nat.le_refl 16)⟩
  rcases hgrid with ⟨grid, hreached, hlength, hfound⟩
  rcases Shortest.search_of_isSome hreached hfound with ⟨last, hlast, coefficient, -, hsearch⟩
  -- The search is put in place before anything would evaluate it.
  delta shortest
  rw [hsearch, hceiling]
  change 0 ≤ ((Digits.ofNat magnitude).length : Int) - last
  omega

/-- A power of two is not reached by what is rounded to less. -/
theorem lt_two_pow_of_roundUnits {magnitude units exponent : Nat} :
    roundUnits .double (magnitude * unitsPerOne) 1 = units → units < 2 ^ (exponent + scale) →
      magnitude < 2 ^ exponent := by
  intro hround hless
  refine Nat.not_le.1 fun hmore => ?_
  have hquotient : 2 ^ (exponent + scale) ≤ magnitude * unitsPerOne / 1 := by
    rw [Nat.div_one, Nat.pow_add]
    exact Nat.mul_le_mul_right _ hmore
  have hreached := two_pow_le_roundUnits hquotient
  omega

/-- The shortest decimal of an integer is an integer that rounds to the same number. -/
theorem exists_whole_shortest {magnitude : Nat} (tie : Tie) (negative : Bool)
    (positive : 0 < magnitude) :
    Representable (magnitude * unitsPerOne) →
      ∃ shown : Nat, 0 < (shortest tie negative (magnitude * unitsPerOne)).coefficient ∧
        0 ≤ (shortest tie negative (magnitude * unitsPerOne)).exponent ∧
        (shortest tie negative (magnitude * unitsPerOne)).coefficient *
          10 ^ (shortest tie negative (magnitude * unitsPerOne)).exponent.toNat = shown ∧
        roundUnits .double (shown * unitsPerOne) 1 = magnitude * unitsPerOne := by
  intro hrepresentable
  have hunits := mul_unitsPerOne_ne_zero positive
  have hwhole := exponent_shortest_nonneg tie negative positive hrepresentable
  have hreads := readsBack_shortest tie negative hrepresentable
  generalize shortest tie negative (magnitude * unitsPerOne) = decimal at *
  refine ⟨_, Nat.pos_of_ne_zero (ne_zero_of_readsBack hunits hreads), hwhole, rfl, ?_⟩
  have hplaces : (-decimal.exponent).toNat = 0 := by omega
  rw [Shortest.readsBack_iff, hplaces, Nat.pow_zero] at hreads
  exact hreads

/-- `2 ^ 53` has a neighbour above it that is rounded to it, but that one is not as near. -/
theorem shortest_two_pow (negative : Bool) :
    shortest .up negative (2 ^ Precision.double.digits * unitsPerOne) =
      ⟨negative, 2 ^ Precision.double.digits, 0⟩ := by
  cases negative <;> decide +kernel

/-- Up to `2 ^ 53`, the shortest decimal of an integer is the integer. -/
theorem shown_eq_of_small {magnitude : Nat} (negative : Bool) (positive : 0 < magnitude) :
    magnitude ≤ 2 ^ Precision.double.digits →
      (shortest .up negative (magnitude * unitsPerOne)).coefficient *
        10 ^ (shortest .up negative (magnitude * unitsPerOne)).exponent.toNat = magnitude := by
  intro hsmall
  rcases Nat.lt_or_eq_of_le hsmall with hless | rfl
  · rcases exists_whole_shortest .up negative positive (representable_whole hsmall) with
      ⟨shown, -, -, hshown, hround⟩
    rw [hshown]
    have hbound : shown < 2 ^ Precision.double.digits := by
      refine lt_two_pow_of_roundUnits hround ?_
      rw [Nat.pow_add, ← unitsPerOne]
      exact Nat.mul_lt_mul_of_pos_right hless unitsPerOne_pos
    -- Both are magnitudes, so they are equal if one is rounded to the other.
    rw [roundUnits_of_small (Nat.le_of_lt hbound)] at hround
    exact Nat.eq_of_mul_eq_mul_right unitsPerOne_pos hround
  · rw [shortest_two_pow]
    exact Nat.mul_one _

/-! ## The text of an integer -/

theorem toText_finite {negative : Bool} {units : Nat} (representable : Representable units) :
    units ≠ 0 →
      (finite negative units representable).toText =
        String.ofList (textLayout.write (shortest .up negative units)) :=
  fun h => if_neg h

/-- A whole number of moderate size is written as the numeral of an integer, and up to `2 ^ 53` as its
own. -/
theorem exists_toText_whole {magnitude : Nat} (negative : Bool) (positive : 0 < magnitude)
    (representable : Representable (magnitude * unitsPerOne)) :
    magnitude * unitsPerOne < 2 ^ (65 + scale) →
      ∃ shown : Nat,
        (finite negative (magnitude * unitsPerOne) representable).toText =
          String.ofList (if negative then '-' :: Digits.ofNat shown else Digits.ofNat shown) ∧
        (magnitude ≤ 2 ^ Precision.double.digits → shown = magnitude) := by
  intro hunits
  rcases exists_whole_shortest .up negative positive representable with
    ⟨shown, hcoefficient, hwhole, hshown, hround⟩
  have hfew : shown < 10 ^ (21 : Nat) :=
    Nat.lt_trans (lt_two_pow_of_roundUnits hround hunits) (by decide)
  refine ⟨shown, ?_, fun hsmall => ?_⟩
  · rw [toText_finite representable (mul_unitsPerOne_ne_zero positive),
      Layout.write_whole hwhole hcoefficient hshown hfew, negative_shortest]
  · rw [← hshown]
    exact shown_eq_of_small negative positive hsmall

/-- The text of the number nearest to an integer is the numeral of an integer, and up to `2 ^ 53` that
of the same one. -/
theorem exists_toText_ofInt {value : Int} :
    value.natAbs ≤ UInt64.size →
      ∃ shown : Nat,
        (ofInt value).toText = String.ofList
          (if value < 0 then '-' :: Digits.ofNat shown else Digits.ofNat shown) ∧
        (value.natAbs ≤ 2 ^ Precision.double.digits → shown = value.natAbs) := by
  intro hsize
  by_cases hzero : value = 0
  · subst hzero
    exact ⟨0, by rw [ofInt_zero]; rfl, fun _ => rfl⟩
  · have hpositive : 0 < value.natAbs := by omega
    rcases exists_ofInt_eq_finite hsize with ⟨representable, hfinite⟩
    have hbounds := roundUnits_bounds hpositive hsize
    rcases roundUnits_whole value.natAbs with ⟨rounded, hrounded⟩
    have hsame : value.natAbs ≤ 2 ^ Precision.double.digits → rounded = value.natAbs := by
      intro hsmall
      rw [roundUnits_of_small hsmall] at hrounded
      exact (Nat.eq_of_mul_eq_mul_right unitsPerOne_pos hrounded).symm
    simp only [hrounded] at hfinite hbounds representable
    have hnonzero : 0 < rounded := Nat.pos_of_mul_pos_right hbounds.1
    rcases exists_toText_whole (decide (value < 0)) hnonzero representable hbounds.2 with
      ⟨shown, htext, hsmall⟩
    refine ⟨shown, ?_, fun hvalue => ?_⟩
    · rw [hfinite, htext]
      simp
    · rw [← hsame hvalue]
      exact hsmall (hsame hvalue ▸ hvalue)

theorem ofInt_ne_negative_zero {value : Int} :
    value.natAbs ≤ UInt64.size → ofInt value ≠ zero true := by
  intro hsize
  by_cases hzero : value = 0
  · subst hzero
    rw [ofInt_zero]
    decide
  · rcases exists_ofInt_eq_finite hsize with ⟨representable, hfinite⟩
    have hpositive := (roundUnits_bounds (by omega : 0 < value.natAbs) hsize).1
    rw [hfinite, zero, Ne, finite.injEq]
    exact fun hsame => Nat.ne_of_gt hpositive hsame.2

end Number

namespace Value

attribute [local instance (high)] instPowNat

/-- The numeral of an integer. -/
theorem toString_eq_ofList (value : Int) :
    toString value = String.ofList
      (if value < 0 then '-' :: Digits.ofNat value.natAbs else Digits.ofNat value.natAbs) := by
  rw [Int.toString_eq_repr, Int.repr_eq_if]
  split
  · rename_i hpositive
    have habs : value.toNat = value.natAbs := by omega
    rw [if_neg (Int.not_lt.2 hpositive), habs]
    exact Nat.repr_eq_ofList_toDigits
  · rename_i hnegative
    have habs : (-value).toNat = value.natAbs := by omega
    rw [if_pos (Int.not_le.1 hnegative), habs, Nat.repr_eq_ofList_toDigits]
    exact (@String.ofList_append ['-'] _).symm

/-- An integer of 64 bits, with or without a sign, is written with digits alone, behind a minus sign
if it is negative, and its text is read back as the same number.  Up to `2 ^ 53` the text is the
numeral of the integer. -/
theorem toText_toValue {value : Int}
    (inWords : Int64.minValue.toInt ≤ value ∧ value < UInt64.size) :
    let text := (toValue value).toText
    (value.natAbs ≤ 2 ^ (53 : Nat) → text = toString value) ∧
    (∃ digits : List Char,
      text.toList = (if value < 0 then '-' :: digits else digits) ∧ digits ≠ [] ∧
      (∀ c ∈ digits, c.isDigit) ∧ (digits = ['0'] ∨ digits.head? ≠ some '0')) ∧
    toValue value = .number (Number.ofText text) := by
  intro text
  have htext : text = (Number.ofInt value).toText := by
    simp [text, toValue, toText]
  have hsize : value.natAbs ≤ UInt64.size := by
    have hleast : Int64.minValue.toInt = -(9223372036854775808 : Int) := by decide
    have hgreatest : UInt64.size = 18446744073709551616 := by decide
    omega
  rcases Number.exists_toText_ofInt hsize with ⟨shown, hshown, hsmall⟩
  refine ⟨fun hvalue => ?_, ⟨Digits.ofNat shown, ?_, ?_, ?_, ?_⟩, ?_⟩
  · rw [htext, hshown, hsmall hvalue, toString_eq_ofList]
  · rw [htext, hshown, String.toList_ofList]
  · exact Digits.ofNat_ne_nil shown
  · exact fun c => Digits.isDigit_of_mem_ofNat
  · exact Digits.leading_ofNat shown
  · -- No integer is the negative zero, which alone is not read back.
    have hsign := Number.ofInt_ne_negative_zero hsize
    rw [htext, Number.ofText_toText, if_neg hsign]
    rfl

/-- The last integer up to which the text is the numeral, and the last one of 64 bits, which is rounded
up. -/
theorem toText_toValue_extreme :
    (toValue (-9007199254740992 : Int)).toText = "-9007199254740992" ∧
      toValue (18446744073709551615 : Int) =
        .number (Number.ofText (toValue (18446744073709551615 : Int)).toText) :=
  ⟨(@toText_toValue (-9007199254740992) (by decide)).1 (by decide),
    (@toText_toValue 18446744073709551615 (by decide)).2.2⟩

end Value
end Stencil
