import Stencil.Proofs.NumberGrammar
import Stencil.Proofs.Numeral

/-!
# Round trips — a number is read back from its text

The text of a number is the numeral of a decimal that rounds to it, and reading a numeral rounds the
decimal that it spells.

* `Number.roundUnits_mul` — a magnitude of binary64 is its own nearest magnitude;
* `Number.roundUnits_scale` — what is rounded to depends on the quotient alone;
* `Number.readsBack_shortest` — the decimal that is written for a magnitude rounds to it;
* `Number.ofDecimal_of_readsBack` — and is read as that magnitude;
* `Number.ofText_toText` — so a number is read back from its text.
-/

namespace Stencil
namespace Number

attribute [local instance (high)] instPowNat

/-! ## Rounding what needs no rounding -/

theorem roundQuotient_mul {den : Nat} (tie : Tie) (quotient : Nat) :
    0 < den → roundQuotient tie (quotient * den) den = quotient := by
  intro h
  simp [roundQuotient, Nat.mul_div_cancel _ h, h]

theorem div_le_roundQuotient (tie : Tie) (num den : Nat) :
    num / den ≤ roundQuotient tie num den := by
  simp only [roundQuotient]
  split <;> omega

/-- A magnitude of binary64 is its own nearest magnitude. -/
theorem roundUnits_mul {units den : Nat} :
    Representable units → 0 < den → roundUnits .double (units * den) den = units := by
  rintro ⟨_, quotient, hunits⟩ hden
  have hshift : Precision.double.shift (units * den) den = units.log2 - 52 := by
    simp only [Precision.shift, Precision.double, Nat.mul_div_cancel _ hden]
    omega
  have hpos : 0 < den * 2 ^ (units.log2 - 52) := Nat.mul_pos hden (Nat.two_pow_pos _)
  have hnum : units * den = quotient * (den * 2 ^ (units.log2 - 52)) := by
    rw [Nat.mul_comm den, ← Nat.mul_assoc, Nat.mul_comm quotient, ← hunits]
  simp only [roundUnits, hshift]
  rw [hnum, roundQuotient_mul .even quotient hpos, Nat.mul_comm, ← hunits]

/-- Less than half a unit is rounded to nothing. -/
theorem roundUnits_eq_zero {num den : Nat} :
    2 * num < den → roundUnits .double num den = 0 := by
  intro h
  have hquotient : num / den = 0 := Nat.div_eq_of_lt (by omega)
  have hremainder : num % den = num := Nat.mod_eq_of_lt (by omega)
  have hshift : Precision.double.shift num den = 0 := by
    simp [Precision.shift, Precision.double, hquotient]
  simp [roundUnits, hshift, roundQuotient, hquotient, hremainder, h]

/-- Rounding does not go below a power of two. -/
theorem two_pow_le_roundUnits {num den exponent : Nat} :
    2 ^ exponent ≤ num / den → 2 ^ exponent ≤ roundUnits .double num den := by
  intro h
  have hne : num / den ≠ 0 := by
    have := Nat.two_pow_pos exponent
    omega
  have hlog : exponent ≤ (num / den).log2 := (Nat.le_log2 hne).2 h
  have hshift : Precision.double.shift num den ≤ (num / den).log2 := by
    simp only [Precision.shift, Precision.double]
    omega
  have hlow : 2 ^ ((num / den).log2 - Precision.double.shift num den) ≤
      num / (den * 2 ^ Precision.double.shift num den) := by
    rw [← Nat.div_div_eq_div_mul, Nat.le_div_iff_mul_le (Nat.two_pow_pos _), ← Nat.pow_add,
      Nat.sub_add_cancel hshift]
    exact Nat.log2_self_le hne
  calc
    2 ^ exponent ≤ 2 ^ (num / den).log2 := Nat.pow_le_pow_right (by decide) hlog
    _ = 2 ^ ((num / den).log2 - Precision.double.shift num den) *
          2 ^ Precision.double.shift num den := by
        rw [← Nat.pow_add, Nat.sub_add_cancel hshift]
    _ ≤ roundUnits .double num den :=
        Nat.mul_le_mul_right _ (Nat.le_trans hlow (div_le_roundQuotient ..))

/-- Rounding does not go above a power of two. -/
theorem roundUnits_le_two_pow {num den exponent : Nat} :
    0 < den → num ≤ 2 ^ exponent * den → roundUnits .double num den ≤ 2 ^ exponent := by
  intro hden h
  have hlog : (num / den).log2 ≤ exponent := by
    by_cases hzero : num / den = 0
    · simp [hzero]
    · have hpow : 2 ^ (num / den).log2 ≤ 2 ^ exponent :=
        Nat.le_trans (Nat.log2_self_le hzero) (Nat.div_le_of_le_mul (by rwa [Nat.mul_comm]))
      exact (Nat.pow_le_pow_iff_right (by decide)).1 hpow
  have hshift : Precision.double.shift num den ≤ exponent := by
    simp only [Precision.shift, Precision.double]
    omega
  have hsplit : 2 ^ exponent = 2 ^ (exponent - Precision.double.shift num den) *
      2 ^ Precision.double.shift num den := by
    rw [← Nat.pow_add, Nat.sub_add_cancel hshift]
  have hpos : 0 < den * 2 ^ Precision.double.shift num den :=
    Nat.mul_pos hden (Nat.two_pow_pos _)
  rw [hsplit] at h ⊢
  refine Nat.mul_le_mul_right _ (roundQuotient_le hpos ?_)
  rwa [Nat.mul_comm den, ← Nat.mul_assoc]

/-- Rounding depends on the quotient alone. -/
theorem roundUnits_scale {factor : Nat} (precision : Precision) (num den : Nat) :
    0 < factor →
      roundUnits precision (num * factor) (den * factor) = roundUnits precision num den := by
  intro h
  have hshift : precision.shift (num * factor) (den * factor) = precision.shift num den := by
    simp only [Precision.shift, Nat.mul_div_mul_right _ _ h]
  have hquotient (scaled : Nat) : roundQuotient .even (num * factor) (scaled * factor) =
      roundQuotient .even num scaled := by
    have htwice : 2 * (num % scaled * factor) = 2 * (num % scaled) * factor :=
      (Nat.mul_assoc ..).symm
    simp only [roundQuotient, Nat.mul_div_mul_right _ _ h, Nat.mul_mod_mul_right, htwice,
      Nat.mul_lt_mul_right h, Nat.mul_right_cancel_iff h]
  have hcomm (power : Nat) : den * factor * power = den * power * factor := Nat.mul_right_comm ..
  simp only [roundUnits, hshift, hcomm, hquotient]

theorem roundUnits_congr {num den num' den' : Nat} :
    0 < den → 0 < den' → num * den' = num' * den →
      roundUnits .double num den = roundUnits .double num' den' := by
  intro hden hden' h
  calc
    roundUnits .double num den = roundUnits .double (num * den') (den * den') :=
        (roundUnits_scale _ _ _ hden').symm
    _ = roundUnits .double (num' * den) (den' * den) := by rw [h, Nat.mul_comm den]
    _ = roundUnits .double num' den' := roundUnits_scale _ _ _ hden

/-! ## The decimal that is written -/

namespace Shortest

theorem readsBack_iff {units coefficient : Nat} {exponent : Int} :
    readsBack units coefficient exponent ↔
      roundUnits .double (coefficient * 10 ^ exponent.toNat * unitsPerOne)
        (10 ^ (-exponent).toNat) = units :=
  decide_eq_true_iff

theorem readsBack_of_onGrid? {tie : Tie} {units coefficient : Nat} {exponent : Int} :
    onGrid? tie units exponent = some coefficient → readsBack units coefficient exponent := by
  intro h
  simp only [onGrid?] at h
  generalize readsBack units = reads at h ⊢
  -- Which grid points the two candidates are makes no difference.
  generalize roundQuotient tie (steps units exponent).1 (steps units exponent).2 = nearest at h
  generalize (if nearest = (steps units exponent).1 / (steps units exponent).2 then nearest + 1
    else (steps units exponent).1 / (steps units exponent).2) = other at h
  split at h
  · rename_i hnearest
    exact Option.some.inj h ▸ hnearest
  · split at h
    · rename_i hother
      exact Option.some.inj h ▸ hother
    · cases h

/-- The exact decimal of a magnitude rounds to it. -/
theorem readsBack_exact {units : Nat} :
    Representable units → readsBack units (exactCoefficient units) (-scale) := by
  intro h
  -- Said for any number of places, so that no power of the real one is computed.
  have hexact : ∀ places, roundUnits .double (units * 5 ^ places * 10 ^ 0 * 2 ^ places)
      (10 ^ places) = units := by
    intro places
    have hnum : units * 5 ^ places * 10 ^ 0 * 2 ^ places = units * 10 ^ places := by
      rw [Nat.pow_zero, Nat.mul_one, Nat.mul_assoc, ← Nat.mul_pow]
    rw [hnum]
    exact roundUnits_mul h (Nat.pow_pos (by decide))
  rw [readsBack_iff, exactCoefficient, unitsPerOne, Int.neg_neg, Int.toNat_neg_natCast,
    Int.toNat_natCast]
  exact hexact scale

/-- Whatever the search ends with rounds to the magnitude. -/
theorem readsBack_search {units : Nat} (tie : Tie) (grids : Nat) (exponent : Int) :
    Representable units →
      readsBack units (search tie units grids exponent).1 (search tie units grids exponent).2 := by
  intro h
  induction grids generalizing exponent with
  | zero =>
      rw [search_zero]
      exact readsBack_exact h
  | succ grids ih =>
      rw [search_succ]
      cases hgrid : onGrid? tie units exponent with
      | some coefficient =>
          exact readsBack_of_onGrid? hgrid
      | none =>
          exact ih (exponent - 1)

end Shortest

open Shortest (readsBack readsBack_iff readsBack_search)

theorem readsBack_shortest {units : Nat} (tie : Tie) (negative : Bool) :
    Representable units →
      readsBack units (shortest tie negative units).coefficient
        (shortest tie negative units).exponent := by
  intro h
  have hfound := readsBack_search tie 18 (Shortest.ceilingExponent units) h
  -- The search is set aside before anything would evaluate it.
  delta shortest
  generalize Shortest.search tie units 18 (Shortest.ceilingExponent units) = found at hfound ⊢
  rcases found with ⟨coefficient, exponent⟩
  exact hfound

theorem negative_shortest (tie : Tie) (negative : Bool) (units : Nat) :
    (shortest tie negative units).negative = negative := by
  delta shortest
  generalize Shortest.search tie units 18 (Shortest.ceilingExponent units) = found
  rfl

/-! ## Reading a decimal -/

theorem ne_zero_of_readsBack {units coefficient : Nat} {exponent : Int} :
    units ≠ 0 → readsBack units coefficient exponent → coefficient ≠ 0 := by
  rintro hunits h rfl
  have hzero : roundUnits .double 0 (10 ^ (-exponent).toNat) = 0 :=
    roundUnits_eq_zero (Nat.pow_pos (by decide))
  rw [readsBack_iff, Nat.zero_mul, Nat.zero_mul, hzero] at h
  exact hunits h.symm

theorem two_pow_le_ten_pow {binary decimal : Nat} :
    binary ≤ 3 * decimal → 2 ^ binary ≤ 10 ^ decimal := by
  intro h
  calc
    2 ^ binary ≤ 2 ^ (3 * decimal) := Nat.pow_le_pow_right (by decide) h
    _ = (2 ^ 3) ^ decimal := Nat.pow_mul ..
    _ ≤ 10 ^ decimal := Nat.pow_le_pow_left (by decide) _

/-- A decimal with a very small exponent is less than half the least magnitude. -/
theorem le_exponent_of_readsBack {units coefficient : Nat} {exponent : Int} :
    units ≠ 0 → readsBack units coefficient exponent →
      -400 - ((coefficient.log2 + 1 : Nat) : Int) ≤ exponent := by
  intro hunits h
  refine Int.not_lt.1 fun hsmall => hunits ?_
  have hpositive : exponent.toNat = 0 := by omega
  have hdigits : coefficient.log2 + 1 + (scale + 1) ≤ 3 * (-exponent).toNat := by
    simp only [scale]
    omega
  have hhalf : 2 * (coefficient * unitsPerOne) < 10 ^ (-exponent).toNat := by
    calc
      2 * (coefficient * unitsPerOne) = coefficient * 2 ^ (scale + 1) := by
          rw [unitsPerOne, Nat.pow_succ, Nat.mul_comm, Nat.mul_assoc]
      _ < 2 ^ (coefficient.log2 + 1) * 2 ^ (scale + 1) :=
          Nat.mul_lt_mul_of_pos_right Nat.lt_log2_self (Nat.two_pow_pos _)
      _ = 2 ^ (coefficient.log2 + 1 + (scale + 1)) := (Nat.pow_add ..).symm
      _ ≤ 10 ^ (-exponent).toNat := two_pow_le_ten_pow hdigits
  rw [readsBack_iff, hpositive, Nat.pow_zero, Nat.mul_one, roundUnits_eq_zero hhalf] at h
  exact h.symm

/-- A decimal with a very large exponent lies above all magnitudes. -/
theorem exponent_le_of_readsBack {units coefficient : Nat} {exponent : Int} :
    Representable units → coefficient ≠ 0 → readsBack units coefficient exponent →
      exponent ≤ 400 := by
  rintro ⟨hlog, _⟩ hcoefficient h
  refine Int.not_lt.1 fun hlarge => ?_
  have hnegative : (-exponent).toNat = 0 := by omega
  have hquotient : 2 ^ (3 * exponent.toNat + scale) ≤
      coefficient * 10 ^ exponent.toNat * unitsPerOne / 1 := by
    rw [Nat.div_one, unitsPerOne, Nat.pow_add]
    refine Nat.mul_le_mul_right _ ?_
    calc
      2 ^ (3 * exponent.toNat) ≤ 10 ^ exponent.toNat := two_pow_le_ten_pow (Nat.le_refl _)
      _ ≤ coefficient * 10 ^ exponent.toNat :=
          Nat.le_mul_of_pos_left _ (Nat.pos_of_ne_zero hcoefficient)
  have hround := two_pow_le_roundUnits hquotient
  rw [readsBack_iff, hnegative, Nat.pow_zero] at h
  rw [h] at hround
  have hne : units ≠ 0 := by
    have := Nat.two_pow_pos (3 * exponent.toNat + scale)
    omega
  have hoverflow := (Nat.le_log2 hne).2 hround
  simp only [scale] at hoverflow
  omega

/-- A decimal that rounds to a magnitude is read as that magnitude. -/
theorem ofDecimal_of_readsBack {units : Nat} {decimal : Decimal}
    (representable : Representable units) :
    units ≠ 0 → readsBack units decimal.coefficient decimal.exponent →
      ofDecimal .double decimal = .finite decimal.negative units representable := by
  intro hunits h
  have hcoefficient := ne_zero_of_readsBack hunits h
  have hleast := le_exponent_of_readsBack hunits h
  have hgreatest := exponent_le_of_readsBack representable hcoefficient h
  have hround : roundUnits .double decimal.ratio.1 decimal.ratio.2 = units := readsBack_iff.1 h
  -- So neither of the shortcuts for extreme exponents is taken.
  have hsmall : ¬ (decimal.coefficient = 0 ∨
      decimal.exponent < -400 - ((decimal.coefficient.log2 + 1 : Nat) : Int)) := by
    omega
  rw [ofDecimal, if_neg hsmall, if_neg (by omega), ofRatio]
  simp only [hround]
  exact dif_pos representable.1

/-- Zeros at the end of the coefficient make no difference to what a decimal rounds to. -/
theorem readsBack_lower {units : Nat} (decimal : Decimal) (count : Nat) :
    readsBack units (decimal.lower count).coefficient (decimal.lower count).exponent ↔
      readsBack units decimal.coefficient decimal.exponent := by
  rcases decimal with ⟨negative, coefficient, exponent⟩
  have hpowers : count + (exponent - count).toNat + (-exponent).toNat =
      exponent.toNat + (-(exponent - count)).toNat := by
    omega
  have hcross : 10 ^ count * 10 ^ (exponent - count).toNat * 10 ^ (-exponent).toNat =
      10 ^ exponent.toNat * 10 ^ (-(exponent - count)).toNat := by
    rw [← Nat.pow_add, ← Nat.pow_add, ← Nat.pow_add, hpowers]
  have hround : roundUnits .double
        (coefficient * 10 ^ count * 10 ^ (exponent - count).toNat * unitsPerOne)
        (10 ^ (-(exponent - count)).toNat) =
      roundUnits .double (coefficient * 10 ^ exponent.toNat * unitsPerOne)
        (10 ^ (-exponent).toNat) := by
    refine roundUnits_congr (Nat.pow_pos (by decide)) (Nat.pow_pos (by decide)) ?_
    -- How many units one has makes no difference.
    generalize unitsPerOne = one
    calc
      coefficient * 10 ^ count * 10 ^ (exponent - count).toNat * one * 10 ^ (-exponent).toNat
          = coefficient * one *
              (10 ^ count * 10 ^ (exponent - count).toNat * 10 ^ (-exponent).toNat) := by ac_rfl
      _ = coefficient * one * (10 ^ exponent.toNat * 10 ^ (-(exponent - count)).toNat) := by
          rw [hcross]
      _ = coefficient * 10 ^ exponent.toNat * one * 10 ^ (-(exponent - count)).toNat := by ac_rfl
  rw [readsBack_iff, readsBack_iff, Decimal.lower, hround]

/-! ## Reading a numeral -/

open Decimal (IsMark)

theorem toNat_of_isMark {c : Char} :
    IsMark c → 43 ≤ c.toNat ∧ c.toNat ≤ 57 ∨ c.toNat = 101 := by
  rintro (hdigit | rfl | rfl | rfl | rfl)
  · simp only [Char.isDigit, Bool.and_eq_true, decide_eq_true_eq, ge_iff_le,
      UInt32.le_iff_toNat_le] at hdigit
    have hlow : 48 ≤ c.toNat := hdigit.1
    have hhigh : c.toNat ≤ 57 := hdigit.2
    omega
  all_goals decide

theorem not_isBlank_of_isMark {c : Char} : IsMark c → Text.isBlank c = false := by
  intro h
  have hcode := toNat_of_isMark h
  simp only [Text.isBlank, Text.blankRanges, List.any_cons, List.any_nil, Bool.or_false,
    Bool.or_eq_false_iff, Bool.and_eq_false_iff, decide_eq_false_iff_not]
  omega

theorem baseOf?_of_isMark {c : Char} : IsMark c → baseOf? c = none := by
  intro h
  have hcode := toNat_of_isMark h
  unfold baseOf?
  split
  case h_7 =>
      rfl
  all_goals
      exact absurd hcode (by decide)

/-- A numeral is read as the number nearest to its decimal: it has no blanks around it and no base
mark, and it is not the word for infinity. -/
theorem ofText_of_isMark {numeral : List Char} :
    (∀ c ∈ numeral, IsMark c) → numeral ≠ [] →
      ofText (String.ofList numeral) =
        ((Decimal.read? numeral).map (ofDecimal .double)).getD nan := by
  intro hmarks hne
  have htrim : Text.trimBlank (String.ofList numeral).toList = numeral := by
    rw [String.toList_ofList]
    exact Text.trimBlank_of_not_blank fun c hmem => not_isBlank_of_isMark (hmarks c hmem)
  have hdecimal : readDecimal numeral =
      ((Decimal.read? numeral).map (ofDecimal .double)).getD nan := by
    rw [readDecimal]
    refine if_neg ?_
    rintro ⟨hword, _⟩
    have hmem : 'I' ∈ numeral := (List.dropWhile_sublist isSign).subset (hword ▸ by decide)
    have hcode := toNat_of_isMark (hmarks 'I' hmem)
    revert hcode
    decide
  have hmark : ∀ mark digits, numeral = '0' :: mark :: digits → baseOf? mark = none := by
    rintro mark digits rfl
    exact baseOf?_of_isMark (hmarks mark (by simp))
  rw [ofText_of_no_base (by rwa [htrim]) (by rwa [htrim]), htrim, hdecimal]

/-! ## The round trip -/

theorem plain_textLayout : textLayout.Plain := ⟨0, rfl⟩

/-- Every finite number but zero is written as a numeral that is read as the number. -/
theorem exists_numeral (negative : Bool) {units : Nat} (representable : Representable units) :
    units ≠ 0 →
      ∃ numeral, (finite negative units representable).toText = String.ofList numeral ∧
        numeral ≠ [] ∧ (∀ c ∈ numeral, IsMark c) ∧
          (Decimal.read? numeral).map (ofDecimal .double) =
            some (finite negative units representable) := by
  intro hunits
  have hshortest := readsBack_shortest .up negative representable
  rcases Layout.read?_write plain_textLayout (shortest .up negative units) with ⟨hmarks, count, hread⟩
  have hne : textLayout.write (shortest .up negative units) ≠ [] := by
    intro hnil
    rw [hnil] at hread
    cases hread
  refine ⟨_, if_neg hunits, hne, hmarks, ?_⟩
  rw [hread, Option.map_some,
    ofDecimal_of_readsBack representable hunits ((readsBack_lower _ count).2 hshortest),
    Decimal.negative_lower, negative_shortest]

/-- A number is read back from its text.  The negative zero is written without its sign. -/
theorem ofText_toText (number : Number) :
    ofText number.toText = if number = zero true then zero false else number := by
  cases number with
  | nan =>
      rfl
  | infinite negative =>
      cases negative <;> rfl
  | finite negative units representable =>
      by_cases hunits : units = 0
      · subst hunits
        have hzero : ofText "0" = zero false := by decide +kernel
        have htext : (zero negative).toText = "0" := by
          cases negative <;> rfl
        have hsame : finite negative 0 representable = zero negative := rfl
        rw [hsame, htext, hzero]
        cases negative <;> rfl
      · have hne : finite negative units representable ≠ zero true := by
          intro h
          cases h
          exact hunits rfl
        rcases exists_numeral negative representable hunits with
          ⟨numeral, htext, hnonempty, hmarks, hread⟩
        rw [if_neg hne, htext, ofText_of_isMark hmarks hnonempty, hread]
        rfl

end Number
end Stencil
