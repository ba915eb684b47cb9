import Mathlib.Data.List.Basic
import Stencil.Number.Layout
import Stencil.Proofs.DecimalGrammar

/-!
# Numerals — what is written for a decimal is read as the same amount

A numeral has digits in front of a point, digits behind it, and an exponent.  However a decimal is
laid out, its numeral is read as a decimal of the same amount.

* `Digits.toNat_ofNat` — the digits of a number are read as the number;
* `Decimal.Spells`, `Decimal.Spells.read?` — the parts of a numeral, and what they are read as;
* `Layout.read?_write` — a written decimal is read as the same amount.
-/

namespace Stencil

/-! ## Digits -/

namespace Digits

attribute [local instance (high)] instPowNat

/-- Decimal digits are read as the core library reads them. -/
theorem toNat_eq_ofDigitChars {digits : List Char} :
    (∀ c ∈ digits, c.isDigit) → toNat 10 digits = Nat.ofDigitChars 10 digits 0 := by
  intro h
  rw [toNat, Nat.ofDigitChars_eq_foldl]
  refine List.foldl_ext _ _ _ fun total c hmem => ?_
  rw [value, if_pos (h c hmem)]

theorem isDigit_of_mem_ofNat {number : Nat} {c : Char} : c ∈ ofNat number → c.isDigit :=
  Nat.isDigit_of_mem_toDigits (by decide) (by decide)

theorem ofNat_ne_nil (number : Nat) : ofNat number ≠ [] := Nat.toDigits_ne_nil

/-- The digits of a number are read as the number. -/
theorem toNat_ofNat (number : Nat) : toNat 10 (ofNat number) = number := by
  rw [toNat_eq_ofDigitChars fun c => isDigit_of_mem_ofNat]
  exact Nat.ofDigitChars_ten_toDigits

/-- The digits of a number do not start with zero, unless they are zero alone. -/
theorem leading_ofNat (number : Nat) :
    ofNat number = ['0'] ∨ (ofNat number).head? ≠ some '0' := by
  induction number using Nat.strongRecOn with
  | ind number ih =>
      rcases Nat.lt_or_ge number 10 with hsmall | hlarge
      · have hdigits : ∀ digit < 10, ofNat digit = ['0'] ∨ (ofNat digit).head? ≠ some '0' := by
          decide
        exact hdigits number hsmall
      · have hsplit : ofNat number = ofNat (number / 10) ++ [Nat.digitChar (number % 10)] :=
          Nat.toDigits_of_base_le (by decide) hlarge
        rw [hsplit, List.head?_append_of_ne_nil _ (ofNat_ne_nil _)]
        rcases ih (number / 10) (by omega) with hzero | hother
        · have hnone : number / 10 = 0 := by
            rw [← toNat_ofNat (number / 10), hzero]
            rfl
          omega
        · exact .inr hother

theorem isDigit_of_mem_zeros {count : Nat} {c : Char} :
    c ∈ List.replicate count '0' → c.isDigit := by
  intro h
  rw [List.eq_of_mem_replicate h]
  decide

/-- Zeros behind digits multiply by powers of ten. -/
theorem toNat_append_zeros {digits : List Char} (count : Nat) :
    (∀ c ∈ digits, c.isDigit) →
      toNat 10 (digits ++ List.replicate count '0') = toNat 10 digits * 10 ^ count := by
  intro h
  have hall : ∀ c ∈ digits ++ List.replicate count '0', c.isDigit := by
    intro c hmem
    exact (List.mem_append.1 hmem).elim (h c) isDigit_of_mem_zeros
  rw [toNat_eq_ofDigitChars hall, toNat_eq_ofDigitChars h, Nat.ofDigitChars_append,
    Nat.ofDigitChars_replicate_zero, Nat.mul_comm]

/-- Zeros in front of digits change nothing. -/
theorem toNat_zeros_append {digits : List Char} (count : Nat) :
    (∀ c ∈ digits, c.isDigit) →
      toNat 10 (List.replicate count '0' ++ digits) = toNat 10 digits := by
  intro h
  have hall : ∀ c ∈ List.replicate count '0' ++ digits, c.isDigit := by
    intro c hmem
    exact (List.mem_append.1 hmem).elim isDigit_of_mem_zeros (h c)
  rw [toNat_eq_ofDigitChars hall, toNat_eq_ofDigitChars h, Nat.ofDigitChars_append,
    Nat.ofDigitChars_replicate_zero, Nat.mul_zero]

/-- What is dropped at the end of digits are zeros. -/
theorem exists_dropFinalZeros (digits : List Char) :
    ∃ zeros, digits = dropFinalZeros digits ++ List.replicate zeros '0' := by
  have hsplit := List.takeWhile_append_dropWhile (p := (· = '0')) (l := digits.reverse)
  have hzeros : digits.reverse.takeWhile (· = '0') =
      List.replicate (digits.reverse.takeWhile (· = '0')).length '0' := by
    refine List.eq_replicate_iff.2 ⟨rfl, fun c hmem => ?_⟩
    simpa using List.all_eq_true.1 List.all_takeWhile c hmem
  refine ⟨(digits.reverse.takeWhile (· = '0')).length, ?_⟩
  rw [dropFinalZeros, ← List.reverse_replicate, ← hzeros, ← List.reverse_append, hsplit,
    List.reverse_reverse]

end Digits

/-! ## Numerals -/

namespace Decimal

attribute [local instance (high)] instPowNat

/-- The digits behind the point of a numeral, with the point if there are any. -/
def pointed : List Char → List Char
  | [] => []
  | c :: fraction => '.' :: c :: fraction

/-- What stands behind the digits of a numeral: nothing, or an exponent with its sign. -/
inductive Tail : List Char → Int → Prop where
  | none : Tail [] 0
  | exponent (negative : Bool) {digits : List Char} :
      digits ≠ [] → (∀ c ∈ digits, c.isDigit) →
      Tail ('e' :: (if negative then '-' else '+') :: digits)
        (Number.signed negative (Digits.toNat 10 digits))

/-- A numeral without a sign, as its digits in front of the point, those behind it, and its
exponent. -/
structure Spells (text whole fraction : List Char) (exponent : Int) : Prop where
  whole_ne_nil : whole ≠ []
  whole_digits : ∀ c ∈ whole, c.isDigit
  fraction_digits : ∀ c ∈ fraction, c.isDigit
  eq : ∃ tail, Tail tail exponent ∧ text = whole ++ (pointed fraction ++ tail)

/-- The characters that numerals are made of. -/
def IsMark (c : Char) : Prop := c.isDigit ∨ c = '.' ∨ c = 'e' ∨ c = '+' ∨ c = '-'

theorem Tail.head {tail : List Char} {exponent : Int} :
    Tail tail exponent → tail = [] ∨ ∃ more, tail = 'e' :: more := by
  intro h
  cases h with
  | none =>
      exact .inl rfl
  | exponent negative hne hdigits =>
      exact .inr ⟨_, rfl⟩

theorem Tail.exponent_of_tail {tail : List Char} {exponent : Int} :
    Tail tail exponent → Exponent tail exponent := by
  intro h
  cases h with
  | none =>
      exact .absent
  | exponent negative hne hdigits =>
      cases negative with
      | false =>
          exact .marked (.inl rfl) .plus hne hdigits
      | true =>
          exact .marked (.inl rfl) .minus hne hdigits

theorem fraction_pointed {fraction : List Char} :
    (∀ c ∈ fraction, c.isDigit) → Fraction (pointed fraction) fraction := by
  intro h
  cases fraction with
  | nil =>
      exact .absent
  | cons c fraction =>
      exact .pointed h

/-- A numeral is read as what it spells. -/
theorem Spells.read? {text whole fraction : List Char} {exponent : Int} (negative : Bool) :
    Spells text whole fraction exponent →
      Decimal.read? (if negative then '-' :: text else text) =
        some (ofDigits negative whole fraction exponent) := by
  rintro ⟨hne, hwhole, hfraction, tail, htail, rfl⟩
  have hparts : ∀ {sign : List Char}, Sign sign negative →
      Literal (sign ++ (whole ++ (pointed fraction ++ tail)))
        (ofDigits negative whole fraction exponent) := fun hsign =>
    .parts hsign hwhole (fraction_pointed hfraction) (.inl hne) htail.exponent_of_tail
  cases negative with
  | false =>
      exact (hparts .absent).read?
  | true =>
      exact (hparts .minus).read?

theorem Spells.isMark {text whole fraction : List Char} {exponent : Int} :
    Spells text whole fraction exponent → ∀ c ∈ text, IsMark c := by
  rintro ⟨_, hwhole, hfraction, tail, htail, rfl⟩ c hmem
  have htailMarks : ∀ d ∈ tail, IsMark d := by
    intro d hd
    cases htail with
    | none =>
        cases hd
    | exponent negative _ hdigits =>
        cases negative <;>
          (simp only [List.mem_cons] at hd
           rcases hd with rfl | hsign | hd
           · simp [IsMark]
           · simp_all [IsMark]
           · exact .inl (hdigits d hd))
  simp only [List.mem_append] at hmem
  rcases hmem with hmem | hmem | hmem
  · exact .inl (hwhole c hmem)
  · cases fraction with
    | nil =>
        cases hmem
    | cons d fraction =>
        rcases List.mem_cons.1 hmem with rfl | hmem
        · simp [IsMark]
        · exact .inl (hfraction c hmem)
  · exact htailMarks c hmem

/-- The same amount with more zeros at the end of the coefficient. -/
def lower (decimal : Decimal) (count : Nat) : Decimal :=
  { decimal with
    coefficient := decimal.coefficient * 10 ^ count
    exponent := decimal.exponent - count }

theorem negative_lower (decimal : Decimal) (count : Nat) :
    (decimal.lower count).negative = decimal.negative := rfl

end Decimal

/-! ## What a layout writes -/

namespace Layout

open Decimal (Spells Tail IsMark)

attribute [local instance (high)] instPowNat

variable {digits : List Char} {point : Int}

/-- A whole number gets nothing behind its digits, or a point and zeros. -/
def Plain (layout : Layout) : Prop :=
  ∃ zeros, layout.fractionOfWhole = Decimal.pointed (List.replicate zeros '0')

/-- A numeral that spells digits with the decimal point behind the first `point` of them, and
`count` zeros more. -/
structure Lays (digits : List Char) (point : Int) (text whole fraction : List Char) (exponent : Int)
    (count : Nat) : Prop where
  spells : Spells text whole fraction exponent
  value : Digits.toNat 10 (whole ++ fraction) = Digits.toNat 10 digits * 10 ^ count
  places : exponent - (fraction.length : Int) = point - digits.length - count
  head : whole = ['0'] ∨ whole.head? = digits.head?

/-- Digits with a point in front of them, behind them or between them.  Zeros may fill up the whole
number and follow its point. -/
theorem lays_writePositional {layout : Layout} (plain : layout.Plain) (nonempty : digits ≠ [])
    (isDigit : ∀ c ∈ digits, c.isDigit) :
    ∃ (count : Nat) (whole fraction : List Char),
      Lays digits point (layout.writePositional digits point) whole fraction 0 count ∧
      count ≤ point.toNat + layout.fractionOfWhole.length ∧
      (layout.fractionOfWhole ≠ [] → fraction ≠ []) := by
  unfold writePositional
  split
  · -- The point stands in front of all digits, with zeros between.
    rename_i hpoint
    have hzeros : ['0'] ++ (List.replicate (-point).toNat '0' ++ digits) =
        List.replicate ((-point).toNat + 1) '0' ++ digits := rfl
    refine ⟨0, ['0'], List.replicate (-point).toNat '0' ++ digits, ⟨?_, ?_, ?_, .inl rfl⟩,
      Nat.zero_le _, fun _ => by simp [nonempty]⟩
    · refine ⟨by simp, by simp, ?_, [], .none, ?_⟩
      · intro c hmem
        exact (List.mem_append.1 hmem).elim Digits.isDigit_of_mem_zeros (isDigit c)
      · cases hfraction : List.replicate (-point).toNat '0' ++ digits with
        | nil =>
            simp_all
        | cons c fraction =>
            simp [Decimal.pointed]
    · rw [hzeros, Digits.toNat_zeros_append _ isDigit, Nat.pow_zero, Nat.mul_one]
    · simp
      omega
  · split
    · -- It would stand behind all digits, so zeros fill up the whole number.
      rename_i hpoint
      rcases plain with ⟨zeros, hplain⟩
      have hlength : zeros ≤ layout.fractionOfWhole.length := by
        rw [hplain]
        cases zeros <;> simp [Decimal.pointed, List.replicate_succ]
      have hfill : ∀ c ∈ digits ++ List.replicate (point.toNat - digits.length) '0', c.isDigit := by
        intro c hmem
        exact (List.mem_append.1 hmem).elim (isDigit c) Digits.isDigit_of_mem_zeros
      refine ⟨point.toNat - digits.length + zeros,
        digits ++ List.replicate (point.toNat - digits.length) '0', List.replicate zeros '0',
        ⟨?_, ?_, ?_, ?_⟩, by omega, ?_⟩
      · exact ⟨by simp [nonempty], hfill, fun c => Digits.isDigit_of_mem_zeros, [], .none,
          by simp [hplain]⟩
      · rw [Digits.toNat_append_zeros _ hfill, Digits.toNat_append_zeros _ isDigit, Nat.pow_add,
          Nat.mul_assoc]
      · simp
        omega
      · exact .inr (List.head?_append_of_ne_nil _ nonempty)
      · rw [hplain]
        cases zeros <;> simp [Decimal.pointed, List.replicate_succ]
    · -- It stands between two digits.
      rename_i hpos hlength
      have hinside : point.toNat < digits.length := by omega
      refine ⟨0, digits.take point.toNat, digits.drop point.toNat, ⟨?_, ?_, ?_, ?_⟩,
        Nat.zero_le _, ?_⟩
      · refine ⟨?_, fun c hmem => isDigit c (List.mem_of_mem_take hmem),
          fun c hmem => isDigit c (List.mem_of_mem_drop hmem), [], .none, ?_⟩
        · simp [nonempty]
          omega
        · cases hfraction : digits.drop point.toNat with
          | nil =>
              simp at hfraction
              omega
          | cons c fraction =>
              simp [Decimal.pointed]
      · rw [List.take_append_drop, Nat.pow_zero, Nat.mul_one]
      · simp
        omega
      · exact .inr (by rw [List.head?_take, if_neg (by omega)])
      · simpa using fun _ => hinside

/-- Digits with a point behind the first of them, and an exponent. -/
theorem lays_writeExponential (nonempty : digits ≠ []) (isDigit : ∀ c ∈ digits, c.isDigit) :
    Lays digits point (writeExponential digits point) (digits.take 1) (digits.drop 1) (point - 1)
      0 := by
  have hexponent : Number.signed (decide (point - 1 < 0))
      (Digits.toNat 10 (Digits.ofNat (point - 1).natAbs)) = point - 1 := by
    rw [Digits.toNat_ofNat, Number.signed]
    by_cases hnegative : point - 1 < 0
    · rw [if_pos (decide_eq_true hnegative)]
      omega
    · rw [if_neg (by simpa using hnegative)]
      omega
  have htail := Tail.exponent (decide (point - 1 < 0)) (Digits.ofNat_ne_nil (point - 1).natAbs)
    fun c => Digits.isDigit_of_mem_ofNat
  rw [hexponent] at htail
  refine ⟨⟨by simpa using nonempty, fun c hmem => isDigit c (List.mem_of_mem_take hmem),
    fun c hmem => isDigit c (List.mem_of_mem_drop hmem), _, htail, ?_⟩, ?_, ?_, ?_⟩
  · have hpointed : (if digits.length ≤ 1 then [] else '.' :: digits.drop 1) =
        Decimal.pointed (digits.drop 1) := by
      match digits with
      | [] | [_] => rfl
      | _ :: _ :: _ => simp [Decimal.pointed]
    simp only [writeExponential, hpointed, List.append_assoc, decide_eq_true_eq]
  · rw [List.take_append_drop, Nat.pow_zero, Nat.mul_one]
  · have hpos := List.length_pos_iff.2 nonempty
    simp
    omega
  · exact .inr (by rw [List.head?_take, if_neg Nat.one_ne_zero])

/-- The numeral of a decimal without its sign. -/
def writeUnsigned (layout : Layout) (digits : List Char) (point : Int) : List Char :=
  if layout.leastPoint ≤ point ∧ point ≤ layout.greatestPoint then
    layout.writePositional digits point
  else
    writeExponential digits point

/-- The parts of the numeral that a layout writes for a decimal: they spell its amount.  With digits
behind the point of a whole number, the numeral has a fraction or an exponent. -/
structure Writes (layout : Layout) (decimal : Decimal) (unsigned whole fraction : List Char)
    (exponent : Int) (count : Nat) : Prop where
  eq : layout.write decimal = if decimal.negative then '-' :: unsigned else unsigned
  spells : Spells unsigned whole fraction exponent
  amount : Decimal.ofDigits decimal.negative whole fraction exponent = decimal.lower count
  few : count ≤ layout.greatestPoint.toNat + layout.fractionOfWhole.length
  head : whole = ['0'] ∨ whole.head? = (Digits.ofNat decimal.coefficient).head?
  broken : layout.fractionOfWhole ≠ [] → layout.leastPoint ≤ 1 ∧ 1 ≤ layout.greatestPoint →
    fraction ≠ [] ∨ exponent ≠ 0

theorem exists_writes {layout : Layout} (plain : layout.Plain) (decimal : Decimal) :
    ∃ (unsigned whole fraction : List Char) (exponent : Int) (count : Nat),
      layout.Writes decimal unsigned whole fraction exponent count := by
  rcases decimal with ⟨negative, coefficient, exponent⟩
  let digits := Digits.ofNat coefficient
  obtain ⟨point, hpoint⟩ : ∃ point : Int, point = digits.length + exponent := ⟨_, rfl⟩
  have hnonempty : digits ≠ [] := Digits.ofNat_ne_nil coefficient
  have hdigits : ∀ c ∈ digits, c.isDigit := fun c => Digits.isDigit_of_mem_ofNat
  -- Whatever lays out these digits at this point spells the amount.
  have hamount : ∀ {text whole fraction : List Char} {shown : Int} {count : Nat},
      Lays digits point text whole fraction shown count →
        Decimal.ofDigits negative whole fraction shown =
          Decimal.lower ⟨negative, coefficient, exponent⟩ count := by
    intro text whole fraction shown count h
    have hplaces : shown - (fraction.length : Int) = exponent - count := by
      have := h.places
      omega
    rw [Decimal.ofDigits, h.value, hplaces, Digits.toNat_ofNat, Decimal.lower]
  have heq : layout.write ⟨negative, coefficient, exponent⟩ =
      if negative then '-' :: layout.writeUnsigned digits point
      else layout.writeUnsigned digits point := by
    rw [hpoint]
    rfl
  by_cases hrange : layout.leastPoint ≤ point ∧ point ≤ layout.greatestPoint
  · rcases @lays_writePositional digits point layout plain hnonempty hdigits with
      ⟨count, whole, fraction, hlays, hfew, hbroken⟩
    rw [writeUnsigned, if_pos hrange] at heq
    exact ⟨_, whole, fraction, 0, count, heq, hlays.spells, hamount hlays, by omega, hlays.head,
      fun hfraction _ => .inl (hbroken hfraction)⟩
  · have hlays := @lays_writeExponential digits point hnonempty hdigits
    rw [writeUnsigned, if_neg hrange] at heq
    exact ⟨_, _, _, _, 0, heq, hlays.spells, hamount hlays, Nat.zero_le _, hlays.head,
      fun _ hone => .inr (by omega)⟩

/-- A numeral is read as the amount it was written for. -/
theorem read?_write {layout : Layout} (plain : layout.Plain) (decimal : Decimal) :
    (∀ c ∈ layout.write decimal, IsMark c) ∧
      ∃ count : Nat, Decimal.read? (layout.write decimal) = some (decimal.lower count) := by
  rcases exists_writes plain decimal with ⟨unsigned, whole, fraction, exponent, count, hwrites⟩
  rw [hwrites.eq]
  constructor
  · intro c hmem
    split at hmem
    · rcases List.mem_cons.1 hmem with rfl | hmem
      · simp [IsMark]
      · exact hwrites.spells.isMark c hmem
    · exact hwrites.spells.isMark c hmem
  · exact ⟨count, by rw [hwrites.spells.read?, hwrites.amount]⟩

end Layout

end Stencil
