import Mathlib.Data.List.Induction
import Stencil.Number.Text
import Stencil.Proofs.DecimalGrammar

/-!
# The grammar of numbers — which texts count as one

In a comparison a text counts as a number if, without the blanks around it, it is empty, a decimal
numeral, digits behind a base mark, or the word for infinity.  What stands behind a base mark is
meant to be digits alone, as many as there are.  What is read there is a little more and a little
less: one plus sign may precede the digits, and what they denote has to fit into sixty-four bits.

* `Digits.Denote`, `Digits.denote_iff` — digits and what they denote, in bases up to sixteen;
* `Number.Denotes` — the grammar, with what it allows behind a base mark left open;
* `Number.ofText_denotes` — the texts that count as a number, and as which one;
* `Number.ofText_denotes_not_bare` — they are not those with digits alone behind the mark.
-/

namespace Stencil

/-! ## Digits of a base -/

namespace Digits

/-- The digits of bases up to sixteen, in the order of their values. -/
def rows : List (List Char) := ["0123456789abcdef".toList, "0123456789ABCDEF".toList]

/-- A character that stands for a digit of a base. -/
def IsDigitOf (base digit : Nat) (c : Char) : Prop :=
  digit < base ∧ ∃ row ∈ rows, row[digit]? = some c

/-- Digits and what they denote: each further digit moves the others up by one place. -/
inductive Denote (base : Nat) : List Char → Nat → Prop where
  | nil : Denote base [] 0
  | concat {digits : List Char} {number digit : Nat} {c : Char} :
      Denote base digits number → IsDigitOf base digit c →
      Denote base (digits ++ [c]) (base * number + digit)

theorem toNat_le_toNat_toLower (c : Char) : c.toNat ≤ c.toLower.toNat := by
  unfold Char.toLower
  split
  · rename_i hletter
    have hle : c.val.toNat ≤ 90 := hletter.2
    have hadd : (c.val + ('a'.val - 'A'.val)).toNat = (c.val.toNat + 32) % 4294967296 :=
      UInt32.toNat_add _ _
    simp only [← Char.toNat_val, hadd]
    omega
  · exact Nat.le_refl _

/-- The digits of a base are those of base sixteen that have a value in it. -/
theorem isOfBase_iff {base : Nat} {c : Char} :
    isOfBase base c ↔ c ∈ rows.flatten ∧ value c < base := by
  have hshape : (c.isDigit || ('a' ≤ c.toLower && c.toLower ≤ 'f')) ↔ c ∈ rows.flatten := by
    constructor
    · intro h
      have hcode : c.toNat < 128 := by
        have hlower := toNat_le_toNat_toLower c
        simp [Char.isDigit, Char.le_def, UInt32.le_iff_toNat_le] at h
        omega
      have hall : ∀ code < 128, ((Char.ofNat code).isDigit ||
          ('a' ≤ (Char.ofNat code).toLower && (Char.ofNat code).toLower ≤ 'f')) →
          Char.ofNat code ∈ rows.flatten := by
        decide
      simpa using hall c.toNat hcode (by simpa using h)
    · have hall : rows.flatten.all fun d =>
          d.isDigit || ('a' ≤ d.toLower && d.toLower ≤ 'f') := by
        decide
      exact List.all_eq_true.1 hall c
  rw [isOfBase, Bool.and_eq_true, hshape, decide_eq_true_iff]

theorem isDigitOf_iff {base digit : Nat} {c : Char} :
    base ≤ 16 → (IsDigitOf base digit c ↔ isOfBase base c ∧ value c = digit) := by
  intro hbase
  rw [isOfBase_iff]
  constructor
  · rintro ⟨hdigit, row, hrow, hat⟩
    have hall : ∀ row ∈ rows, ∀ digit < 16, row[digit]?.map value = some digit := by decide
    have hvalue : value c = digit := by
      have hrow := hall row hrow digit (by omega)
      rw [hat] at hrow
      exact Option.some.inj hrow
    exact ⟨⟨List.mem_flatten.2 ⟨row, hrow, List.mem_of_getElem? hat⟩, by omega⟩, hvalue⟩
  · rintro ⟨⟨hmem, hless⟩, rfl⟩
    have hall : rows.flatten.all fun d => rows.any fun row => row[value d]? = some d := by decide
    exact ⟨hless, by simpa using List.all_eq_true.1 hall c hmem⟩

theorem toNat_concat (base : Nat) (digits : List Char) (c : Char) :
    toNat base (digits ++ [c]) = base * toNat base digits + value c := by
  simp [toNat]

/-- Digits denote what they are read as. -/
theorem denote_iff {base number : Nat} {digits : List Char} :
    base ≤ 16 →
      (Denote base digits number ↔
        digits.all (isOfBase base) ∧ toNat base digits = number) := by
  intro hbase
  constructor
  · intro h
    induction h with
    | nil =>
        exact ⟨rfl, rfl⟩
    | concat _ hdigit ih =>
        rcases (isDigitOf_iff hbase).1 hdigit with ⟨hc, rfl⟩
        exact ⟨by simp [ih.1, hc], by rw [toNat_concat, ih.2]⟩
  · rintro ⟨hdigits, rfl⟩
    induction digits using List.reverseRecOn with
    | nil =>
        exact .nil
    | append_singleton digits c ih =>
        have hparts : digits.all (isOfBase base) ∧ isOfBase base c := by simpa using hdigits
        rw [toNat_concat]
        exact .concat (ih hparts.1) ((isDigitOf_iff hbase).2 ⟨hparts.2, rfl⟩)

end Digits

namespace Number

/-! ## The grammar -/

/-- The base marks with their bases: the second character, of either case. -/
def baseMarks : List (Char × Nat) :=
  [('x', 16), ('X', 16), ('o', 8), ('O', 8), ('b', 2), ('B', 2)]

/-- Texts without blanks around them and the numbers that they denote.  What may stand between a
base mark and its digits, and what the digits may denote, is left open. -/
inductive Denotes (Allows : List Char → Nat → Prop) : List Char → Number → Prop where
  | blank : Denotes Allows [] (zero false)
  | decimal {text : List Char} {decimal : Decimal} :
      Decimal.Literal text decimal → Denotes Allows text (ofDecimal .double decimal)
  | based {mark : Char} {base number : Nat} {sign digits : List Char} :
      (mark, base) ∈ baseMarks → digits ≠ [] → Digits.Denote base digits number →
      Allows sign number → Denotes Allows ('0' :: mark :: (sign ++ digits)) (ofNat number)
  | infinity {sign : List Char} {negative : Bool} :
      Sign sign negative → Denotes Allows (sign ++ "Infinity".toList) (.infinite negative)

/-- Digits alone, whatever they denote. -/
def Bare (sign : List Char) (_ : Nat) : Prop := sign = []

/-- Digits with or without a plus sign, if what they denote fits into sixty-four bits. -/
def Fitting (sign : List Char) (number : Nat) : Prop :=
  (sign = [] ∨ sign = ['+']) ∧ number < UInt64.size

theorem ofDecimal_ne_nan (precision : Precision) (decimal : Decimal) :
    ofDecimal precision decimal ≠ nan := by
  unfold ofDecimal
  split
  · simp [zero]
  · split
    · simp
    · exact ofRatio_ne_nan _ _ _ _

variable {Allows : List Char → Nat → Prop}

theorem Denotes.ne_nan {text : List Char} {number : Number} :
    Denotes Allows text number → number ≠ nan := by
  intro h
  cases h with
  | blank =>
      simp [zero]
  | decimal _ =>
      exact ofDecimal_ne_nan _ _
  | based _ _ _ _ =>
      exact ofNat_ne_nan _
  | infinity _ =>
      simp

/-! ## Digits behind a base mark -/

theorem baseOf?_eq_some_iff {mark : Char} {base : Nat} :
    baseOf? mark = some base ↔ (mark, base) ∈ baseMarks := by
  constructor
  · intro h
    unfold baseOf? at h
    split at h <;> cases h <;> decide
  · have hall : ∀ pair ∈ baseMarks, baseOf? pair.1 = some pair.2 := by decide
    exact hall (mark, base)

theorem base_le_of_mem {mark : Char} {base : Nat} : (mark, base) ∈ baseMarks → base ≤ 16 := by
  intro h
  have hall : ∀ pair ∈ baseMarks, pair.2 ≤ 16 := by decide
  exact hall _ h

/-- The number of digits behind a base mark and its sign. -/
def readDigits (base : Nat) (digits : List Char) : Number :=
  if digits ≠ [] ∧ digits.all (Digits.isOfBase base) ∧ Digits.toNat base digits < UInt64.size then
    ofNat (Digits.toNat base digits)
  else
    nan

theorem readBased_plus (base : Nat) (digits : List Char) :
    readBased base ('+' :: digits) = readDigits base digits := rfl

theorem readBased_of_not_plus (base : Nat) {digits : List Char} :
    digits.head? ≠ some '+' → readBased base digits = readDigits base digits := by
  intro h
  cases digits with
  | nil =>
      rfl
  | cons c digits =>
      have hplus : c ≠ '+' := by simpa using h
      simp [readBased, readDigits, hplus]

theorem exists_denote_of_readBased {base : Nat} {text : List Char} :
    base ≤ 16 → readBased base text ≠ nan →
      ∃ sign digits number, text = sign ++ digits ∧ digits ≠ [] ∧
        Digits.Denote base digits number ∧ Fitting sign number := by
  intro hbase h
  have hread : ∀ {sign digits : List Char}, sign = [] ∨ sign = ['+'] →
      readDigits base digits ≠ nan →
      digits ≠ [] ∧ ∃ number, Digits.Denote base digits number ∧ Fitting sign number := by
    intro sign digits hsign hnumber
    unfold readDigits at hnumber
    split at hnumber
    · rename_i hgood
      rcases hgood with ⟨hne, hdigits, hless⟩
      exact ⟨hne, _, (Digits.denote_iff hbase).2 ⟨hdigits, rfl⟩, hsign, hless⟩
    · exact absurd rfl hnumber
  by_cases hplus : text.head? = some '+'
  · rcases List.head?_eq_some_iff.1 hplus with ⟨digits, rfl⟩
    rw [readBased_plus] at h
    rcases hread (.inr rfl) h with ⟨hne, number, hdenote, hfits⟩
    exact ⟨['+'], digits, number, rfl, hne, hdenote, hfits⟩
  · rw [readBased_of_not_plus base hplus] at h
    rcases hread (.inl rfl) h with ⟨hne, number, hdenote, hfits⟩
    exact ⟨[], text, number, rfl, hne, hdenote, hfits⟩

theorem readBased_of_denote {base number : Nat} {sign digits : List Char} :
    base ≤ 16 → digits ≠ [] → Digits.Denote base digits number → Fitting sign number →
      readBased base (sign ++ digits) = ofNat number := by
  rintro hbase hne hdenote ⟨hsign, hless⟩
  rcases (Digits.denote_iff hbase).1 hdenote with ⟨hdigits, rfl⟩
  have hread : readDigits base digits = ofNat (Digits.toNat base digits) :=
    if_pos ⟨hne, hdigits, hless⟩
  rcases hsign with rfl | rfl
  · -- The sign that may precede digits is none of them.
    have hplus : digits.head? ≠ some '+' := by
      intro hhead
      have hplus := List.all_eq_true.1 hdigits '+' (List.mem_of_head? hhead)
      exact absurd (Digits.isOfBase_iff.1 hplus).1 (by decide)
    rw [List.nil_append, readBased_of_not_plus base hplus, hread]
  · rw [List.singleton_append, readBased_plus, hread]

/-! ## Texts without a base mark -/

/-- The word for infinity is found behind at most one sign. -/
theorem infinity_iff {text : List Char} :
    (text.dropWhile isSign = "Infinity".toList ∧
        text.length ≤ (text.dropWhile isSign).length + 1) ↔
      ∃ sign negative, Sign sign negative ∧ text = sign ++ "Infinity".toList := by
  constructor
  · rintro ⟨hword, hlength⟩
    have hsplit : text.takeWhile isSign ++ "Infinity".toList = text := by
      rw [← hword, List.takeWhile_append_dropWhile]
    have hsigns : ∀ c ∈ text.takeWhile isSign, isSign c :=
      List.all_eq_true.1 List.all_takeWhile
    have hfew : (text.takeWhile isSign).length ≤ 1 := by
      have hsum := congrArg List.length hsplit
      rw [List.length_append, ← hword] at hsum
      omega
    rw [← hsplit]
    generalize text.takeWhile isSign = signs at hsigns hfew
    match signs with
    | [] =>
        exact ⟨_, _, .absent, rfl⟩
    | [c] =>
        have hc : c = '+' ∨ c = '-' := by simpa [isSign] using hsigns c
        rcases hc with rfl | rfl
        · exact ⟨_, _, .plus, rfl⟩
        · exact ⟨_, _, .minus, rfl⟩
    | _ :: _ :: _ =>
        simp at hfew
  · rintro ⟨sign, negative, hsign, rfl⟩
    cases hsign <;> decide

theorem readDecimal_of_infinity {sign : List Char} {negative : Bool} :
    Sign sign negative → readDecimal (sign ++ "Infinity".toList) = .infinite negative := by
  intro h
  cases h <;> decide

theorem readDecimal_of_literal {text : List Char} {decimal : Decimal} :
    Decimal.Literal text decimal → readDecimal text = ofDecimal .double decimal := by
  intro h
  have hread := Decimal.read?_eq_some_iff.2 h
  have hword : ¬ (text.dropWhile isSign = "Infinity".toList ∧
      text.length ≤ (text.dropWhile isSign).length + 1) := by
    intro hinfinity
    rcases infinity_iff.1 hinfinity with ⟨sign, negative, hsign, rfl⟩
    cases hsign <;> cases hread
  rw [readDecimal, if_neg hword, hread]
  rfl

theorem denotes_of_readDecimal {text : List Char} :
    readDecimal text ≠ nan → ∃ number, Denotes Allows text number := by
  intro h
  by_cases hword : text.dropWhile isSign = "Infinity".toList ∧
      text.length ≤ (text.dropWhile isSign).length + 1
  · rcases infinity_iff.1 hword with ⟨sign, negative, hsign, rfl⟩
    exact ⟨_, .infinity hsign⟩
  · rw [readDecimal, if_neg hword] at h
    cases hread : Decimal.read? text with
    | none =>
        exact absurd (by rw [hread]; rfl) h
    | some decimal =>
        exact ⟨_, .decimal (Decimal.read?_eq_some_iff.1 hread)⟩

/-- A base mark is no part of a decimal numeral. -/
theorem not_literal_of_base {mark : Char} {base : Nat} {rest : List Char} {decimal : Decimal} :
    (mark, base) ∈ baseMarks → ¬ Decimal.Literal ('0' :: mark :: rest) decimal := by
  intro hmark hliteral
  have hall : ∀ pair ∈ baseMarks,
      ¬ pair.1.isDigit ∧ pair.1 ≠ '.' ∧ pair.1 ≠ 'e' ∧ pair.1 ≠ 'E' := by
    decide
  rcases hall _ hmark with ⟨hdigit, hpoint, hlower, hupper⟩
  have hread := Decimal.read?_eq_some_iff.2 hliteral
  simp [Decimal.read?, Decimal.splitSign, Digits.leading, Digits.behind, Decimal.splitFraction,
    Decimal.readExponent?, hdigit, hpoint, hlower, hupper] at hread

/-- A text with a base mark denotes nothing but what is behind the mark. -/
theorem Denotes.behind_mark {mark : Char} {base : Nat} {rest : List Char} {number : Number} :
    Denotes Allows ('0' :: mark :: rest) number → (mark, base) ∈ baseMarks →
      ∃ sign digits amount, rest = sign ++ digits ∧ digits ≠ [] ∧
        Digits.Denote base digits amount ∧ Allows sign amount ∧ number = ofNat amount := by
  intro h hmark
  generalize htext : '0' :: mark :: rest = text at h
  cases h with
  | blank =>
      cases htext
  | decimal hliteral =>
      rw [← htext] at hliteral
      exact absurd hliteral (not_literal_of_base hmark)
  | based hmark' hne hdenote hallowed =>
      rename_i mark' base' amount sign digits
      have hparts : mark = mark' ∧ rest = sign ++ digits := by simpa using htext
      rcases hparts with ⟨rfl, rfl⟩
      have hbase : base' = base := by
        have hsame := baseOf?_eq_some_iff.2 hmark'
        rw [baseOf?_eq_some_iff.2 hmark] at hsame
        cases hsame
        rfl
      subst hbase
      exact ⟨sign, digits, amount, rfl, hne, hdenote, hallowed, rfl⟩
  | infinity hsign =>
      cases hsign <;> simp at htext

/-! ## What a text counts as -/

theorem ofText_of_blank {text : String} :
    Text.trimBlank text.toList = [] → ofText text = zero false := by
  intro h
  rw [ofText, h]

theorem ofText_of_base {text : String} {mark : Char} {base : Nat} {digits : List Char} :
    Text.trimBlank text.toList = '0' :: mark :: digits → baseOf? mark = some base →
      ofText text = readBased base digits := by
  intro htrim hbase
  simp only [ofText, htrim, hbase]

theorem ofText_of_no_base {text : String} :
    Text.trimBlank text.toList ≠ [] →
      (∀ mark digits, Text.trimBlank text.toList = '0' :: mark :: digits → baseOf? mark = none) →
      ofText text = readDecimal (Text.trimBlank text.toList) := by
  intro hne hmark
  unfold ofText
  split
  · rename_i htrim
    exact absurd htrim hne
  · rename_i mark digits htrim
    rw [hmark mark digits htrim, htrim]
  · rfl

theorem ofText_of_denotes {text : String} {number : Number} :
    Denotes Fitting (Text.trimBlank text.toList) number → ofText text = number := by
  intro h
  generalize htrim : Text.trimBlank text.toList = trimmed at h
  cases h with
  | blank =>
      exact ofText_of_blank htrim
  | decimal hliteral =>
      have hne : trimmed ≠ [] := by
        rintro rfl
        cases Decimal.read?_eq_some_iff.2 hliteral
      have hmark : ∀ mark digits, trimmed = '0' :: mark :: digits → baseOf? mark = none := by
        rintro mark digits rfl
        cases hbase : baseOf? mark with
        | none =>
            rfl
        | some base =>
            exact absurd hliteral (not_literal_of_base (baseOf?_eq_some_iff.1 hbase))
      rw [← readDecimal_of_literal hliteral, ← htrim]
      exact ofText_of_no_base (by rwa [htrim]) (by rwa [htrim])
  | based hmark hne hdenote hfits =>
      rw [ofText_of_base htrim (baseOf?_eq_some_iff.2 hmark)]
      exact readBased_of_denote (base_le_of_mem hmark) hne hdenote hfits
  | infinity hsign =>
      rw [← readDecimal_of_infinity hsign, ← htrim]
      refine ofText_of_no_base ?_ ?_ <;> rw [htrim] <;> cases hsign <;> simp

theorem exists_denotes {text : String} :
    ofText text ≠ nan → ∃ number, Denotes Fitting (Text.trimBlank text.toList) number := by
  intro h
  by_cases hblank : Text.trimBlank text.toList = []
  · rw [hblank]
    exact ⟨_, .blank⟩
  · by_cases hbased : ∃ mark digits base,
        Text.trimBlank text.toList = '0' :: mark :: digits ∧ baseOf? mark = some base
    · rcases hbased with ⟨mark, digits, base, htrim, hbase⟩
      rw [ofText_of_base htrim hbase] at h
      have hmark := baseOf?_eq_some_iff.1 hbase
      rcases exists_denote_of_readBased (base_le_of_mem hmark) h with
        ⟨sign, digits, number, rfl, hne, hdenote, hfits⟩
      rw [htrim]
      exact ⟨_, .based hmark hne hdenote hfits⟩
    · have hnone : ∀ mark digits,
          Text.trimBlank text.toList = '0' :: mark :: digits → baseOf? mark = none := by
        intro mark digits htrim
        by_contra hsome
        rcases Option.ne_none_iff_exists'.1 hsome with ⟨base, hbase⟩
        exact hbased ⟨mark, digits, base, htrim, hbase⟩
      rw [ofText_of_no_base hblank hnone] at h
      exact denotes_of_readDecimal h

/-- A text counts as the number that it denotes, a plus sign being allowed behind a base mark and
only what fits into sixty-four bits; all other texts count as not-a-number. -/
theorem ofText_denotes (text : String) :
    (ofText text = nan ↔ ∀ number, ¬ Denotes Fitting (Text.trimBlank text.toList) number) ∧
      ∀ number, Denotes Fitting (Text.trimBlank text.toList) number → ofText text = number := by
  refine ⟨⟨?_, ?_⟩, fun number => ofText_of_denotes⟩
  · intro hnan number hdenotes
    exact hdenotes.ne_nan ((ofText_of_denotes hdenotes).symm.trans hnan)
  · intro h
    by_contra hsome
    rcases exists_denotes hsome with ⟨number, hdenotes⟩
    exact h number hdenotes

theorem ofText_denotes_signed :
    let text := " 0x+1F\n"
    let trimmed := Text.trimBlank text.toList
    Denotes Fitting trimmed (ofNat 31) ∧ ofText text = ofNat 31 ∧ ofText text ≠ nan := by
  intro text trimmed
  have htrim : trimmed = '0' :: 'x' :: (['+'] ++ "1F".toList) := by
    subst trimmed text
    decide +kernel
  have hdigits : Digits.Denote 16 "1F".toList 31 :=
    (Digits.denote_iff (by decide)).2 (by decide)
  have hdenotes : Denotes Fitting trimmed (ofNat 31) := by
    rw [htrim]
    exact .based (by decide) (by decide) hdigits ⟨by decide, by decide⟩
  refine ⟨hdenotes, (ofText_denotes text).2 _ hdenotes, ?_⟩
  exact fun hnan => (ofText_denotes text).1.1 hnan _ hdenotes

/-- What is read is not what digits alone would denote: a text with a plus sign between the base
mark and its digits counts as a number, and digits that do not fit into sixty-four bits count as
none. -/
theorem ofText_denotes_not_bare :
    let signed := "0x+1F"
    let long := "0x10000000000000000"
    ¬ (ofText signed = nan ↔ ∀ number, ¬ Denotes Bare (Text.trimBlank signed.toList) number) ∧
      ¬ ∀ number, Denotes Bare (Text.trimBlank long.toList) number → ofText long = number := by
  intro signed long
  constructor
  · have hread : ofText signed ≠ nan := by
      subst signed
      decide +kernel
    intro h
    refine hread (h.2 fun number hdenotes => ?_)
    have htrim : Text.trimBlank signed.toList = '0' :: 'x' :: "+1F".toList := by
      subst signed
      decide +kernel
    rw [htrim] at hdenotes
    have hmark : ('x', 16) ∈ baseMarks := by decide
    rcases hdenotes.behind_mark hmark with
      ⟨sign, digits, amount, hsame, -, hdenote, hbare, -⟩
    subst hbare
    rw [List.nil_append] at hsame
    rw [← hsame] at hdenote
    exact absurd ((Digits.denote_iff (by decide)).1 hdenote).1 (by decide)
  · have hread : ofText long = nan := by
      subst long
      decide +kernel
    have htrim : Text.trimBlank long.toList = '0' :: 'x' :: ([] ++ "10000000000000000".toList) := by
      subst long
      decide +kernel
    have hdigits : Digits.Denote 16 "10000000000000000".toList UInt64.size :=
      (Digits.denote_iff (by decide)).2 (by decide)
    intro h
    have hnumber := h (ofNat UInt64.size) (htrim ▸ .based (by decide) (by decide) hdigits rfl)
    rw [hread] at hnumber
    exact ofNat_ne_nan _ hnumber.symm

end Number
end Stencil
