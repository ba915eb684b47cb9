import Stencil.Number.Decimal

/-!
# The grammar of decimals — which texts are numerals, and what they denote

A decimal numeral is an optional sign, digits with an optional point among or around them, and an
optional exponent with a sign of its own.  This file says so as a relation between a text and its
decimal and proves that `Decimal.read?` decides it: what is cut off one part after the other are the
parts of the grammar, and there is only one way to cut.

* `Sign`, `Decimal.Fraction`, `Decimal.Exponent` — the parts;
* `Decimal.Literal` — a numeral with its decimal;
* `Decimal.read?_eq_some_iff` — it is what is read.
-/

namespace Stencil

/-! ## Digits -/

namespace Digits

/-- Digits in front of a text that starts with none are its leading digits. -/
theorem leading_append {digits rest : List Char} :
    (∀ c ∈ digits, c.isDigit) → (∀ c ∈ rest.head?, ¬ c.isDigit) →
      leading (digits ++ rest) = digits ∧ behind (digits ++ rest) = rest := by
  intro hdigits hrest
  have hnone : leading rest = [] ∧ behind rest = rest := by
    cases rest with
    | nil =>
        exact ⟨rfl, rfl⟩
    | cons c rest =>
        have hc : ¬ c.isDigit := hrest c (by simp)
        simp [leading, behind, hc]
  rw [leading, behind, List.takeWhile_append_of_pos hdigits, List.dropWhile_append_of_pos hdigits]
  exact ⟨by rw [← leading, hnone.1, List.append_nil], hnone.2⟩

theorem leading_append_behind (text : List Char) : leading text ++ behind text = text :=
  List.takeWhile_append_dropWhile

theorem isDigit_of_mem_leading {text : List Char} {c : Char} : c ∈ leading text → c.isDigit :=
  fun h => List.all_eq_true.1 List.all_takeWhile c h

end Digits

/-! ## The parts of a numeral -/

/-- An optional sign, and whether it is a minus sign. -/
inductive Sign : List Char → Bool → Prop where
  | absent : Sign [] false
  | plus : Sign ['+'] false
  | minus : Sign ['-'] true

namespace Decimal

/-- An optional point and the digits behind it. -/
inductive Fraction : List Char → List Char → Prop where
  | absent : Fraction [] []
  | pointed {digits : List Char} :
      (∀ c ∈ digits, c.isDigit) → Fraction ('.' :: digits) digits

/-- An optional exponent: a letter `e` of either case, an optional sign and at least one digit. -/
inductive Exponent : List Char → Int → Prop where
  | absent : Exponent [] 0
  | marked {letter : Char} {sign digits : List Char} {negative : Bool} :
      letter = 'e' ∨ letter = 'E' → Sign sign negative → digits ≠ [] →
      (∀ c ∈ digits, c.isDigit) →
      Exponent (letter :: (sign ++ digits)) (Number.signed negative (Digits.toNat 10 digits))

/-- A decimal numeral: at least one digit stands in front of its point or behind it. -/
inductive Literal : List Char → Decimal → Prop where
  | parts {sign whole point fraction tail : List Char} {negative : Bool} {exponent : Int} :
      Sign sign negative → (∀ c ∈ whole, c.isDigit) → Fraction point fraction →
      whole ≠ [] ∨ fraction ≠ [] → Exponent tail exponent →
      Literal (sign ++ (whole ++ (point ++ tail))) (ofDigits negative whole fraction exponent)

/-! ## What is cut off are parts -/

theorem exists_sign {text rest : List Char} {negative : Bool} :
    splitSign text = (negative, rest) → ∃ sign, Sign sign negative ∧ text = sign ++ rest := by
  intro h
  unfold splitSign at h
  split at h <;> cases h
  · exact ⟨_, .minus, rfl⟩
  · exact ⟨_, .plus, rfl⟩
  · exact ⟨_, .absent, rfl⟩

theorem exists_fraction {text fraction rest : List Char} :
    splitFraction text = (fraction, rest) →
      ∃ point, Fraction point fraction ∧ text = point ++ rest := by
  intro h
  unfold splitFraction at h
  split at h <;> cases h
  · exact ⟨_, .pointed fun c => Digits.isDigit_of_mem_leading, by
      simp [Digits.leading_append_behind]⟩
  · exact ⟨_, .absent, rfl⟩

theorem exponent_of_readExponent? {text : List Char} {exponent : Int} :
    readExponent? text = some exponent → Exponent text exponent := by
  intro h
  cases text with
  | nil =>
      cases h
      exact .absent
  | cons letter text =>
      rcases hsplit : splitSign text with ⟨negative, digits⟩
      simp only [readExponent?, hsplit] at h
      split at h
      · rename_i good
        cases h
        rcases exists_sign hsplit with ⟨sign, hsign, rfl⟩
        exact .marked good.1 hsign good.2.1 (List.all_eq_true.1 good.2.2)
      · cases h

theorem literal_of_read? {text : List Char} {decimal : Decimal} :
    read? text = some decimal → Literal text decimal := by
  intro h
  rcases hsign : splitSign text with ⟨negative, unsigned⟩
  rcases hfraction : splitFraction (Digits.behind unsigned) with ⟨fraction, tail⟩
  simp only [read?, hsign, hfraction] at h
  split at h
  · cases h
  · rename_i hsome
    rcases Option.map_eq_some_iff.1 h with ⟨exponent, hexponent, rfl⟩
    rcases exists_sign hsign with ⟨sign, hsigned, rfl⟩
    rcases exists_fraction hfraction with ⟨point, hpointed, hbehind⟩
    have hliteral := Literal.parts hsigned
      (fun _ => Digits.isDigit_of_mem_leading) hpointed
      (Decidable.not_and_iff_or_not.1 hsome) (exponent_of_readExponent? hexponent)
    rwa [← hbehind, Digits.leading_append_behind] at hliteral

/-! ## Parts are what is cut off -/

/-- A sign is cut off in front of anything but another sign. -/
theorem splitSign_append {sign rest : List Char} {negative : Bool} :
    Sign sign negative → (∀ c ∈ rest.head?, c ≠ '+' ∧ c ≠ '-') →
      splitSign (sign ++ rest) = (negative, rest) := by
  intro hsign hrest
  cases hsign with
  | minus | plus =>
      rfl
  | absent =>
      rw [List.nil_append]
      unfold splitSign
      split
      · exact absurd rfl (hrest '-' (by simp)).2
      · exact absurd rfl (hrest '+' (by simp)).1
      · rfl

theorem not_sign_of_isDigit {c : Char} : c.isDigit → c ≠ '+' ∧ c ≠ '-' := by
  intro h
  constructor <;> rintro rfl <;> cases h

theorem Exponent.head {tail : List Char} {exponent : Int} :
    Exponent tail exponent → ∀ c ∈ tail.head?, c = 'e' ∨ c = 'E' := by
  intro h c hmem
  cases h with
  | absent =>
      cases hmem
  | marked hletter hsign hne hdigits =>
      cases hmem
      exact hletter

theorem Exponent.not_digit {tail : List Char} {exponent : Int} :
    Exponent tail exponent → ∀ c ∈ tail.head?, ¬ c.isDigit := by
  intro h c hmem
  rcases h.head c hmem with rfl | rfl <;> decide

theorem Exponent.readExponent? {tail : List Char} {exponent : Int} :
    Exponent tail exponent → Decimal.readExponent? tail = some exponent := by
  intro h
  cases h with
  | absent =>
      rfl
  | marked hletter hsign hne hdigits =>
      rename_i letter sign digits negative
      have hhead : ∀ c ∈ digits.head?, c ≠ '+' ∧ c ≠ '-' := by
        intro c hmem
        exact not_sign_of_isDigit (hdigits c (List.mem_of_mem_head? hmem))
      have hall := List.all_eq_true.2 hdigits
      simp [Decimal.readExponent?, splitSign_append hsign hhead, hletter, hne, hall]

theorem Fraction.splitFraction {point fraction tail : List Char} {exponent : Int} :
    Fraction point fraction → Exponent tail exponent →
      Decimal.splitFraction (point ++ tail) = (fraction, tail) := by
  intro hfraction htail
  cases hfraction with
  | absent =>
      rw [List.nil_append]
      unfold Decimal.splitFraction
      split
      · rcases htail.head '.' (by simp) with h | h <;> cases h
      · rfl
  | pointed hdigits =>
      rcases Digits.leading_append hdigits htail.not_digit with ⟨hleading, hbehind⟩
      simp [Decimal.splitFraction, hleading, hbehind]

/-- A numeral is read as its decimal. -/
theorem Literal.read? {text : List Char} {decimal : Decimal} :
    Literal text decimal → Decimal.read? text = some decimal := by
  rintro ⟨hsign, hwhole, hfraction, hsome, htail⟩
  rename_i sign whole point fraction tail negative exponent
  have hbehind : ∀ c ∈ (point ++ tail).head?, ¬ c.isDigit := by
    cases hfraction with
    | absent =>
        exact htail.not_digit
    | pointed hdigits =>
        intro c hmem
        cases hmem
        decide
  have hunsigned : ∀ c ∈ (whole ++ (point ++ tail)).head?, c ≠ '+' ∧ c ≠ '-' := by
    intro c hmem
    cases whole with
    | cons d whole =>
        have hsame : d = c := by simpa using hmem
        exact not_sign_of_isDigit (hwhole c (by simp [hsame]))
    | nil =>
        -- A numeral without digits in front starts with its point.
        cases hfraction with
        | absent =>
            simp at hsome
        | pointed hdigits =>
            cases hmem
            decide
  rcases Digits.leading_append hwhole hbehind with ⟨hleading, hrest⟩
  have hnone : ¬ (whole = [] ∧ fraction = []) := by
    rintro ⟨rfl, rfl⟩
    simp at hsome
  simp only [Decimal.read?, splitSign_append hsign hunsigned, hleading, hrest,
    hfraction.splitFraction htail, htail.readExponent?, hnone, if_false, Option.map_some]

/-- The decimals that are read are those of the grammar. -/
theorem read?_eq_some_iff {text : List Char} {decimal : Decimal} :
    read? text = some decimal ↔ Literal text decimal :=
  ⟨literal_of_read?, Literal.read?⟩

end Decimal
end Stencil
