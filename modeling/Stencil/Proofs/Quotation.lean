import Stencil.Json.Standard.Quoted

/-!
# Quotation — a text is read back from its string

Between its quotes, a text is written character by character.  Quotes, backslashes and control
characters are escaped, so none of them ends the string early, and what is read denotes the text that
was written.  A string without a text is read back as one.

* `Quoted.reread` — the part of a string that a character is read as;
* `Quoted.read?_write` — a written string is read up to its closing quote, whatever stands behind it;
* `Quoted.toText?_reread` — the parts that are read denote the text.
-/

namespace Stencil
namespace Json
namespace Quoted

/-- The part that a character is read as where it was written.  A control character without a letter
of its own is written by its number. -/
def reread (c : Char) : Part :=
  if shortEscape? c = none ∧ c.toNat < 0x20 then .unit c.toNat else .char c

/-- The parts that a string is read as where it was written. -/
def rereadText? : Option String → List Part
  | some text => text.toList.map reread
  | none => [.unit 0xD800]

/-! ## From characters to parts -/

theorem unitOf?_hex4 {unit : Nat} :
    unit < 0x20 ∨ unit = 0xD800 → unitOf? (hex4 unit) = some unit := by
  rintro (hcontrol | rfl)
  · -- There are few control characters, and each one is read back.
    revert unit
    decide
  · decide

/-- The letter behind a backslash stands for the character it was written for. -/
theorem escaped?_of_shortEscape? {c letter : Char} :
    shortEscape? c = some letter → escaped? letter = some c ∧ letter ≠ 'u' := by
  intro h
  unfold shortEscape? at h
  split at h <;> cases h
  all_goals exact ⟨rfl, by decide⟩

theorem read?_hex4 {unit : Nat} {rest : List Char} :
    unit < 0x20 ∨ unit = 0xD800 →
      read? ('\\' :: 'u' :: (hex4 unit ++ rest)) = (read? rest).map (.cons (.unit unit)) := by
  intro h
  have hunit : unitOf? (hex4 unit) = some unit := unitOf?_hex4 h
  cases hrest : read? rest <;> simp_all [read?, hex4]

theorem read?_escape {c letter : Char} {rest : List Char} :
    letter ≠ 'u' → escaped? letter = some c →
      read? ('\\' :: letter :: rest) = (read? rest).map (.cons (.char c)) := by
  intro hletter hescaped
  cases hrest : read? rest <;> simp [read?, hletter, hescaped, hrest]

/-- A character that needs no escape stands for itself. -/
theorem read?_plain {c : Char} {rest : List Char} :
    shortEscape? c = none → ¬ c.toNat < 0x20 →
      read? (c :: rest) = (read? rest).map (.cons (.char c)) := by
  intro hnone hvisible
  have hquote : c ≠ '"' := by
    rintro rfl
    cases hnone
  have hbackslash : c ≠ '\\' := by
    rintro rfl
    cases hnone
  rw [read?, if_neg (by simp [hbackslash, hvisible])]
  all_goals simp_all

/-- What is written for a character is read as one part. -/
theorem read?_writePart (c : Char) (rest : List Char) :
    read? (writePart (.char c) ++ rest) = (read? rest).map (.cons (reread c)) := by
  unfold writePart reread
  cases h : shortEscape? c with
  | some letter =>
      rcases escaped?_of_shortEscape? h with ⟨hescaped, hletter⟩
      simpa [h] using read?_escape hletter hescaped
  | none =>
      by_cases hcontrol : c.toNat < 0x20
      · simpa [h, hcontrol] using read?_hex4 (.inl hcontrol)
      · simpa [h, hcontrol] using read?_plain h hcontrol

/-- A written string is read up to its closing quote. -/
theorem read?_write (text : Option String) (rest : List Char) :
    read? ((ofText? text).flatMap writePart ++ '"' :: rest) = some ⟨rereadText? text, rest⟩ := by
  cases text with
  | none =>
      have hunit : read? ('\\' :: 'u' :: (hex4 0xD800 ++ '"' :: rest)) = _ := read?_hex4 (.inr rfl)
      simpa [ofText?, rereadText?, writePart, read?, Read.cons] using hunit
  | some text =>
      simp only [ofText?, rereadText?]
      induction text.toList with
      | nil => rfl
      | cons c chars ih =>
          rw [List.map_cons, List.flatMap_cons, List.append_assoc, read?_writePart, ih]
          rfl

/-! ## From parts to characters -/

/-- A unit below the surrogates stands for a character, whatever part follows. -/
theorem toChars?_unit {unit : Nat} (parts : List Part) :
    unit < 0xD800 → toChars? (.unit unit :: parts) = (toChars? parts).map (Char.ofNat unit :: ·) := by
  intro h
  have hhigh : isHigh unit = false := by
    simp [isHigh]
    omega
  have hlow : isLow unit = false := by
    simp [isLow]
    omega
  match parts with
  | [] | .char _ :: _ | .unit _ :: _ => simp [toChars?, hhigh, hlow]

theorem toChars?_reread (chars : List Char) : toChars? (chars.map reread) = some chars := by
  induction chars with
  | nil => rfl
  | cons c chars ih =>
      rw [List.map_cons, reread]
      split
      · rename_i hcontrol
        rw [toChars?_unit _ (by omega), ih, Char.ofNat_toNat]
        rfl
      · rw [toChars?, ih]
        rfl

/-- The parts that are read denote the text, if there is one. -/
theorem toText?_reread (text : Option String) : toText? (rereadText? text) = text := by
  cases text with
  | none =>
      rfl
  | some text =>
      rw [toText?, rereadText?, toChars?_reread, Option.map_some, String.ofList_toList]

end Quoted
end Json
end Stencil
