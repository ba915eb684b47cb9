import Stencil.Text.Units

/-!
# The order of texts — an order on whole texts

A character above `U+FFFF` has two units, both of them from a range that no character stands in.  So
the units of a text can be cut into characters again in one way only, and comparing texts by their
units is a lawful comparison of texts.

* `Text.units_injective` — different texts have different units;
* `Text.compareUnits` is oriented, transitive, and tells different texts apart.
-/

namespace Stencil
namespace Text

theorem toNat_not_surrogate (c : Char) :
    c.toNat < 0xD800 ∨ 0xDFFF < c.toNat ∧ c.toNat < 0x110000 := c.valid

/-- The first units of two sequences belong to one character. -/
theorem unitsOfChar_append_inj {c d : Char} {left right : List Nat} :
    unitsOfChar c ++ left = unitsOfChar d ++ right → c = d ∧ left = right := by
  intro h
  have hc := toNat_not_surrogate c
  have hd := toNat_not_surrogate d
  unfold unitsOfChar at h
  split at h <;> split at h <;>
    simp only [List.cons_append, List.nil_append, List.cons.injEq] at h
  · exact ⟨Char.toNat_inj.1 h.1, h.2⟩
  · omega
  · omega
  · exact ⟨Char.toNat_inj.1 (by omega), h.2.2⟩

theorem unitsOfChar_ne_nil (c : Char) : unitsOfChar c ≠ [] := by
  unfold unitsOfChar
  split <;> simp

/-- Different texts have different units. -/
theorem units_injective {left right : String} : units left = units right → left = right := by
  have hlists : ∀ front back : List Char,
      front.flatMap unitsOfChar = back.flatMap unitsOfChar → front = back := by
    intro front
    induction front with
    | nil =>
        intro back h
        cases back with
        | nil =>
            rfl
        | cons d back =>
            simp [unitsOfChar_ne_nil] at h
    | cons c front ih =>
        intro back h
        cases back with
        | nil =>
            simp [unitsOfChar_ne_nil] at h
        | cons d back =>
            rcases unitsOfChar_append_inj (by simpa using h) with ⟨rfl, hrest⟩
            rw [ih back hrest]
  intro h
  exact String.toList_injective (hlists left.toList right.toList h)

instance : Std.TransCmp compareUnits :=
  inferInstanceAs (Std.TransCmp (compareOn units))

instance : Std.LawfulEqCmp compareUnits where
  eq_of_compare h := units_injective (Std.LawfulEqCmp.eq_of_compare h)

end Text
end Stencil
