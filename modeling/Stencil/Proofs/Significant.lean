import Stencil.Proofs.RoundTrip

/-!
# Significant digits — seventeen are always enough

The grid of decimals on which a number has seventeen digits before the point is so fine that the
decimal nearest to the number rounds to it.  So the search for the shortest decimal ends there at the
latest, and never falls back on the exact decimal of the number.

* `Number.roundUnits_of_near` — what is near enough to a magnitude is rounded to it;
* `Number.Shortest.readsBack_of_fine` — so is the nearest decimal on a fine grid;
* `Number.coefficient_shortest_le` — the decimal that is written has at most seventeen digits.
-/

namespace Stencil
namespace Number

attribute [local instance (high)] instPowNat

/-! ## What is rounded to a magnitude -/

/-- A quotient less than a half away from an integer is rounded to it. -/
theorem roundQuotient_of_near {num den quotient : Nat} (tie : Tie)
    (above : 2 * (quotient * den) < 2 * num + den) (below : 2 * num < 2 * (quotient * den) + den) :
    roundQuotient tie num den = quotient := by
  have hden : 0 < den := by omega
  rcases Nat.lt_or_ge num (quotient * den) with hless | hmore
  · -- The quotient lies below the integer, so it is rounded up.
    obtain ⟨low, rfl⟩ : ∃ low, quotient = low + 1 :=
      Nat.exists_eq_succ_of_ne_zero fun hzero => by simp [hzero] at hless
    have hsucc : (low + 1) * den = low * den + den := Nat.succ_mul low den
    rcases (Nat.div_mod_unique hden).2
      (⟨by rw [Nat.mul_comm den]; omega, by omega⟩ :
        num - low * den + den * low = num ∧ num - low * den < den) with ⟨hdiv, hmod⟩
    rw [roundQuotient, hdiv, hmod, if_neg (by omega)]
  · rcases (Nat.div_mod_unique hden).2
      (⟨by rw [Nat.mul_comm den]; omega, by omega⟩ :
        num - quotient * den + den * quotient = num ∧ num - quotient * den < den) with
      ⟨hdiv, hmod⟩
    rw [roundQuotient, hdiv, hmod, if_pos (by omega)]

/-- The nearest integer is at most a half away. -/
theorem roundQuotient_near {den : Nat} (tie : Tie) (num : Nat) :
    0 < den →
      2 * num ≤ 2 * (roundQuotient tie num den * den) + den ∧
        2 * (roundQuotient tie num den * den) ≤ 2 * num + den := by
  intro hden
  have hwhole : num / den * den + num % den = num := Nat.div_add_mod' num den
  have hrest := Nat.mod_lt num hden
  simp only [roundQuotient]
  split
  · omega
  · have hsucc : (num / den + 1) * den = num / den * den + den := Nat.succ_mul (num / den) den
    omega

/-- A magnitude is what a quotient rounds to on any grid that it lies on and has few enough steps of,
if the quotient is near enough. -/
theorem roundQuotient_mul_of_near {units num den shift : Nat}
    (lies : 2 ^ shift ∣ units) (few : units ≤ 2 ^ (53 : Nat) * 2 ^ shift)
    (above : 2 ^ (54 : Nat) * (units * den) < 2 ^ (54 : Nat) * num + units * den)
    (below : 2 ^ (54 : Nat) * num < 2 ^ (54 : Nat) * (units * den) + units * den) :
    roundQuotient .even num (den * 2 ^ shift) * 2 ^ shift = units := by
  rcases lies with ⟨count, rfl⟩
  have hcomm : count * (den * 2 ^ shift) = 2 ^ shift * count * den := by ac_rfl
  have hstep : 2 ^ shift * count * den ≤ 2 ^ (53 : Nat) * (den * 2 ^ shift) := by
    calc
      2 ^ shift * count * den ≤ 2 ^ (53 : Nat) * 2 ^ shift * den := Nat.mul_le_mul_right _ few
      _ = 2 ^ (53 : Nat) * (den * 2 ^ shift) := by ac_rfl
  have hround : roundQuotient .even num (den * 2 ^ shift) = count := by
    apply roundQuotient_of_near
    all_goals
      rw [hcomm]
      omega
  rw [hround, Nat.mul_comm]

/-- A quotient near a magnitude does not reach the next power of two, so the grid that it is rounded
on is no coarser than that of the magnitude. -/
theorem log2_le_of_near {units quotient : Nat} (representable : Representable units)
    (below : 2 ^ (54 : Nat) * quotient < 2 ^ (54 : Nat) * units + units) :
    quotient.log2 - 52 ≤ units.log2 - 52 := by
  have hunits : units < 2 ^ (53 : Nat) * 2 ^ (units.log2 - 52) := by
    rw [← Nat.pow_add]
    exact Nat.lt_of_lt_of_le Nat.lt_log2_self (Nat.pow_le_pow_right (by decide) (by omega))
  have hquotient : quotient < 2 ^ (53 + (units.log2 - 52)) := by
    rw [Nat.pow_add]
    have hpositive := Nat.two_pow_pos (units.log2 - 52)
    rcases representable.2 with ⟨count, hcount⟩
    generalize 2 ^ (units.log2 - 52) = step at *
    have hless : count < 2 ^ (53 : Nat) := by
      refine Nat.lt_of_mul_lt_mul_left (a := step) ?_
      rw [← hcount, Nat.mul_comm]
      exact hunits
    have hle : step * count ≤ step * (2 ^ (53 : Nat) - 1) := Nat.mul_le_mul_left _ (by omega)
    omega
  by_cases hzero : quotient = 0
  · simp [hzero]
  · have hlog := (Nat.log2_lt hzero).2 hquotient
    omega

/-- A magnitude with too many steps on the grid of a quotient would lie a whole step above it. -/
theorem le_steps_of_near {units quotient : Nat} (lies : 2 ^ (quotient.log2 - 52) ∣ units)
    (above : 2 ^ (54 : Nat) * units < 2 ^ (54 : Nat) * (quotient + 1) + units) :
    units ≤ 2 ^ (53 : Nat) * 2 ^ (quotient.log2 - 52) := by
  have hquotient : quotient + 1 ≤ 2 ^ (53 : Nat) * 2 ^ (quotient.log2 - 52) := by
    rw [← Nat.pow_add]
    exact Nat.le_trans Nat.lt_log2_self (Nat.pow_le_pow_right (by decide) (by omega))
  have hpositive := Nat.two_pow_pos (quotient.log2 - 52)
  rcases lies with ⟨count, hcount⟩
  generalize 2 ^ (quotient.log2 - 52) = step at *
  refine Nat.not_lt.1 fun hmore => ?_
  have hgreater : 2 ^ (53 : Nat) < count := by
    refine Nat.lt_of_mul_lt_mul_left (a := step) ?_
    rw [← hcount, Nat.mul_comm]
    exact hmore
  have hle : step * (2 ^ (53 : Nat) + 1) ≤ step * count := Nat.mul_le_mul_left _ hgreater
  omega

/-- A quotient that is away from a magnitude by less than its part of `2 ^ 54` is rounded to it. -/
theorem roundUnits_of_near {units num den : Nat} (representable : Representable units)
    (positive : 0 < den)
    (above : 2 ^ (54 : Nat) * (units * den) < 2 ^ (54 : Nat) * num + units * den)
    (below : 2 ^ (54 : Nat) * num < 2 ^ (54 : Nat) * (units * den) + units * den) :
    roundUnits .double num den = units := by
  -- The same is said of the quotient without its fraction.
  have hbelow : 2 ^ (54 : Nat) * (num / den) < 2 ^ (54 : Nat) * units + units := by
    refine Nat.lt_of_mul_lt_mul_right (a := den) ?_
    calc
      2 ^ (54 : Nat) * (num / den) * den = 2 ^ (54 : Nat) * (num / den * den) := Nat.mul_assoc ..
      _ ≤ 2 ^ (54 : Nat) * num := Nat.mul_le_mul_left _ (Nat.div_mul_le_self num den)
      _ < 2 ^ (54 : Nat) * (units * den) + units * den := below
      _ = (2 ^ (54 : Nat) * units + units) * den := by rw [Nat.add_mul, Nat.mul_assoc]
  have habove : 2 ^ (54 : Nat) * units < 2 ^ (54 : Nat) * (num / den + 1) + units := by
    refine Nat.lt_of_mul_lt_mul_right (a := den) ?_
    calc
      2 ^ (54 : Nat) * units * den = 2 ^ (54 : Nat) * (units * den) := Nat.mul_assoc ..
      _ < 2 ^ (54 : Nat) * num + units * den := above
      _ ≤ 2 ^ (54 : Nat) * (den * (num / den + 1)) + units * den :=
          Nat.add_le_add_right
            (Nat.mul_le_mul_left _ (Nat.le_of_lt (Nat.lt_mul_div_succ num positive))) _
      _ = (2 ^ (54 : Nat) * (num / den + 1) + units) * den := by
          rw [Nat.add_mul _ units, Nat.mul_assoc, Nat.mul_comm den]
  have hlies : 2 ^ ((num / den).log2 - 52) ∣ units :=
    Nat.dvd_trans (Nat.pow_dvd_pow 2 (log2_le_of_near representable hbelow)) representable.2
  have hshift : Precision.double.shift num den = (num / den).log2 - 52 := by
    simp only [Precision.shift, Precision.double]
    omega
  rw [roundUnits, hshift]
  exact roundQuotient_mul_of_near hlies (le_steps_of_near hlies habove) above below

/-! ## The search for the shortest decimal -/

namespace Shortest

/-- On a grid that has a magnitude far enough from zero, the nearest decimal rounds to it. -/
theorem readsBack_of_fine {units : Nat} {exponent : Int} (tie : Tie)
    (representable : Representable units)
    (fine : 2 ^ (53 : Nat) * (steps units exponent).2 < (steps units exponent).1) :
    readsBack units (roundQuotient tie (steps units exponent).1 (steps units exponent).2)
      exponent := by
  have hpositive : 0 < (steps units exponent).2 :=
    Nat.mul_pos (Nat.pow_pos (by decide)) (Nat.two_pow_pos _)
  have hnear := roundQuotient_near tie (steps units exponent).1 hpositive
  generalize roundQuotient tie (steps units exponent).1 (steps units exponent).2 = nearest at hnear ⊢
  rw [readsBack_iff, Nat.mul_assoc]
  -- Half a step of the grid is less than the part of the magnitude that is allowed.
  refine roundUnits_of_near representable (Nat.pow_pos (by decide)) ?_ ?_
  all_goals
    change 2 ^ (53 : Nat) * (10 ^ exponent.toNat * unitsPerOne) <
      units * 10 ^ (-exponent).toNat at fine
    simp only [steps] at hnear
    omega

/-- What is found on a grid is a neighbour of the magnitude. -/
theorem le_of_onGrid? {tie : Tie} {units coefficient : Nat} {exponent : Int} :
    onGrid? tie units exponent = some coefficient →
      coefficient ≤ (steps units exponent).1 / (steps units exponent).2 + 1 := by
  intro h
  have hnearest : roundQuotient tie (steps units exponent).1 (steps units exponent).2 ≤
      (steps units exponent).1 / (steps units exponent).2 + 1 := by
    simp only [roundQuotient]
    split <;> omega
  simp only [onGrid?] at h
  generalize readsBack units = reads at h
  generalize roundQuotient tie (steps units exponent).1 (steps units exponent).2 = nearest at *
  generalize (steps units exponent).1 / (steps units exponent).2 = low at *
  have hother : (if nearest = low then nearest + 1 else low) ≤ low + 1 := by
    split <;> omega
  generalize (if nearest = low then nearest + 1 else low) = other at *
  split at h
  · exact Option.some.inj h ▸ hnearest
  · split at h
    · exact Option.some.inj h ▸ hother
    · cases h

/-- The search ends on a grid that has a decimal that reads back, or before it comes to that. -/
theorem search_of_isSome {tie : Tie} {units grids grid : Nat} {exponent : Int}
    (reached : grid < grids) (found : (onGrid? tie units (exponent - grid)).isSome) :
    ∃ last ≤ grid, ∃ coefficient,
      onGrid? tie units (exponent - last) = some coefficient ∧
        search tie units grids exponent = (coefficient, exponent - last) := by
  induction grids generalizing grid exponent with
  | zero => cases reached
  | succ grids ih =>
      rw [search_succ]
      cases hhere : onGrid? tie units exponent with
      | some coefficient =>
          exact ⟨0, Nat.zero_le _, coefficient, by simpa using hhere, by simp⟩
      | none =>
          cases grid with
          | zero => simp [hhere] at found
          | succ grid =>
              have hnext : exponent - ((grid + 1 : Nat) : Int) = exponent - 1 - grid := by omega
              rw [hnext] at found
              rcases ih (Nat.lt_of_succ_lt_succ reached) found with
                ⟨last, hlast, coefficient, hgrid, hsearch⟩
              have hsame : exponent - ((last + 1 : Nat) : Int) = exponent - 1 - last := by omega
              refine ⟨last + 1, Nat.succ_le_succ hlast, coefficient, ?_, ?_⟩
              · rw [hsame]
                exact hgrid
              · rw [hsame, Option.map_none, Option.getD_none]
                exact hsearch

/-! ## The digits of a magnitude -/

theorem exactCoefficient_ne_zero {units : Nat} : units ≠ 0 → exactCoefficient units ≠ 0 :=
  fun h => Nat.mul_ne_zero h (Nat.ne_of_gt (Nat.pow_pos (by decide)))

/-- The steps of a grid are those of the exact decimal, but for its places. -/
theorem steps_scaled (units : Nat) (exponent : Int) :
    (steps units exponent).1 * 5 ^ scale = exactCoefficient units * 10 ^ (-exponent).toNat ∧
      (steps units exponent).2 * 5 ^ scale = 10 ^ (exponent.toNat + scale) := by
  constructor
  · rw [steps, exactCoefficient, Nat.mul_right_comm]
  · rw [steps, unitsPerOne, Nat.mul_assoc, ← Nat.mul_pow, ← Nat.pow_add]

/-- On the grid with so many digits, a magnitude has no more of them before the point. -/
theorem steps_lt (units digits : Nat) :
    (steps units (ceilingExponent units - digits)).1 <
      10 ^ digits * (steps units (ceilingExponent units - digits)).2 := by
  have hpowers : (Digits.ofNat (exactCoefficient units)).length +
      (-(ceilingExponent units - digits)).toNat =
        digits + ((ceilingExponent units - digits).toNat + scale) := by
    have hceiling : ceilingExponent units =
        (Digits.ofNat (exactCoefficient units)).length - scale := rfl
    omega
  have hbelow : exactCoefficient units < 10 ^ (Digits.ofNat (exactCoefficient units)).length :=
    (Nat.length_toDigits_le_iff (by decide) Nat.length_toDigits_pos).1 (Nat.le_refl _)
  have hscaled := steps_scaled units (ceilingExponent units - digits)
  generalize ceilingExponent units - digits = exponent at *
  refine Nat.lt_of_mul_lt_mul_right (a := 5 ^ scale) ?_
  calc
    (steps units exponent).1 * 5 ^ scale
        = exactCoefficient units * 10 ^ (-exponent).toNat := hscaled.1
    _ < 10 ^ (Digits.ofNat (exactCoefficient units)).length * 10 ^ (-exponent).toNat :=
        Nat.mul_lt_mul_of_pos_right hbelow (Nat.pow_pos (by decide))
    _ = 10 ^ digits * 10 ^ (exponent.toNat + scale) := by
        rw [← Nat.pow_add, ← Nat.pow_add, hpowers]
    _ = 10 ^ digits * (steps units exponent).2 * 5 ^ scale := by
        rw [← hscaled.2, Nat.mul_assoc]

/-- And it has as many. -/
theorem le_steps {units : Nat} (digits : Nat) :
    units ≠ 0 →
      10 ^ digits * (steps units (ceilingExponent units - (digits + 1 : Nat))).2 ≤
        (steps units (ceilingExponent units - (digits + 1 : Nat))).1 := by
  intro hunits
  obtain ⟨places, hplaces⟩ : ∃ places, (Digits.ofNat (exactCoefficient units)).length = places + 1 :=
    Nat.exists_eq_succ_of_ne_zero (Nat.ne_of_gt Nat.length_toDigits_pos)
  have hpowers : places + (-(ceilingExponent units - (digits + 1 : Nat))).toNat =
      digits + ((ceilingExponent units - (digits + 1 : Nat)).toNat + scale) := by
    have hceiling : ceilingExponent units =
        (Digits.ofNat (exactCoefficient units)).length - scale := rfl
    omega
  have habove : 10 ^ places ≤ exactCoefficient units := by
    cases places with
    | zero => exact Nat.pos_of_ne_zero (exactCoefficient_ne_zero hunits)
    | succ places =>
        refine Nat.not_lt.1 fun hless => ?_
        have hlength : (Digits.ofNat (exactCoefficient units)).length ≤ places + 1 :=
          (Nat.length_toDigits_le_iff (by decide) (Nat.succ_pos _)).2 hless
        omega
  have hscaled := steps_scaled units (ceilingExponent units - (digits + 1 : Nat))
  generalize ceilingExponent units - (digits + 1 : Nat) = exponent at *
  refine Nat.le_of_mul_le_mul_right (c := 5 ^ scale) ?_ (Nat.pow_pos (by decide))
  calc
    10 ^ digits * (steps units exponent).2 * 5 ^ scale
        = 10 ^ digits * 10 ^ (exponent.toNat + scale) := by rw [← hscaled.2, Nat.mul_assoc]
    _ = 10 ^ places * 10 ^ (-exponent).toNat := by rw [← Nat.pow_add, ← Nat.pow_add, hpowers]
    _ ≤ exactCoefficient units * 10 ^ (-exponent).toNat := Nat.mul_le_mul_right _ habove
    _ = (steps units exponent).1 * 5 ^ scale := hscaled.1.symm

/-- On a grid with seventeen digits or more, the nearest decimal reads back. -/
theorem isSome_onGrid?_of_le {units digits : Nat} (tie : Tie) :
    Representable units → units ≠ 0 → 16 ≤ digits →
      (onGrid? tie units (ceilingExponent units - (digits + 1 : Nat))).isSome := by
  intro hrepresentable hunits hdigits
  have hsteps := le_steps digits hunits
  generalize ceilingExponent units - (digits + 1 : Nat) = exponent at *
  have hpositive : 0 < (steps units exponent).2 :=
    Nat.mul_pos (Nat.pow_pos (by decide)) (Nat.two_pow_pos _)
  have hfine : 2 ^ (53 : Nat) * (steps units exponent).2 < (steps units exponent).1 := by
    calc
      2 ^ (53 : Nat) * (steps units exponent).2 < 10 ^ (16 : Nat) * (steps units exponent).2 :=
          Nat.mul_lt_mul_of_pos_right (by decide) hpositive
      _ ≤ 10 ^ digits * (steps units exponent).2 :=
          Nat.mul_le_mul_right _ (Nat.pow_le_pow_right (by decide) hdigits)
      _ ≤ (steps units exponent).1 := hsteps
  have hreads := readsBack_of_fine tie hrepresentable hfine
  simp only [onGrid?]
  rw [if_pos hreads]
  rfl

end Shortest

/-- The decimal that is written for a magnitude has at most seventeen digits. -/
theorem coefficient_shortest_le {units : Nat} (tie : Tie) (negative : Bool) :
    Representable units → units ≠ 0 →
      (shortest tie negative units).coefficient ≤ 10 ^ (17 : Nat) := by
  intro hrepresentable hunits
  have hseventeen := Shortest.isSome_onGrid?_of_le tie hrepresentable hunits (Nat.le_refl 16)
  rcases Shortest.search_of_isSome (by decide : 16 + 1 < 18) hseventeen with
    ⟨last, hlast, coefficient, hgrid, hsearch⟩
  -- A neighbour on a grid with so many digits has no more of them, or is the next power of ten.
  have hneighbour := Shortest.le_of_onGrid? hgrid
  have hdigits := Nat.div_lt_of_lt_mul (Nat.mul_comm _ _ ▸ Shortest.steps_lt units last)
  -- The search is put in place before anything would evaluate it.
  delta shortest
  rw [hsearch]
  calc
    coefficient ≤ 10 ^ last := Nat.le_trans hneighbour hdigits
    _ ≤ 10 ^ (17 : Nat) := Nat.pow_le_pow_right (by decide) hlast

end Number
end Stencil
