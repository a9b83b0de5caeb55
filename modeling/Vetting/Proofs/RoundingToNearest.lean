import Vetting.Double.Arith
import Mathlib.Tactic.Ring

/-!
# Rounding to the nearest double

A representable number of units is a significand of 53 bits times the step of its size
(`lt_mul_step`, `step_dvd`), so it is its own nearest double, and a large one is a whole number.
What rounding does to other numbers is bounded roughly, by a factor of two, which tells sizes apart
that are far from each other.
-/

set_option autoImplicit false

namespace Vetting

/-- How many units make one is a high power of two. The exponent is kept out of sight, as no proof
should ever compute the power. -/
theorem exists_unitsPerOne : ∃ k, 100 ≤ k ∧ unitsPerOne = 2 ^ k := by
  unfold unitsPerOne
  have hlarge : 100 ≤ 1074 := by decide
  generalize 1074 = k at hlarge ⊢
  exact ⟨k, hlarge, rfl⟩

/-- One is made of some units. -/
theorem unitsPerOne_pos : 0 < unitsPerOne := by
  obtain ⟨k, -, hk⟩ := exists_unitsPerOne
  rw [hk]
  exact Nat.two_pow_pos k

/-! ## The step of a size -/

/-- The distance between neighbouring doubles of a size, in units. -/
def step (units : Nat) : Nat := 2 ^ stepExponent units

/-- A step is at least one unit. -/
theorem step_pos (units : Nat) : 0 < step units := Nat.two_pow_pos _

/-- A step is no larger than the positive number that it is the step of. -/
theorem step_le {units : Nat} (h : units ≠ 0) : step units ≤ units :=
  calc
    2 ^ (units.log2 - 52) ≤ 2 ^ units.log2 := Nat.pow_le_pow_right (by omega) (Nat.sub_le _ _)
    _ ≤ units := Nat.log2_self_le h

/-- A number of units has at most 53 bits in steps of its size. -/
theorem lt_mul_step (units : Nat) : units < 2 ^ 53 * step units := by
  have hlog : units < 2 ^ (units.log2 + 1) := Nat.lt_log2_self
  have hle : 2 ^ (units.log2 + 1) ≤ 2 ^ (53 + stepExponent units) :=
    Nat.pow_le_pow_right (by omega) (by unfold stepExponent; omega)
  rw [Nat.pow_add 2 53] at hle
  exact lt_of_lt_of_le hlog hle

/-- A step of more than one unit is as large as 53 bits allow. -/
theorem mul_step_le {units : Nat} (h : 1 < step units) : 2 ^ 52 * step units ≤ units := by
  have hpos : stepExponent units ≠ 0 := by
    intro hzero
    rw [step, hzero] at h
    omega
  have hexp : 52 + stepExponent units = units.log2 := by
    unfold stepExponent at hpos ⊢
    omega
  have hne : units ≠ 0 := by
    rintro rfl
    exact hpos rfl
  calc
    2 ^ 52 * 2 ^ stepExponent units = 2 ^ units.log2 := by rw [← Nat.pow_add, hexp]
    _ ≤ units := Nat.log2_self_le hne

/-- A representable number of units is a whole number of steps. -/
theorem step_dvd {units : Nat} (h : Representable units) : step units ∣ units := by
  obtain ⟨significand, shift, hlt, rfl⟩ := h
  by_cases hzero : significand = 0
  · rw [hzero, Nat.zero_mul]
    exact Nat.dvd_zero _
  · have hne : significand * Nat.pow 2 shift ≠ 0 :=
      Nat.mul_ne_zero hzero (Nat.two_pow_pos shift).ne'
    have hlog : (significand * Nat.pow 2 shift).log2 < 53 + shift := by
      rw [Nat.log2_lt hne, Nat.pow_add]
      exact Nat.mul_lt_mul_of_pos_right hlt (Nat.two_pow_pos shift)
    refine Nat.dvd_mul_left_of_dvd ?_ significand
    exact Nat.pow_dvd_pow 2 (by unfold stepExponent; omega)

/-- A representable number of units that is out of reach of 53 bits, counted in some power of two,
is a multiple of that power. -/
theorem two_pow_dvd {units : Nat} (h : Representable units) {k : Nat}
    (hlarge : 2 ^ 53 * 2 ^ k ≤ units) : 2 ^ k ∣ units := by
  have hstep : 2 ^ k < step units :=
    Nat.lt_of_mul_lt_mul_left (lt_of_le_of_lt hlarge (lt_mul_step units))
  have hexp : k < stepExponent units := (Nat.pow_lt_pow_iff_right (by omega)).1 hstep
  exact (Nat.pow_dvd_pow 2 hexp.le).trans (step_dvd h)

/-- A double that is out of reach of 53 bits is a whole number. -/
theorem unitsPerOne_dvd {units : Nat} (h : Representable units)
    (hlarge : 2 ^ 53 * unitsPerOne ≤ units) : unitsPerOne ∣ units := by
  obtain ⟨k, -, hk⟩ := exists_unitsPerOne
  rw [hk] at hlarge ⊢
  exact two_pow_dvd h hlarge

/-! ## Rounding -/

/-- Rounding does not go below the whole part. -/
theorem div_le_roundQuotient (num den : Nat) : num / den ≤ roundQuotient num den := by
  simp only [roundQuotient]
  split
  · exact Nat.le_refl _
  · split <;> omega

/-- A whole quotient is rounded to itself. -/
theorem roundQuotient_of_dvd {num den : Nat} (hden : 0 < den) (h : den ∣ num) :
    roundQuotient num den = num / den := by
  simp only [roundQuotient, Nat.mod_eq_zero_of_dvd h]
  rw [if_pos (by omega)]

/-- A number of units is rounded to a whole number of steps. -/
theorem nearestUnits_one (units : Nat) :
    nearestUnits units 1 = roundQuotient units (step units) * step units := by
  rw [nearestUnits, Nat.div_one, Nat.one_mul]
  rfl

/-- A representable number of units is its own nearest double. -/
theorem nearestUnits_of_representable {units : Nat} (h : Representable units) :
    nearestUnits units 1 = units := by
  rw [nearestUnits_one, roundQuotient_of_dvd (step_pos units) (step_dvd h),
    Nat.div_mul_cancel (step_dvd h)]

/-- Rounding a quotient is off by a step at most. -/
theorem nearestUnits_le_add_step (num den : Nat) :
    nearestUnits num den ≤ num / den + step (num / den) :=
  calc
    roundQuotient num (den * step (num / den)) * step (num / den)
      ≤ (num / (den * step (num / den)) + 1) * step (num / den) :=
        Nat.mul_le_mul_right _ (roundQuotient_le _ _)
    _ = num / den / step (num / den) * step (num / den) + step (num / den) := by
        rw [Nat.succ_mul, Nat.div_div_eq_div_mul]
    _ ≤ num / den + step (num / den) := Nat.add_le_add_right (Nat.div_mul_le_self _ _) _

/-- Rounding goes up by a step at most. -/
theorem nearestUnits_le (units : Nat) : nearestUnits units 1 ≤ units + step units := by
  have hle := nearestUnits_le_add_step units 1
  rwa [Nat.div_one] at hle

/-- Rounding a quotient does not go below the last whole number of steps. -/
theorem div_mul_le_nearestUnits (num den : Nat) :
    num / den / step (num / den) * step (num / den) ≤ nearestUnits num den := by
  rw [Nat.div_div_eq_div_mul]
  exact Nat.mul_le_mul_right _ (div_le_roundQuotient _ _)

/-- Rounding goes down by less than a step. -/
theorem le_nearestUnits (units : Nat) : units < nearestUnits units 1 + step units := by
  have hle := div_mul_le_nearestUnits units 1
  rw [Nat.div_one] at hle
  calc
    units < (units / step units + 1) * step units :=
      Nat.lt_mul_of_div_lt (Nat.lt_succ_self _) (step_pos units)
    _ = units / step units * step units + step units := Nat.succ_mul _ _
    _ ≤ nearestUnits units 1 + step units := Nat.add_le_add_right hle _

/-- Rounding at most doubles a number. -/
theorem nearestUnits_le_two_mul (units : Nat) : nearestUnits units 1 ≤ 2 * units := by
  by_cases hzero : units = 0
  · rw [hzero]
    decide
  · have hle := nearestUnits_le units
    have hstep := step_le hzero
    omega

/-- Rounding at most halves a number. -/
theorem le_two_mul_nearestUnits (units : Nat) : units ≤ 2 * nearestUnits units 1 := by
  have hle := le_nearestUnits units
  by_cases hone : 1 < step units
  · have hstep := mul_step_le hone
    omega
  · have hpos := step_pos units
    omega

/-- The whole part of a double that is a whole number is that double. -/
theorem Extended.trunc_of_dvd {d : Double} (h : unitsPerOne ∣ d.units) :
    Extended.trunc (.finite d) = .finite d := by
  have hunits : nearestUnits (d.units / unitsPerOne * unitsPerOne) 1 = d.units := by
    rw [Nat.div_mul_cancel h, nearestUnits_of_representable d.representable]
  rw [trunc, ofUnits, dif_pos (by rw [hunits]; exact d.inRange)]
  simp only [hunits]

end Vetting
