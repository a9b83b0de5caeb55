import Vetting.Double.Decimal
import Vetting.Proofs.RoundingToNearest

/-!
# Which double is nearest, and when there is none

Rounding lands on a nearest representable number of units (`nearestUnits_nearest`), so that no
double is closer to an integer than the one it is rounded to (`Double.isNearest_ofInt`). From half a
step below the limit on numbers are rounded up to the limit, and have no nearest double
(`exists_ofUnits_iff`). That bound decides when a decimal can be read (`exists_toExtended_iff`), and
when a double can be rounded to decimal places, which multiplies it by a power of ten before
anything else (`exists_roundToPlaces_iff`).
-/

set_option autoImplicit false

namespace Vetting

-- No proof is to compute how many units make one.
seal unitsPerOne

/-! ## The nearest whole number -/

/-- A quotient is rounded down or up, to the side that it is not farther from. -/
theorem roundQuotient_cases (num den : Nat) :
    2 * (num % den) ≤ den ∧ roundQuotient num den = num / den ∨
      den ≤ 2 * (num % den) ∧ roundQuotient num den = num / den + 1 := by
  simp only [roundQuotient]
  split
  · omega
  · split
    · omega
    · rcases Nat.mod_two_eq_zero_or_one (num / den) with heven | hodd <;> omega

/-- Rounding a quotient does not depend on how it is written. -/
theorem roundQuotient_mul_right (num den : Nat) {c : Nat} (hc : 0 < c) :
    roundQuotient (num * c) (den * c) = roundQuotient num den := by
  have htwice : 2 * (num % den * c) = 2 * (num % den) * c := (Nat.mul_assoc _ _ _).symm
  simp only [roundQuotient, Nat.mul_div_mul_right _ _ hc, Nat.mul_mod_mul_right, htwice,
    Nat.mul_lt_mul_right hc]

/-- No whole number is closer to a quotient than the one it is rounded to. -/
theorem roundQuotient_nearest {num den : Nat} (hden : 0 < den) (k : Nat) :
    ((roundQuotient num den * den : Nat) - num : ℤ).natAbs ≤
      ((k * den : Nat) - num : ℤ).natAbs := by
  have hsplit : num / den * den + num % den = num := Nat.div_add_mod' num den
  have hlt : num % den < den := Nat.mod_lt _ hden
  have hside : k * den ≤ num / den * den ∨ num / den * den + den ≤ k * den := by
    rw [← Nat.succ_mul]
    rcases Nat.lt_or_ge (num / den) k with habove | hbelow
    · exact Or.inr (Nat.mul_le_mul_right den habove)
    · exact Or.inl (Nat.mul_le_mul_right den hbelow)
  rcases roundQuotient_cases num den with ⟨hdown, heq⟩ | ⟨hup, heq⟩
  · rw [heq]
    omega
  · rw [heq, Nat.succ_mul]
    omega

/-- The tie below an even number is rounded up to it. -/
theorem roundQuotient_lt_iff {num den bound : Nat} (hden : 0 < den) (heven : bound % 2 = 0) :
    roundQuotient num den < bound ↔ 2 * num < (2 * bound - 1) * den := by
  have hsplit : num / den * den + num % den = num := Nat.div_add_mod' num den
  have hlt : num % den < den := Nat.mod_lt _ hden
  rcases Nat.lt_trichotomy (num / den + 1) bound with hbelow | rfl | habove
  · have hround := roundQuotient_le num den
    have hmul : (2 * (num / den) + 2) * den ≤ (2 * bound - 1) * den :=
      Nat.mul_le_mul_right den (by omega)
    rw [Nat.add_mul, Nat.mul_assoc 2] at hmul
    exact iff_of_true (by omega) (by omega)
  · have hodd : num / den % 2 = 1 := by omega
    have hbound : (2 * (num / den + 1) - 1) * den = 2 * (num / den * den) + den := by
      rw [show 2 * (num / den + 1) - 1 = 2 * (num / den) + 1 by omega, Nat.succ_mul, Nat.mul_assoc]
    simp only [hbound, roundQuotient]
    split
    · omega
    · split <;> omega
  · have hround := div_le_roundQuotient num den
    have hmul : (2 * bound - 1) * den ≤ 2 * (num / den) * den :=
      Nat.mul_le_mul_right den (by omega)
    rw [Nat.mul_assoc 2] at hmul
    exact iff_of_false (by omega) (by omega)

/-- The tie below an even number is rounded up to it, here with a denominator that is twice a whole
number. -/
theorem roundQuotient_lt_iff_half {num den half bound : Nat} (hden : 0 < den) (hhalf : 0 < half)
    (heven : bound % 2 = 0) :
    roundQuotient num (den * (2 * half)) < bound ↔ num < (2 * bound - 1) * half * den := by
  have htwice : (2 * bound - 1) * (den * (2 * half)) = 2 * ((2 * bound - 1) * half * den) := by
    ring
  rw [roundQuotient_lt_iff (Nat.mul_pos hden (by omega)) heven, htwice]
  omega

/-! ## The nearest number of units -/

/-- Rounding to a double rounds to a whole number of steps. -/
theorem nearestUnits_eq (num den : Nat) : nearestUnits num den =
    roundQuotient num (den * step (num / den)) * step (num / den) := rfl

/-- A representable number of units is a whole number of steps of any number that is not larger than
it, or below every number with steps of that size. -/
theorem step_dvd_or_lt {units m : Nat} (hm : Representable m) (hstep : 1 < step units) :
    step units ∣ m ∨ m < 2 ^ 52 * step units := by
  rcases Nat.lt_or_ge m (2 ^ 52 * step units) with hbelow | habove
  · exact Or.inr hbelow
  · left
    have hpow : 2 ^ 52 * step units = 2 ^ (52 + stepExponent units) := (Nat.pow_add 2 _ _).symm
    have hne : m ≠ 0 := by
      have hpos := step_pos units
      omega
    have hlog : 52 + stepExponent units ≤ m.log2 := (Nat.le_log2 hne).2 (hpow ▸ habove)
    have hexp : stepExponent units ≤ stepExponent m := by
      rw [stepExponent.eq_1 m]
      omega
    exact (Nat.pow_dvd_pow 2 hexp).trans (step_dvd hm)

/-- No representable number of units is closer to a number than the one it is rounded to. -/
theorem nearestUnits_nearest (units : Nat) {m : Nat} (hm : Representable m) :
    ((nearestUnits units 1 : ℤ) - units).natAbs ≤ ((m : ℤ) - units).natAbs := by
  rw [nearestUnits_one]
  rcases Nat.lt_or_ge 1 (step units) with hstep | hone
  · rcases step_dvd_or_lt hm hstep with ⟨k, rfl⟩ | hlow
    · rw [Nat.mul_comm (step units)]
      exact roundQuotient_nearest (step_pos units) k
    · -- What is below the range of these steps is farther away than the least number of it.
      have hleast := mul_step_le hstep
      have hnear := @roundQuotient_nearest units _ (step_pos units) (2 ^ 52)
      omega
  · have hexact : roundQuotient units (step units) * step units = units := by
      rw [Nat.le_antisymm hone (step_pos units), roundQuotient_of_dvd Nat.one_pos (Nat.one_dvd _),
        Nat.div_one, Nat.mul_one]
    rw [hexact]
    omega

/-- Rounding does not go below a power of two. -/
theorem two_pow_le_nearestUnits {num den k : Nat} (h : 2 ^ k ≤ num / den) :
    2 ^ k ≤ nearestUnits num den := by
  refine le_trans ?_ (div_mul_le_nearestUnits num den)
  have hne : num / den ≠ 0 := by
    have hpos := Nat.two_pow_pos k
    omega
  rcases Nat.le_total k (stepExponent (num / den)) with hshort | hlong
  · calc
      2 ^ k ≤ 1 * step (num / den) := by
        rw [Nat.one_mul]
        exact Nat.pow_le_pow_right (by omega) hshort
      _ ≤ num / den / step (num / den) * step (num / den) :=
        Nat.mul_le_mul_right _ (Nat.div_pos (step_le hne) (step_pos _))
  · have hpow : 2 ^ k = 2 ^ (k - stepExponent (num / den)) * step (num / den) := by
      rw [step, ← Nat.pow_add, Nat.sub_add_cancel hlong]
    rw [hpow] at h ⊢
    exact Nat.mul_le_mul_right _ ((Nat.le_div_iff_mul_le (step_pos _)).2 h)

/-- Zero is representable. -/
theorem representable_zero : Representable 0 := ⟨0, 0, by decide, rfl⟩

/-- Whether no double is closer to an integer than a double is. -/
def Double.IsNearest (d : Double) (n : ℤ) : Prop :=
  ∀ e : Double, (d.signedUnits - n * unitsPerOne).natAbs ≤ (e.signedUnits - n * unitsPerOne).natAbs

/-- The double of an integer has the units that it is rounded to, and its sign. -/
theorem Extended.units_of_ofInt {n : ℤ} {d : Double} (h : ofInt n = .finite d) :
    d.units = nearestUnits (n.natAbs * unitsPerOne) 1 ∧ d.negative = decide (n < 0) := by
  rw [ofInt, ofRatio, ofUnits] at h
  split at h
  · cases h
    exact ⟨rfl, rfl⟩
  · cases h

/-- The double of an integer is nearest to it. -/
theorem Double.isNearest_ofInt {n : ℤ} {d : Double} (h : Extended.ofInt n = .finite d) :
    d.IsNearest n := by
  obtain ⟨hunits, hnegative⟩ := Extended.units_of_ofInt h
  have hzero := nearestUnits_nearest (n.natAbs * unitsPerOne) representable_zero
  have hsize : n * unitsPerOne = if n < 0 then -((n.natAbs * unitsPerOne : Nat) : ℤ)
      else ((n.natAbs * unitsPerOne : Nat) : ℤ) := by
    split
    · next hneg => rw [Nat.cast_mul, ← Int.neg_mul, Int.ofNat_natAbs_of_nonpos hneg.le, Int.neg_neg]
    · next hpos => rw [Nat.cast_mul, Int.natAbs_of_nonneg (Int.not_lt.1 hpos)]
  intro e
  have hnear := nearestUnits_nearest (n.natAbs * unitsPerOne) e.representable
  rw [hsize, signedUnits, signedUnits, hunits, hnegative]
  generalize n.natAbs * unitsPerOne = size at *
  -- A double of the other sign is farther away than zero.
  by_cases hneg : n < 0
  · simp only [hneg, decide_true, if_true]
    split <;> omega
  · simp only [hneg, decide_false, Bool.false_eq_true, if_false]
    split <;> omega

/-! ## Where 64 bits end -/

/-- A whole number from `2⁶³` up is not rounded below it. -/
theorem two_pow_mul_le_nearestUnits {n : Nat} (h : 2 ^ 63 ≤ n) :
    2 ^ 63 * unitsPerOne ≤ nearestUnits (n * unitsPerOne) 1 := by
  obtain ⟨k, -, hk⟩ := exists_unitsPerOne
  rw [hk, ← Nat.pow_add]
  apply two_pow_le_nearestUnits
  rw [Nat.div_one, Nat.pow_add]
  exact Nat.mul_le_mul_right _ h

/-- A whole number of 64 bits, without its sign, is rounded to a multiple of 2048. -/
theorem nearestUnits_of_two_pow_le {n : Nat} (hlow : 2 ^ 63 ≤ n) (hhigh : n < 2 ^ 64) :
    nearestUnits (n * unitsPerOne) 1 = roundQuotient n 2048 * 2048 * unitsPerOne := by
  obtain ⟨k, -, hk⟩ := exists_unitsPerOne
  have hpos : 0 < 2 ^ k := Nat.two_pow_pos k
  have hlog : (n * 2 ^ k).log2 = 63 + k := by
    rw [Nat.log2_eq_iff (Nat.mul_ne_zero (by omega) hpos.ne'), Nat.pow_add, Nat.add_right_comm,
      Nat.pow_add]
    exact ⟨Nat.mul_le_mul_right _ hlow, Nat.mul_lt_mul_of_pos_right hhigh hpos⟩
  have hstep : step (n * 2 ^ k) = 2048 * 2 ^ k := by
    rw [step, stepExponent, hlog, show 63 + k - 52 = 11 + k by omega, Nat.pow_add]
  rw [hk, nearestUnits_one, hstep, roundQuotient_mul_right _ _ hpos, Nat.mul_assoc]

/-- The whole numbers that are not below `2⁶³` and are rounded to it. -/
theorem nearestUnits_eq_two_pow_iff {n : Nat} (hn : 2 ^ 63 ≤ n) :
    nearestUnits (n * unitsPerOne) 1 = 2 ^ 63 * unitsPerOne ↔ n ≤ 2 ^ 63 + 1024 := by
  have hone := unitsPerOne_pos
  rcases Nat.lt_or_ge n (2 ^ 64) with hwithin | hbeyond
  · rw [nearestUnits_of_two_pow_le hn hwithin, Nat.mul_right_cancel_iff hone]
    simp only [roundQuotient]
    split
    · omega
    · split <;> omega
  · have hsize : 2 ^ 64 * unitsPerOne ≤ n * unitsPerOne := Nat.mul_le_mul_right _ hbeyond
    have hround := le_nearestUnits (n * unitsPerOne)
    have hstep : 2 ^ 52 * step (n * unitsPerOne) ≤ n * unitsPerOne ∨
        step (n * unitsPerOne) ≤ 1 := by
      rw [or_iff_not_imp_right, Nat.not_le]
      exact mul_step_le
    exact iff_of_false (by omega) (by omega)

/-! ## Out of range -/

/-- Half a step below the limit, in units: no double stands there, and what does not stay below is
out of range. -/
def overflowBound : Nat := (2 ^ 54 - 1) * (unitsLimit / 2 ^ 54)

/-- Rounding stays below a high power of two exactly for what is more than half a step below it. -/
theorem nearestUnits_lt_two_pow_iff {num den : Nat} (hden : 0 < den) (k : Nat) :
    nearestUnits num den < 2 ^ 54 * 2 ^ k ↔ num < (2 ^ 54 - 1) * 2 ^ k * den := by
  have hpos : 0 < 2 ^ k := Nat.two_pow_pos k
  have htop : 2 * 2 ^ 53 - 1 = 2 ^ 54 - 1 := by decide
  have hlow : num / den * den ≤ num := Nat.div_mul_le_self num den
  have hhigh : num < (num / den + 1) * den := Nat.lt_mul_of_div_lt (Nat.lt_succ_self _) hden
  rcases Nat.lt_or_ge (num / den) (2 ^ 53 * 2 ^ k) with hsmall | hlarge
  · have hmul : (num / den + 1) * den ≤ (2 ^ 54 - 1) * 2 ^ k * den :=
      Nat.mul_le_mul_right den (by omega)
    have hround := nearestUnits_le_add_step num den
    refine iff_of_true ?_ (lt_of_lt_of_le hhigh hmul)
    by_cases hzero : num / den = 0
    · rw [hzero] at hround
      have hstep : step 0 = 1 := rfl
      omega
    · have hstep := step_le hzero
      omega
  · rcases Nat.lt_or_ge (num / den) (2 ^ 54 * 2 ^ k) with hwithin | hbeyond
    · -- The steps here are those of the numbers just below the limit.
      have hlog : (num / den).log2 = 53 + k := by
        rw [Nat.log2_eq_iff (by omega), Nat.pow_add, Nat.add_right_comm, Nat.pow_add]
        exact ⟨hlarge, hwithin⟩
      have hstep : step (num / den) = 2 * 2 ^ k := by
        rw [step, stepExponent, hlog, show 53 + k - 52 = 1 + k by omega, Nat.pow_add]
      have hround : nearestUnits num den < 2 ^ 54 * 2 ^ k ↔
          roundQuotient num (den * (2 * 2 ^ k)) < 2 ^ 53 := by
        rw [nearestUnits_eq, hstep, show 2 ^ 54 * 2 ^ k = 2 ^ 53 * (2 * 2 ^ k) by omega]
        exact Nat.mul_lt_mul_right (by omega)
      rw [← htop]
      exact hround.trans (roundQuotient_lt_iff_half hden hpos (by decide))
    · have hmul : 2 ^ 54 * 2 ^ k * den ≤ num / den * den := Nat.mul_le_mul_right den hbeyond
      have hbound : (2 ^ 54 - 1) * 2 ^ k * den ≤ 2 ^ 54 * 2 ^ k * den :=
        Nat.mul_le_mul_right den (by omega)
      have hround : 2 ^ 54 * 2 ^ k ≤ nearestUnits num den := by
        rw [← Nat.pow_add] at hbeyond ⊢
        exact two_pow_le_nearestUnits hbeyond
      exact iff_of_false (Nat.not_lt.2 hround) (Nat.not_lt.2 (hbound.trans (hmul.trans hlow)))

/-- The bound is just below the limit, and both are far above one. -/
theorem exists_overflowBound :
    ∃ k, unitsLimit = 2 ^ 54 * 2 ^ k ∧ overflowBound = (2 ^ 54 - 1) * 2 ^ k ∧
      2 ^ 64 * unitsPerOne ≤ 2 ^ k := by
  have hlimit : ∃ j k, 64 ≤ j ∧ unitsPerOne = 2 ^ k ∧ unitsLimit = 2 ^ 54 * 2 ^ (j + k) := by
    have hsplit : 2098 = 54 + (970 + 1074) := by decide
    have hfar : 64 ≤ 970 := by decide
    unfold unitsLimit unitsPerOne
    rw [hsplit]
    generalize 970 = j at hfar ⊢
    generalize 1074 = k
    exact ⟨j, k, hfar, rfl, Nat.pow_add 2 _ _⟩
  obtain ⟨j, k, hj, hone, hlimit⟩ := hlimit
  refine ⟨j + k, hlimit, ?_, ?_⟩
  · rw [overflowBound, hlimit, Nat.mul_div_cancel_left _ (Nat.two_pow_pos 54)]
  · rw [hone, Nat.pow_add]
    exact Nat.mul_le_mul_right _ (Nat.pow_le_pow_right (by omega) hj)

-- Nor is any to compute the bound.
seal overflowBound

/-- The bound is far above all integers of 64 bits. -/
theorem mul_unitsPerOne_le_overflowBound : 2 ^ 64 * unitsPerOne ≤ overflowBound := by
  obtain ⟨k, -, hbound, hone⟩ := exists_overflowBound
  rw [hbound]
  omega

/-- The bound is above one. -/
theorem unitsPerOne_le_overflowBound : unitsPerOne ≤ overflowBound :=
  (Nat.le_mul_of_pos_left _ (Nat.two_pow_pos 64)).trans mul_unitsPerOne_le_overflowBound

/-- A quotient is within the range of doubles exactly when it is below the bound. -/
theorem nearestUnits_lt_iff {num den : Nat} (hden : 0 < den) :
    nearestUnits num den < unitsLimit ↔ num < overflowBound * den := by
  obtain ⟨k, hlimit, hbound, -⟩ := exists_overflowBound
  rw [hlimit, hbound]
  exact nearestUnits_lt_two_pow_iff hden k

/-- Every double is below the bound. -/
theorem Double.units_lt_overflowBound (d : Double) : d.units < overflowBound := by
  have hlt := d.inRange
  rwa [← nearestUnits_of_representable d.representable, nearestUnits_lt_iff Nat.one_pos,
    Nat.mul_one] at hlt

/-- The whole part of a double has as many ones as its units make. -/
theorem Double.natAbs_toInt (d : Double) : d.toInt.natAbs = d.units / unitsPerOne := by
  rw [toInt]
  split
  · rw [Int.natAbs_neg, Int.natAbs_natCast]
  · rw [Int.natAbs_natCast]

namespace Extended

/-- A quotient of units is rounded to a double exactly when it is below the bound. -/
theorem exists_ofUnits_iff {negative : Bool} {num den : Nat} (hden : 0 < den) :
    (∃ d, ofUnits negative num den = .finite d) ↔ num < overflowBound * den := by
  rw [← nearestUnits_lt_iff hden, ofUnits]
  split
  · next hlt => exact iff_of_true ⟨_, rfl⟩ hlt
  · next hge =>
    refine iff_of_false ?_ hge
    rintro ⟨d, hd⟩
    cases hd

/-- An integer is rounded to a double exactly when it is below the bound. -/
theorem exists_ofInt_iff {n : ℤ} :
    (∃ d, ofInt n = .finite d) ↔ n.natAbs * unitsPerOne < overflowBound := by
  rw [ofInt, ofRatio, exists_ofUnits_iff Nat.one_pos, Nat.mul_one]

/-- The integer that a whole double is has a double of the same size. -/
theorem exists_ofInt_toInt {d : Double} (hwhole : unitsPerOne ∣ d.units) :
    ∃ e, ofInt d.toInt = .finite e ∧ e.units = d.units ∧ e.negative = decide (d.toInt < 0) := by
  have hsize : d.toInt.natAbs * unitsPerOne = d.units := by
    rw [d.natAbs_toInt, Nat.div_mul_cancel hwhole]
  obtain ⟨e, he⟩ := exists_ofInt_iff.2 (hsize ▸ d.units_lt_overflowBound)
  obtain ⟨hunits, hnegative⟩ := units_of_ofInt he
  rw [hsize, nearestUnits_of_representable d.representable] at hunits
  exact ⟨e, he, hunits, hnegative⟩

/-- Rounding a double to a whole number stays in range: a large double is a whole number. -/
theorem exists_roundHalfAway (d : Double) : ∃ e, roundHalfAway (.finite d) = .finite e := by
  rw [roundHalfAway, exists_ofUnits_iff Nat.one_pos, Nat.mul_one]
  have hone := unitsPerOne_pos
  rcases Nat.lt_or_ge d.units (2 ^ 53 * unitsPerOne) with hsmall | hlarge
  · have hround : (d.units + unitsPerOne / 2) / unitsPerOne * unitsPerOne ≤
        d.units + unitsPerOne / 2 := Nat.div_mul_le_self _ _
    have hbound := mul_unitsPerOne_le_overflowBound
    omega
  · obtain ⟨n, hn⟩ := unitsPerOne_dvd d.representable hlarge
    have hround : (d.units + unitsPerOne / 2) / unitsPerOne * unitsPerOne = d.units := by
      rw [hn, Nat.mul_add_div hone, Nat.div_eq_of_lt (by omega), Nat.add_zero, Nat.mul_comm]
    rw [hround]
    exact d.units_lt_overflowBound

/-- A double is scaled to a double exactly when the product is below the bound. -/
theorem exists_scale_iff (d : Double) {num den : Nat} (hden : 0 < den) :
    (∃ e, scale (.finite d) num den = .finite e) ↔ d.units * num < overflowBound * den :=
  exists_ofUnits_iff hden

/-- A double can be rounded to decimal places exactly when the product with the power of ten, which
is computed first, is in range. -/
theorem exists_roundToPlaces_iff (d : Double) (places : Nat) :
    (∃ e, roundToPlaces (.finite d) places = .finite e) ↔
      d.units * 10 ^ places < overflowBound := by
  have hproduct := @exists_scale_iff d (10 ^ places) 1 Nat.one_pos
  rw [Nat.mul_one] at hproduct
  rw [← hproduct, roundToPlaces, Nat.pow_eq]
  constructor
  · rintro ⟨e, he⟩
    cases hx : scale (.finite d) (10 ^ places) 1 with
    | finite x => exact ⟨x, rfl⟩
    | infinite negative | undefined =>
      rw [hx] at he
      cases he
  · rintro ⟨x, hx⟩
    obtain ⟨y, hy⟩ := exists_roundHalfAway x
    have hpow : 0 < 10 ^ places := Nat.pow_pos (by omega)
    have hlast : y.units * 1 < overflowBound * 10 ^ places := by
      rw [Nat.mul_one]
      exact lt_of_lt_of_le y.units_lt_overflowBound (Nat.le_mul_of_pos_right _ hpow)
    rw [hx, hy]
    exact (exists_scale_iff y hpow).2 hlast

end Extended

/-- A decimal with digits behind the point, but not so many that it is next to nothing, is read by
rounding the quotient that it is. -/
theorem Decimal.toExtended_places {negative : Bool} {digits places : Nat} (hdigits : digits ≠ 0)
    (hplaces : places ≤ digits.log2 + 401) :
    toExtended ⟨negative, digits, 0 - (places : ℤ)⟩ =
      Extended.ofUnits negative (digits * unitsPerOne) (10 ^ places) := by
  rw [toExtended]
  dsimp only
  rw [if_neg hdigits]
  split
  · -- There are no digits behind the point.
    have hnone : places = 0 := by omega
    have hpower : Nat.pow 10 (0 - ((0 : Nat) : ℤ)).toNat = 1 := rfl
    rw [hnone, if_neg (by decide), hpower, Nat.mul_one, Nat.pow_zero]
    rfl
  · have hcount : (-(0 - (places : ℤ))).toNat = places := by omega
    rw [hcount, if_neg (Nat.not_lt.2 hplaces)]
    rfl

/-- A decimal with so many digits behind the point that it is next to nothing is read as zero. -/
theorem Decimal.toExtended_tiny {negative : Bool} {digits places : Nat}
    (htiny : digits = 0 ∨ digits.log2 + 401 < places) :
    toExtended ⟨negative, digits, 0 - (places : ℤ)⟩ = Extended.ofUnits negative 0 1 := by
  rw [toExtended]
  dsimp only
  split
  · rfl
  · next hdigits =>
    have hplaces := htiny.resolve_left hdigits
    have hcount : (-(0 - (places : ℤ))).toNat = places := by omega
    rw [if_neg (by omega), hcount, if_pos hplaces]

/-- A decimal with digits behind the point is read as a double exactly when it is below the
bound. -/
theorem Decimal.exists_toExtended_iff (negative : Bool) (digits places : Nat) :
    (∃ d, toExtended ⟨negative, digits, 0 - (places : ℤ)⟩ = .finite d) ↔
      digits * unitsPerOne < overflowBound * 10 ^ places := by
  have hone := unitsPerOne_le_overflowBound
  have hbound : 0 < overflowBound := lt_of_lt_of_le unitsPerOne_pos hone
  have hpow : 0 < 10 ^ places := Nat.pow_pos (by omega)
  by_cases htiny : digits = 0 ∨ digits.log2 + 401 < places
  · have hlt : digits < 10 ^ places := by
      rcases htiny with hzero | hplaces
      · omega
      · by_cases hzero : digits = 0
        · omega
        · calc
            digits < 2 ^ places := (Nat.log2_lt hzero).1 (by omega)
            _ ≤ 10 ^ places := Nat.pow_le_pow_left (by omega) places
    rw [toExtended_tiny htiny, Extended.exists_ofUnits_iff Nat.one_pos, Nat.mul_one,
      Nat.mul_comm overflowBound]
    exact iff_of_true hbound (Nat.mul_lt_mul_of_lt_of_le hlt hone hbound)
  · obtain ⟨hdigits, hplaces⟩ := not_or.1 htiny
    rw [toExtended_places hdigits (Nat.not_lt.1 hplaces)]
    exact Extended.exists_ofUnits_iff hpow

end Vetting
