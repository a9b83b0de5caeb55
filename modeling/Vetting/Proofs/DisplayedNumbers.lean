import Vetting.Proofs.Numerals

/-!
# Displayed numbers read back

The text that a number is displayed as is read as the double that the number is or is rounded to,
unless it is scientific, which is not read at all (`floatOfValue?_number`). The text of a double
that is no whole number spells a decimal in its rounding interval (`Double.inInterval_text`), and
what lies in that interval is rounded to the double again (`nearestUnits_of_inInterval`), also below
the least significand of a power of two, where the doubles are twice as dense.
-/

set_option autoImplicit false

namespace Vetting

open Pattern

-- No proof is to compute how many units make one, or where doubles end.
seal unitsPerOne overflowBound

/-! ## Rounding into a double -/

/-- A quotient is rounded to a whole number that it is within one half of. It may be one half away
only from an even one. -/
theorem roundQuotient_eq {num den k : Nat} (hden : 0 < den)
    (hlow : 2 * (k * den) ≤ 2 * num + den) (hhigh : 2 * num ≤ 2 * (k * den) + den)
    (hinside : k % 2 = 1 → 2 * (k * den) < 2 * num + den ∧ 2 * num < 2 * (k * den) + den) :
    roundQuotient num den = k := by
  have hsplit : num / den * den + num % den = num := Nat.div_add_mod' num den
  have hlt : num % den < den := Nat.mod_lt _ hden
  have hside : num / den + 1 < k ∨ num / den + 1 = k ∨ num / den = k ∨ k < num / den := by omega
  rcases hside with hbelow | rfl | rfl | habove
  · have hmul := Nat.mul_le_mul_right den (Nat.succ_le_of_lt hbelow)
    rw [Nat.succ_mul, Nat.succ_mul] at hmul
    omega
  · -- The quotient is in the upper half, or in the middle below an even number.
    rw [Nat.succ_mul (num / den)] at hlow hhigh hinside
    simp only [roundQuotient]
    split
    · omega
    · split
      · rfl
      · have hodd : ¬ (num / den + 1) % 2 = 1 := fun hodd => by
          have hends := hinside hodd
          omega
        omega
  · simp only [roundQuotient]
    split
    · rfl
    · split
      · omega
      · have heven : ¬ num / den % 2 = 1 := fun hodd => by
          have hends := hinside hodd
          omega
        omega
  · have hmul := Nat.mul_le_mul_right den (Nat.succ_le_of_lt habove)
    rw [Nat.succ_mul] at hmul
    omega

/-- The step of the numbers that fill 53 bits of some power of two. -/
theorem step_eq_two_pow {units e : Nat} (hlow : 2 ^ 52 * 2 ^ e ≤ units)
    (hhigh : units < 2 ^ 53 * 2 ^ e) : step units = 2 ^ e := by
  have hpos := Nat.two_pow_pos e
  have hlog : units.log2 = 52 + e := by
    rw [Nat.log2_eq_iff (by omega), Nat.pow_add, Nat.add_right_comm, Nat.pow_add]
    exact ⟨hlow, hhigh⟩
  rw [step, stepExponent, hlog, Nat.add_sub_cancel_left]

/-- The step of the numbers that fit 53 bits is a single unit. -/
theorem step_eq_one {units : Nat} (h : units < 2 ^ 53) : step units = 1 := by
  have hlog : units.log2 ≤ 52 := by
    by_cases hzero : units = 0
    · rw [hzero]
      decide
    · have hlt := (Nat.log2_lt hzero).2 h
      omega
  rw [step, stepExponent, Nat.sub_eq_zero_of_le hlog, Nat.pow_zero]

/-- A quotient is rounded to a number of steps that it is within half a step of. It may be half a
step away only from an even number of them. -/
theorem nearestUnits_eq_mul {num den k c : Nat} (hden : 0 < den) (hc : 0 < c)
    (hstep : step (num / den) = c) (hlow : 2 * (k * c * den) ≤ 2 * num + c * den)
    (hhigh : 2 * num ≤ 2 * (k * c * den) + c * den)
    (hinside : k % 2 = 1 →
      2 * (k * c * den) < 2 * num + c * den ∧ 2 * num < 2 * (k * c * den) + c * den) :
    nearestUnits num den = k * c := by
  rw [Nat.mul_assoc] at hlow hhigh hinside
  rw [nearestUnits_eq, hstep, Nat.mul_comm den,
    roundQuotient_eq (Nat.mul_pos hc hden) hlow hhigh hinside]

/-- The rounding interval, as bounds of the numerator of a quotient in it. -/
theorem Double.InInterval.bounds {units num den : Nat} (hden : 0 < den)
    (h : InInterval units ((num : ℚ) / den)) :
    4 * (units * den) ≤ 4 * num + below units * den ∧
      4 * num ≤ 4 * (units * den) + 2 * (step units * den) ∧
      (units / step units % 2 = 1 → 4 * (units * den) < 4 * num + below units * den ∧
        4 * num < 4 * (units * den) + 2 * (step units * den)) := by
  have hpos : (0 : ℚ) < den := by exact_mod_cast hden
  have hscaled : 4 * ((num : ℚ) / den) * den = 4 * num := by
    rw [mul_assoc, div_mul_cancel₀ _ hpos.ne']
  simp only [← Nat.mul_assoc]
  refine ⟨?_, ?_, fun hodd => ⟨?_, ?_⟩⟩
  · have hle := mul_le_mul_of_nonneg_right h.low hpos.le
    rw [add_mul, hscaled] at hle
    exact_mod_cast hle
  · have hle := mul_le_mul_of_nonneg_right h.high hpos.le
    rw [add_mul, hscaled] at hle
    exact_mod_cast hle
  · have hlt := mul_lt_mul_of_pos_right (h.inside hodd).1 hpos
    rw [add_mul, hscaled] at hlt
    exact_mod_cast hlt
  · have hlt := mul_lt_mul_of_pos_right (h.inside hodd).2 hpos
    rw [add_mul, hscaled] at hlt
    exact_mod_cast hlt

section Interval

variable {units num den : Nat} (hden : 0 < den) (h : Double.InInterval units ((num : ℚ) / den))

include hden h

/-- Where steps are single units, a number is rounded to the nearest one. -/
theorem nearestUnits_of_single (hstep : step units = 1) : nearestUnits num den = units := by
  obtain ⟨hlow, hhigh, hinside⟩ := h.bounds hden
  have hfull := lt_mul_step units
  have hends : Double.below units = 2 := by
    rw [Double.below, hstep, if_neg (by omega)]
  rw [hends] at hlow hinside
  rw [hstep] at hhigh hinside hfull
  rw [Nat.div_one] at hinside
  have hquotient : num / den < units + 1 := by
    rw [Nat.div_lt_iff_lt_mul hden, Nat.succ_mul]
    omega
  have hnear := @nearestUnits_eq_mul num den units 1 hden Nat.one_pos (step_eq_one (by omega))
  rw [Nat.mul_one, Nat.one_mul] at hnear
  exact hnear (by omega) (by omega) (by omega)

/-- Below the least significand steps are half as wide, and what is within a quarter of the step
above is rounded up. -/
theorem nearestUnits_of_edge {k : Nat} (hunits : units = 2 ^ 53 * 2 ^ k)
    (hends : Double.below units = 2 * 2 ^ k) (hless : num < units * den) :
    nearestUnits num den = units := by
  obtain ⟨hlow, -, -⟩ := h.bounds hden
  have hpos : 0 < 2 ^ k * den := Nat.mul_pos (Nat.two_pow_pos k) hden
  rw [hends, hunits] at hlow
  rw [hunits] at hless
  simp only [Nat.mul_assoc] at hlow hless
  have hstep : step (num / den) = 2 ^ k := by
    refine step_eq_two_pow ?_ ?_
    · rw [Nat.le_div_iff_mul_le hden, Nat.mul_assoc]
      omega
    · rwa [Nat.div_lt_iff_lt_mul hden, Nat.mul_assoc]
  rw [hunits]
  refine nearestUnits_eq_mul hden (Nat.two_pow_pos k) hstep ?_ ?_ fun hodd => ?_
  · rw [Nat.mul_assoc]
    omega
  · rw [Nat.mul_assoc]
    omega
  · omega

/-- Elsewhere what is within half a step lies where the doubles have that step. -/
theorem step_eq_of_inInterval (hrep : Representable units) (hwide : 1 < step units)
    (hinner : units / step units ≠ 2 ^ 52 ∨ units * den ≤ num) :
    step (num / den) = step units := by
  obtain ⟨hlow, hhigh, hinside⟩ := h.bounds hden
  have hfull : units / step units + 1 ≤ 2 ^ 53 :=
    (Nat.div_lt_iff_lt_mul (step_pos units)).2 (lt_mul_step units)
  have hleast : 2 ^ 52 ≤ units / step units :=
    (Nat.le_div_iff_mul_le (step_pos units)).2 (mul_step_le hwide)
  have hends : Double.below units * den ≤ 2 * (step units * den) := by
    rw [← Nat.mul_assoc]
    exact Nat.mul_le_mul_right den (Double.below_le_step units)
  have hpos : 0 < step units * den := Nat.mul_pos (step_pos units) hden
  have hunits : units / step units * (step units * den) = units * den := by
    rw [← Nat.mul_assoc, Nat.div_mul_cancel (step_dvd hrep)]
  -- The number has the same steps, as it is not below the least significand.
  have hbottom : 2 ^ 52 * (step units * den) ≤ num := by
    have hscaled := Nat.mul_le_mul_right (step units * den) hleast
    by_cases hedge : units / step units = 2 ^ 52
    · have hless := hinner.resolve_left (not_not_intro hedge)
      omega
    · have habove : 2 ^ 52 + 1 ≤ units / step units := by omega
      have hscaled := Nat.mul_le_mul_right (step units * den) habove
      omega
  have htop : num < 2 ^ 53 * (step units * den) := by
    have hscaled := Nat.mul_le_mul_right (step units * den) hfull
    rw [Nat.succ_mul] at hscaled
    omega
  refine step_eq_two_pow ?_ ?_
  · rw [Nat.le_div_iff_mul_le hden, Nat.mul_assoc]
    exact hbottom
  · rw [Nat.div_lt_iff_lt_mul hden, Nat.mul_assoc]
    exact htop

/-- Elsewhere what is within half a step is rounded to the same number of steps. -/
theorem nearestUnits_of_steps (hrep : Representable units) (hwide : 1 < step units)
    (hinner : units / step units ≠ 2 ^ 52 ∨ units * den ≤ num) : nearestUnits num den = units := by
  obtain ⟨hlow, hhigh, hinside⟩ := h.bounds hden
  have hends : Double.below units * den ≤ 2 * (step units * den) := by
    rw [← Nat.mul_assoc]
    exact Nat.mul_le_mul_right den (Double.below_le_step units)
  have hnear := @nearestUnits_eq_mul num den (units / step units) (step units) hden
    (step_pos units) (step_eq_of_inInterval hden h hrep hwide hinner)
  rw [Nat.div_mul_cancel (step_dvd hrep)] at hnear
  refine hnear (by omega) (by omega) fun hodd => ?_
  have hstrict := hinside hodd
  omega

end Interval

/-- What lies in the rounding interval of a representable number of units is rounded to it. -/
theorem nearestUnits_of_inInterval {units num den : Nat} (hrep : Representable units)
    (hden : 0 < den) (h : Double.InInterval units ((num : ℚ) / den)) :
    nearestUnits num den = units := by
  rcases Nat.lt_or_ge 1 (step units) with hwide | hone
  swap
  · exact nearestUnits_of_single hden h (Nat.le_antisymm hone (step_pos units))
  by_cases hedge : units / step units = 2 ^ 52 ∧ num < units * den
  · obtain ⟨hleast, hless⟩ := hedge
    obtain ⟨k, hk⟩ : ∃ k, step units = 2 * 2 ^ k := by
      obtain ⟨k, hk⟩ := Nat.exists_eq_succ_of_ne_zero (Nat.one_lt_two_pow_iff.1 hwide)
      exact ⟨k, by rw [step, hk, Nat.pow_succ, Nat.mul_comm]⟩
    have hwhole := Nat.div_mul_cancel (step_dvd hrep)
    rw [hleast, hk] at hwhole
    have hunits : units = 2 ^ 53 * 2 ^ k := by omega
    refine nearestUnits_of_edge hden h hunits ?_ hless
    rw [Double.below, if_pos ⟨hleast, hwide⟩, hk]
  · refine nearestUnits_of_steps hden h hrep hwide ?_
    rwa [not_and_or, Nat.not_lt] at hedge

/-! ## The text of a double, read -/

namespace Double

/-- Half of a positive double is below its rounding interval. -/
theorem InInterval.le_two_mul {units : Nat} {x : ℚ} (hunits : units ≠ 0) (h : InInterval units x) :
    (units : ℚ) ≤ 2 * x := by
  have hbelow : below units ≤ 2 * units := by
    have hstep := step_le hunits
    have hends := below_le_step units
    omega
  have hcast : (below units : ℚ) ≤ 2 * units := by exact_mod_cast hbelow
  have hlow := h.low
  linarith

/-- The text of a double that is neither scientific nor a whole number spells a decimal in its
rounding interval. -/
theorem inInterval_text {d : Double} (hplain : ¬ d.Scientific) (h : d.isIntegral = false) :
    ∃ whole decimals,
      d.text.toList = (if d.negative then ['-'] else []) ++ (whole ++ '.' :: decimals) ∧
      IsDigits whole ∧ IsDigits decimals ∧
      InInterval d.units ((Decimal.digitsValue (whole ++ decimals) * unitsPerOne : Nat) /
        (10 ^ decimals.length : Nat)) := by
  obtain ⟨whole, decimals, zeros, htext, hwhole, hdecimals, hvalue, hzeros⟩ :=
    text_of_plain hplain h
  refine ⟨whole, decimals, htext, hwhole, hdecimals, ?_⟩
  obtain ⟨digits, power, heq, -, -, hwithin⟩ :=
    shortestDigits_eq d.representable (lt_of_not_isIntegral h).1
  obtain ⟨dropped, hdropped⟩ := exists_toDigits_eq digits
  rw [heq] at hvalue hzeros
  simp only at hvalue hzeros
  -- Zeros were dropped behind the digits, and others may be written there.
  have hdigits : digits = Nat.ofDigitChars 10 (significant digits) 0 * 10 ^ dropped := by
    rw [← ofDigitChars_append_zeros, ← hdropped, Nat.ofDigitChars_ten_toDigits]
  have hlength : (Nat.toDigits 10 digits).length = (significant digits).length + dropped := by
    rw [hdropped, List.length_append, List.length_replicate]
  have hshift : (10 : ℚ) ^ zeros = 10 ^ dropped * (10 ^ power * 10 ^ decimals.length) := by
    have hsum : (zeros : ℤ) = dropped + (power + decimals.length) := by omega
    rw [← zpow_natCast, hsum, zpow_add₀ (by norm_num), zpow_add₀ (by norm_num), zpow_natCast,
      zpow_natCast]
  have hnumber : (Decimal.digitsValue (whole ++ decimals) : ℚ) =
      digits * 10 ^ power * 10 ^ decimals.length := by
    rw [Decimal.digitsValue_eq, hvalue]
    conv_rhs => rw [hdigits]
    push_cast
    rw [hshift]
    ring
  have hpos : (10 : ℚ) ^ decimals.length ≠ 0 := by positivity
  have hspelled : ((Decimal.digitsValue (whole ++ decimals) * unitsPerOne : Nat) : ℚ) /
      (10 ^ decimals.length : Nat) = unitsPerOne * (digits * 10 ^ power) := by
    rw [Nat.cast_mul, hnumber, Nat.cast_pow, Nat.cast_ofNat, div_eq_iff hpos]
    ring
  rw [hspelled]
  exact hwithin

end Double

/-- A decimal in the rounding interval of a double from `10⁻⁵` up is not much smaller than the
double. -/
theorem Double.InInterval.pow_le {units digits places : Nat} (hlow : unitsPerOne ≤ units * 10 ^ 5)
    (h : InInterval units ((digits * unitsPerOne : Nat) / (10 ^ places : Nat))) :
    10 ^ places ≤ 2 * 10 ^ 5 * digits := by
  have hone := unitsPerOne_pos
  have hunits : units ≠ 0 := by
    intro hzero
    rw [hzero] at hlow
    omega
  have hpow : 0 < 10 ^ places := Nat.pow_pos (by omega)
  have hle := h.le_two_mul hunits
  rw [mul_div_assoc', le_div_iff₀ (by exact_mod_cast hpow)] at hle
  have hle : units * 10 ^ places ≤ 2 * (digits * unitsPerOne) := by exact_mod_cast hle
  have hscaled := Nat.mul_le_mul_right (10 ^ places) hlow
  refine Nat.le_of_mul_le_mul_right ?_ hone
  calc
    10 ^ places * unitsPerOne = unitsPerOne * 10 ^ places := Nat.mul_comm _ _
    _ ≤ units * 10 ^ places * 10 ^ 5 := by rwa [Nat.mul_right_comm]
    _ ≤ 2 * (digits * unitsPerOne) * 10 ^ 5 := Nat.mul_le_mul_right _ hle
    _ = 2 * 10 ^ 5 * digits * unitsPerOne := by ring

/-- A decimal that is not close to zero has no more places than are read. -/
theorem Decimal.places_le {digits places : Nat} (hsize : 10 ^ places ≤ 2 * 10 ^ 5 * digits) :
    places ≤ digits.log2 + 401 := by
  by_contra hmany
  have hbits : digits < 2 ^ (digits.log2 + 1) := Nat.lt_log2_self
  have hfar : 2 ^ 20 * 2 ^ (digits.log2 + 1) ≤ 10 ^ places := by
    rw [← Nat.pow_add]
    exact (Nat.pow_le_pow_right (by omega) (by omega)).trans
      (Nat.pow_le_pow_left (by omega) places)
  omega

/-- A decimal in the rounding interval of a double from `10⁻⁵` up is read as that double. -/
theorem Decimal.toExtended_of_inInterval {d : Double} {digits places : Nat}
    (hlow : unitsPerOne ≤ d.units * 10 ^ 5)
    (h : Double.InInterval d.units ((digits * unitsPerOne : Nat) / (10 ^ places : Nat))) :
    toExtended ⟨d.negative, digits, 0 - (places : ℤ)⟩ = .finite d := by
  have hpow : 0 < 10 ^ places := Nat.pow_pos (by omega)
  have hsize := h.pow_le hlow
  have hdigits : digits ≠ 0 := by
    rintro rfl
    omega
  have hround := nearestUnits_of_inInterval d.representable hpow h
  rw [toExtended_places hdigits (places_le hsize), Extended.ofUnits,
    dif_pos (by rw [hround]; exact d.inRange)]
  simp only [hround]

namespace Module

/-- Digits, with a minus before them or without, are read as the whole number that they spell. -/
theorem floatOfText?_signed (negative : Bool) (n : Nat) :
    floatOfText? ((if negative then "-" else "") ++ toString n) =
      some (Extended.ofUnits negative (n * unitsPerOne) 1) := by
  rw [floatOfText?_whole (toList_signed negative n) (isSign_ite negative) (isDigits_toString n),
    Decimal.digitsValue_toString]
  cases negative <;> rfl

/-- The text of an integer is read as the double that it is rounded to. -/
theorem floatOfText?_toString (n : ℤ) : floatOfText? (toString n) = some (Extended.ofInt n) := by
  rw [Extended.ofInt, Extended.ofRatio]
  cases n with
  | ofNat n =>
    have hread := floatOfText?_signed false n
    rw [if_neg Bool.false_ne_true, String.empty_append] at hread
    have hsign : ¬ Int.ofNat n < 0 := Int.not_lt.2 (Int.natCast_nonneg n)
    rw [decide_eq_false hsign]
    exact hread
  | negSucc n =>
    rw [decide_eq_true (Int.negSucc_lt_zero n)]
    exact floatOfText?_signed true (n + 1)

/-- The plain text of a number, unless it is scientific, is read as the double that the number is or
is rounded to. -/
theorem floatOfText?_displayNumber {number : Number}
    (haccepts : Pattern.float.accepts (Value.displayNumber number) = true) :
    floatOfText? (Value.displayNumber number) = some number.toExtended := by
  cases number with
  | int n => exact floatOfText?_toString n
  | double d =>
    have hplain := (Value.accepts_displayNumber d).1.1 haccepts
    cases hwhole : d.isIntegral with
    | true =>
      have hdvd := Nat.dvd_of_mod_eq_zero (beq_iff_eq.1 hwhole)
      rw [Value.displayNumber_of_plain hwhole hplain, floatOfText?_signed]
      exact congrArg some (Extended.trunc_of_dvd hdvd)
    | false =>
      obtain ⟨whole, decimals, htext, hdigits, hdecimals, hwithin⟩ :=
        Double.inInterval_text hplain hwhole
      have hunits := (Double.lt_of_not_isIntegral hwhole).1
      have hlow : unitsPerOne ≤ d.units * 10 ^ 5 := by
        by_contra hsmall
        exact hplain ⟨hunits, Or.inl (Nat.lt_of_not_le hsmall)⟩
      have hdisplay : Value.displayNumber (.double d) = d.text := by
        rw [Value.displayNumber, hwhole]
        rfl
      have hminus : decide ((if d.negative then ['-'] else []) = ['-']) = d.negative := by
        cases d.negative <;> rfl
      rw [hdisplay, floatOfText?_numeral htext (isSign_ite d.negative) hdigits
        (Or.inr ⟨'.', decimals, rfl, Or.inl rfl, hdecimals⟩), hminus]
      exact congrArg some (Decimal.toExtended_of_inInterval hlow hwithin)

/-- Reading the text of a number that is held already makes a double of it, unless the text is
scientific. -/
theorem floatOfValue?_number (number : Number) :
    floatOfValue? (.number number) =
      if Pattern.float.accepts (Value.displayNumber number) then some number.toExtended
      else none := by
  have hread : floatOfValue? (.number number) =
      if Pattern.float.accepts (Value.displayNumber number) then
        floatOfText? (Value.displayNumber number)
      else none := rfl
  rw [hread]
  split
  · next haccepts => exact floatOfText?_displayNumber haccepts
  · rfl

end Module

/-- The number that a result of arithmetic becomes in a value becomes itself there. -/
theorem Value.ofExtended_toExtended {x : Extended} {number : Number}
    (h : ofExtended x = .number number) : ofExtended number.toExtended = .number number := by
  cases x with
  | infinite negative | undefined => cases h
  | finite d =>
    by_cases hsmall : (d.isIntegral && d.absBelow integerBound) = true
    · rw [ofExtended, if_pos hsmall] at h
      cases h
      obtain ⟨hwhole, hbelow⟩ := Bool.and_eq_true_iff.1 hsmall
      have hdvd := Nat.dvd_of_mod_eq_zero (beq_iff_eq.1 hwhole)
      obtain ⟨e, he, hunits, hnegative⟩ := Extended.exists_ofInt_toInt hdvd
      have hsame : (e.isIntegral && e.absBelow integerBound) = true := by
        rw [Double.isIntegral, Double.absBelow] at hsmall ⊢
        rw [hunits]
        exact hsmall
      have hint : e.toInt = d.toInt := by
        rw [Double.toInt, hunits, hnegative, ← d.natAbs_toInt]
        by_cases hneg : d.toInt < 0
        · simp only [hneg, decide_true, if_true]
          omega
        · simp only [hneg, decide_false, Bool.false_eq_true, if_false]
          omega
      rw [Number.toExtended, he, ofExtended, if_pos hsame, hint]
      rfl
    · have hdouble := h
      rw [ofExtended, if_neg hsmall, Value.number.injEq] at hdouble
      rw [← hdouble] at h ⊢
      exact h

end Vetting
