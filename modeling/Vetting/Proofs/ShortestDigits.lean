import Vetting.Double.Shortest
import Vetting.Proofs.RoundingToNearest
import Mathlib.Algebra.Order.Field.Power
import Mathlib.Data.List.DropRight
import Mathlib.Data.Rat.Cast.Order
import Mathlib.Tactic.FieldSimp
import Mathlib.Tactic.Linarith
import Mathlib.Tactic.Positivity

/-!
# The digits of a double and where they stand

The fewest digits that read back as a double exist, as a grid of seventeen digits is finer than the
doubles (`isSome_onGrid?`), and they spell a number `digits · 10 ^ power` in the rounding interval.
-/

set_option autoImplicit false

namespace Vetting

/-! ## Decimal digits of a natural number -/

/-- The number of decimal digits of a positive number tells its size. -/
theorem toDigits_bounds {n : Nat} (h : 0 < n) :
    10 ^ ((Nat.toDigits 10 n).length - 1) ≤ n ∧ n < 10 ^ (Nat.toDigits 10 n).length := by
  have hpos : 0 < (Nat.toDigits 10 n).length := Nat.length_toDigits_pos
  refine ⟨?_, (Nat.length_toDigits_le_iff (by omega) hpos).1 (Nat.le_refl _)⟩
  by_cases hone : (Nat.toDigits 10 n).length = 1
  · rw [hone]
    exact h
  · have hiff := @Nat.length_toDigits_le_iff 10 n ((Nat.toDigits 10 n).length - 1) (by omega)
      (by omega)
    omega

/-- The power of ten of the first digit is a whole number. -/
theorem zpow_length_sub_one (n : Nat) :
    (10 : ℚ) ^ (((Nat.toDigits 10 n).length : ℤ) - 1) =
      ((10 ^ ((Nat.toDigits 10 n).length - 1) : Nat) : ℚ) := by
  have hpos : 0 < (Nat.toDigits 10 n).length := Nat.length_toDigits_pos
  have hexp : ((Nat.toDigits 10 n).length : ℤ) - 1 =
      (((Nat.toDigits 10 n).length - 1 : Nat) : ℤ) := by omega
  rw [hexp, zpow_natCast]
  norm_cast

/-- The exponent of the first digit of a decimal, from the number of its digits. -/
theorem zpow_exponent_bounds {digits : Nat} (h : 0 < digits) (power : ℤ) :
    (10 : ℚ) ^ (power + (Nat.toDigits 10 digits).length - 1) ≤ digits * 10 ^ power ∧
      (digits : ℚ) * 10 ^ power < 10 ^ (power + (Nat.toDigits 10 digits).length) := by
  obtain ⟨hle, hlt⟩ := toDigits_bounds h
  have hpower : (0 : ℚ) < 10 ^ power := by positivity
  constructor
  · rw [add_sub_assoc, zpow_add₀ (by norm_num), zpow_length_sub_one, mul_comm]
    exact mul_le_mul_of_nonneg_right (by exact_mod_cast hle) hpower.le
  · rw [zpow_add₀ (by norm_num), mul_comm, zpow_natCast]
    exact mul_lt_mul_of_pos_left (by exact_mod_cast hlt) hpower

/-- The digits of a positive number are not all zero. -/
theorem exists_mem_toDigits_ne_zero {n : Nat} (h : 0 < n) :
    ∃ c ∈ Nat.toDigits 10 n, c ≠ '0' := by
  by_contra hall
  push Not at hall
  have hzeros := List.eq_replicate_of_mem hall
  have hvalue : Nat.ofDigitChars 10 (Nat.toDigits 10 n) 0 = 0 := by
    rw [hzeros, Nat.ofDigitChars_replicate_zero, Nat.mul_zero]
  rw [Nat.ofDigitChars_ten_toDigits] at hvalue
  omega

namespace Double

-- No proof is to compute how many units make one.
seal unitsPerOne

/-! ## The exponent of the first digit -/

/-- A number of units as a number of ones. -/
def inOnes (units : Nat) : ℚ := units / unitsPerOne

/-- One is made of some units, as a fraction. -/
theorem unitsPerOne_pos_rat : (0 : ℚ) < unitsPerOne := by
  exact_mod_cast unitsPerOne_pos

/-- The exponent of the first digit, from the number of digits before the point or of zeros behind
it. -/
theorem leadingExponent_eq (units : Nat) :
    leadingExponent units =
      if unitsPerOne ≤ units then ((Nat.toDigits 10 (units / unitsPerOne)).length : ℤ) - 1
      else -((Nat.toDigits 10 ((unitsPerOne - 1) / units)).length : ℤ) := rfl

/-- The leading exponent tells the size of a positive number of units. -/
theorem leadingExponent_bounds {units : Nat} (h : units ≠ 0) :
    (10 : ℚ) ^ leadingExponent units ≤ inOnes units ∧
      inOnes units < 10 ^ (leadingExponent units + 1) := by
  have hone := unitsPerOne_pos_rat
  rw [leadingExponent_eq, inOnes, le_div_iff₀ hone, div_lt_iff₀ hone]
  split
  · next hle =>
    -- The number of ones is at least one, and its digits are counted.
    have hpos : 0 < units / unitsPerOne := Nat.div_pos hle unitsPerOne_pos
    obtain ⟨hlow, hhigh⟩ := toDigits_bounds hpos
    rw [zpow_length_sub_one, sub_add_cancel, zpow_natCast]
    constructor
    · have hmul := (Nat.le_div_iff_mul_le unitsPerOne_pos).1 hlow
      exact_mod_cast hmul
    · have hmul := (Nat.div_lt_iff_lt_mul unitsPerOne_pos).1 hhigh
      exact_mod_cast hmul
  · next hlt =>
    -- The number is a fraction, and the digits of its inverse are counted.
    have hunits : 0 < units := Nat.pos_of_ne_zero h
    have hpos : 0 < (unitsPerOne - 1) / units := Nat.div_pos (by omega) hunits
    obtain ⟨hlow, hhigh⟩ := toDigits_bounds hpos
    set count := (Nat.toDigits 10 ((unitsPerOne - 1) / units)).length with hcount
    have hcountpos : 0 < count := Nat.length_toDigits_pos
    constructor
    · have hmul : unitsPerOne ≤ 10 ^ count * units := by
        have := (Nat.div_lt_iff_lt_mul hunits).1 hhigh
        omega
      have hcast : (unitsPerOne : ℚ) ≤ 10 ^ count * units := by exact_mod_cast hmul
      rw [zpow_neg, zpow_natCast, inv_mul_le_iff₀ (by positivity)]
      exact hcast
    · have hmul : 10 ^ (count - 1) * units < unitsPerOne := by
        have := (Nat.le_div_iff_mul_le hunits).1 hlow
        omega
      have hcast : (10 : ℚ) ^ (count - 1) * units < unitsPerOne := by exact_mod_cast hmul
      have hexp : -(count : ℤ) + 1 = -((count - 1 : Nat) : ℤ) := by omega
      rw [hexp, zpow_neg, zpow_natCast, lt_inv_mul_iff₀ (by positivity)]
      exact hcast

/-! ## The decimals that round to a double -/

/-- The distance from a number of units to the lower end of its rounding interval, in quarters of a
unit: half a step, or a quarter of one where the doubles below lie closer. -/
def below (units : Nat) : Nat :=
  if units / step units = 2 ^ 52 ∧ 1 < step units then step units else 2 * step units

/-- A number lies in the rounding interval of a positive number of units: it is no farther away than
the ends are, and lies at one of them only if the significand is even. -/
structure InInterval (units : Nat) (x : ℚ) : Prop where
  low : (4 * units : ℚ) ≤ 4 * x + below units
  high : 4 * x ≤ 4 * units + 2 * step units
  inside : units / step units % 2 = 1 →
    (4 * units : ℚ) < 4 * x + below units ∧ 4 * x < 4 * units + 2 * step units

/-- One decimal of the grid, in quarters of a unit and scaled to a whole number. -/
theorem grid_eq (digits : Nat) (power : ℤ) :
    ((digits * (4 * unitsPerOne * 10 ^ power.toNat) : Nat) : ℚ) =
      4 * unitsPerOne * (digits * 10 ^ power) * ((10 ^ (-power).toNat : Nat) : ℚ) := by
  have hscale : (10 : ℚ) ^ power * 10 ^ (-power).toNat = 10 ^ power.toNat := by
    rw [← zpow_natCast, ← zpow_natCast, ← zpow_add₀ (by norm_num)]
    congr 1
    omega
  push_cast
  rw [← hscale]
  ring

/-- A bound in quarters of a unit is below a point of the grid exactly when the decimal of the point
is above it. -/
theorem lt_grid_iff {bound digits : Nat} {power : ℤ} :
    bound * 10 ^ (-power).toNat < digits * (4 * unitsPerOne * 10 ^ power.toNat) ↔
      (bound : ℚ) < 4 * (unitsPerOne * (digits * 10 ^ power)) := by
  have hdown : (0 : ℚ) < ((10 ^ (-power).toNat : Nat) : ℚ) := by positivity
  rw [← @Nat.cast_lt ℚ, grid_eq, Nat.cast_mul, mul_lt_mul_iff_of_pos_right hdown, mul_assoc 4]

/-- A bound in quarters of a unit is above a point of the grid exactly when the decimal of the point
is below it. -/
theorem grid_lt_iff {bound digits : Nat} {power : ℤ} :
    digits * (4 * unitsPerOne * 10 ^ power.toNat) < bound * 10 ^ (-power).toNat ↔
      4 * (unitsPerOne * (digits * 10 ^ power)) < (bound : ℚ) := by
  have hdown : (0 : ℚ) < ((10 ^ (-power).toNat : Nat) : ℚ) := by positivity
  rw [← @Nat.cast_lt ℚ, grid_eq, Nat.cast_mul, mul_lt_mul_iff_of_pos_right hdown, mul_assoc 4]

section Grid

variable {value grid low high digits : Nat} {closed : Bool} {exponent power : ℤ}

/-- The neighbour of a value on a grid that lies within two ends, the nearer one if both do. -/
def neighbour (value grid low high : Nat) (closed : Bool) (power : ℤ) : Option (Nat × ℤ) :=
  let digits := value / grid
  let lower := digits * grid
  let upper := lower + grid
  match low < lower || (closed && low == lower), upper < high || (closed && upper == high) with
  | false, false => none
  | true, false => some (digits, power)
  | false, true => some (digits + 1, power)
  | true, true =>
    let toLower := value - lower
    let toUpper := upper - value
    if toLower < toUpper || (toLower == toUpper && digits % 2 == 0) then some (digits, power)
    else some (digits + 1, power)

/-- A neighbour is the last point of the grid that is not above the value, or the next one. -/
theorem neighbour_eq_some
    (h : neighbour value grid low high closed exponent = some (digits, power)) :
    power = exponent ∧ value / grid ≤ digits := by
  simp only [neighbour] at h
  split at h
  · cases h
  · cases h
    exact ⟨rfl, Nat.le_refl _⟩
  · cases h
    exact ⟨rfl, Nat.le_succ _⟩
  · split at h
    · cases h
      exact ⟨rfl, Nat.le_refl _⟩
    · cases h
      exact ⟨rfl, Nat.le_succ _⟩

/-- A neighbour of a value between the ends is between them, too, and at one of them only if they
count. -/
theorem neighbour_within (hgrid : 0 < grid) (hlow : low ≤ value) (hhigh : value < high)
    (h : neighbour value grid low high closed exponent = some (digits, power)) :
    (low < digits * grid ∨ closed = true ∧ low = digits * grid) ∧
      (digits * grid < high ∨ closed = true ∧ digits * grid = high) := by
  have hlower : value / grid * grid ≤ value := Nat.div_mul_le_self _ _
  have hupper : value < (value / grid + 1) * grid :=
    Nat.lt_mul_of_div_lt (Nat.lt_succ_self _) hgrid
  -- The lower neighbour is not above the value, and the upper one is above it.
  have hdown : (low < value / grid * grid || closed && low == value / grid * grid) = true →
      (low < value / grid * grid ∨ closed = true ∧ low = value / grid * grid) ∧
        (value / grid * grid < high ∨ closed = true ∧ value / grid * grid = high) := by
    intro hin
    simp only [Bool.or_eq_true, decide_eq_true_eq, Bool.and_eq_true, beq_iff_eq] at hin
    exact ⟨hin, Or.inl (lt_of_le_of_lt hlower hhigh)⟩
  have hup : (value / grid * grid + grid < high ||
      closed && value / grid * grid + grid == high) = true →
      (low < (value / grid + 1) * grid ∨ closed = true ∧ low = (value / grid + 1) * grid) ∧
        ((value / grid + 1) * grid < high ∨ closed = true ∧ (value / grid + 1) * grid = high) := by
    intro hin
    simp only [Bool.or_eq_true, decide_eq_true_eq, Bool.and_eq_true, beq_iff_eq] at hin
    rw [Nat.succ_mul] at hupper ⊢
    exact ⟨Or.inl (lt_of_le_of_lt hlow hupper), hin⟩
  simp only [neighbour] at h
  split at h
  · cases h
  · next hin _ =>
    cases h
    exact hdown hin
  · next hin =>
    cases h
    exact hup hin
  · next hlowin hhighin =>
    split at h
    · cases h
      exact hdown hlowin
    · cases h
      exact hup hhighin

/-- There is a neighbour if the ends are farther apart than the points of the grid. -/
theorem isSome_neighbour (hwide : grid < high - low) :
    (neighbour value grid low high closed exponent).isSome = true := by
  simp only [neighbour]
  split
  · next hlowout hhighout =>
    simp only [Bool.or_eq_false_iff, decide_eq_false_iff_not] at hlowout hhighout
    omega
  · rfl
  · rfl
  · split <;> rfl

/-- The decimal of some number of digits that reads back is a neighbour on their grid. -/
theorem onGrid?_eq (units count : Nat) :
    onGrid? units count =
      let power := leadingExponent units - (count : ℤ) + 1
      let up := Nat.pow 10 power.toNat
      let down := Nat.pow 10 (-power).toNat
      neighbour (4 * units * down) (4 * unitsPerOne * up) ((4 * units - below units) * down)
        ((4 * units + 2 * step units) * down) (units / step units % 2 == 0) power := rfl

end Grid

/-- A rounding interval reaches at most half a step down. -/
theorem below_le_step (units : Nat) : below units ≤ 2 * step units := by
  unfold below
  split <;> omega

/-- The lower end of a rounding interval is not below zero. -/
theorem below_le {units : Nat} (h : units ≠ 0) : below units ≤ 4 * units := by
  have hstep := step_le h
  have hbelow := below_le_step units
  omega

/-- A decimal that is found on the grid of some number of digits is in the rounding interval. -/
theorem onGrid?_inInterval {units count digits : Nat} {power : ℤ} (hunits : units ≠ 0)
    (h : onGrid? units count = some (digits, power)) :
    InInterval units (unitsPerOne * (digits * 10 ^ power)) := by
  rw [onGrid?_eq] at h
  simp only [Nat.pow_eq] at h
  obtain ⟨hpower, -⟩ := neighbour_eq_some h
  rw [← hpower] at h
  have hdown : 0 < 10 ^ (-power).toNat := by positivity
  have hgrid : 0 < 4 * unitsPerOne * 10 ^ power.toNat :=
    Nat.mul_pos (Nat.mul_pos (by omega) unitsPerOne_pos) (by positivity)
  have hstep := step_pos units
  have hlow : (4 * units - below units) * 10 ^ (-power).toNat ≤ 4 * units * 10 ^ (-power).toNat :=
    Nat.mul_le_mul_right _ (Nat.sub_le _ _)
  have hhigh : 4 * units * 10 ^ (-power).toNat <
      (4 * units + 2 * step units) * 10 ^ (-power).toNat :=
    Nat.mul_lt_mul_of_pos_right (by omega) hdown
  obtain ⟨habove, hbelow⟩ := neighbour_within hgrid hlow hhigh h
  have hfirst : ((4 * units - below units : Nat) : ℚ) = 4 * units - below units := by
    rw [Nat.cast_sub (below_le hunits), Nat.cast_mul, Nat.cast_ofNat]
  have hlast : ((4 * units + 2 * step units : Nat) : ℚ) = 4 * units + 2 * step units := by
    push_cast
    ring
  constructor
  · have hle := not_lt.2 (habove.elim le_of_lt fun hend => hend.2.le)
    rw [grid_lt_iff, not_lt, hfirst] at hle
    linarith
  · have hle := not_lt.2 (hbelow.elim le_of_lt fun hend => hend.2.le)
    rwa [lt_grid_iff, not_lt, hlast] at hle
  · -- The ends do not count.
    intro hodd
    have hopen : ¬ (units / step units % 2 == 0) = true := by
      rw [beq_iff_eq, hodd]
      omega
    have hlowLt := habove.resolve_right fun hend => hopen hend.1
    have hhighLt := hbelow.resolve_right fun hend => hopen hend.1
    rw [lt_grid_iff, hfirst] at hlowLt
    rw [grid_lt_iff, hlast] at hhighLt
    exact ⟨by linarith, hhighLt⟩

/-- A decimal that is found on the grid of some number of digits is as large as the leading exponent
says. -/
theorem onGrid?_bounds {units count digits : Nat} {power : ℤ} (hunits : units ≠ 0)
    (hcount : 0 < count) (h : onGrid? units count = some (digits, power)) :
    0 < digits ∧ (10 : ℚ) ^ leadingExponent units ≤ digits * 10 ^ power := by
  have hone := unitsPerOne_pos_rat
  rw [onGrid?_eq] at h
  simp only [Nat.pow_eq] at h
  obtain ⟨hpower, hfloor⟩ := neighbour_eq_some h
  rw [← hpower] at hfloor
  have hscale : (10 : ℚ) ^ (count - 1) * 10 ^ power = 10 ^ leadingExponent units := by
    rw [← zpow_natCast, ← zpow_add₀ (by norm_num)]
    congr 1
    omega
  -- The grid has a point of so many digits that is not above the double.
  have hfirst : 10 ^ (count - 1) ≤ digits := by
    have hgrid : 0 < 4 * unitsPerOne * 10 ^ power.toNat :=
      Nat.mul_pos (Nat.mul_pos (by omega) unitsPerOne_pos) (by positivity)
    refine le_trans ((Nat.le_div_iff_mul_le hgrid).2 ?_) hfloor
    rw [← not_lt, lt_grid_iff, not_lt, Nat.cast_pow, Nat.cast_ofNat, hscale]
    have hlead := (leadingExponent_bounds hunits).1
    rw [inOnes, le_div_iff₀ hone] at hlead
    push_cast
    linarith
  refine ⟨lt_of_lt_of_le (by positivity) hfirst, ?_⟩
  rw [← hscale]
  exact mul_le_mul_of_nonneg_right (by exact_mod_cast hfirst) (by positivity)

/-- A double is less than `10¹⁶` times as large as a quarter of its rounding interval. -/
theorem four_mul_lt {units : Nat} (h : Representable units) :
    4 * units < 10 ^ 16 * (below units + 2 * step units) := by
  have hlt := lt_mul_step units
  have hpos := step_pos units
  unfold below
  split
  · next hnear =>
    have heq := Nat.div_mul_cancel (step_dvd h)
    rw [hnear.1] at heq
    omega
  · omega

/-- Seventeen digits suffice. -/
theorem isSome_onGrid? {units : Nat} (hrep : Representable units) (hunits : units ≠ 0) :
    (onGrid? units 17).isSome = true := by
  have hone := unitsPerOne_pos_rat
  rw [onGrid?_eq]
  simp only [Nat.pow_eq]
  generalize hpower : leadingExponent units - ((17 : Nat) : ℤ) + 1 = power
  have hdown : (0 : ℚ) < ((10 ^ (-power).toNat : Nat) : ℚ) := by positivity
  refine isSome_neighbour ?_
  rw [← Nat.sub_mul]
  have hwidth : 4 * units + 2 * step units - (4 * units - below units) =
      below units + 2 * step units := by
    have hle := below_le hunits
    omega
  rw [hwidth]
  -- The grid of seventeen digits, in ones.
  have hscale : (10 : ℚ) ^ 16 * 10 ^ power = 10 ^ leadingExponent units := by
    rw [← zpow_natCast, ← zpow_add₀ (by norm_num)]
    congr 1
    omega
  have hlead := (leadingExponent_bounds hunits).1
  rw [inOnes, le_div_iff₀ hone, ← hscale] at hlead
  have hwide : (4 : ℚ) * units < 10 ^ 16 * (below units + 2 * step units) := by
    exact_mod_cast four_mul_lt hrep
  have hgrid : (4 : ℚ) * unitsPerOne * 10 ^ power < below units + 2 * step units := by
    linarith
  have hcast : ((1 * (4 * unitsPerOne * 10 ^ power.toNat) : Nat) : ℚ) <
      (((below units + 2 * step units) * 10 ^ (-power).toNat : Nat) : ℚ) := by
    rw [grid_eq, Nat.cast_mul]
    refine mul_lt_mul_of_pos_right ?_ hdown
    push_cast
    linarith
  rw [Nat.one_mul] at hcast
  exact_mod_cast hcast

/-! ## The shortest digits -/

/-- The digits of a number without the zeros at its end. -/
def significant (digits : Nat) : List Char :=
  (Nat.toDigits 10 digits).rdropWhile (· == '0')

/-- What is left off are zeros. -/
theorem exists_toDigits_eq (digits : Nat) :
    ∃ zeros, Nat.toDigits 10 digits = significant digits ++ List.replicate zeros '0' := by
  have hzeros : ∀ c ∈ (Nat.toDigits 10 digits).rtakeWhile (· == '0'), c = '0' :=
    fun c hc => beq_iff_eq.1 (List.mem_rtakeWhile_imp (p := (· == '0')) hc)
  refine ⟨((Nat.toDigits 10 digits).rtakeWhile (· == '0')).length, ?_⟩
  rw [← List.eq_replicate_of_mem hzeros, significant, List.rdropWhile, List.rtakeWhile,
    ← List.reverse_append, List.takeWhile_append_dropWhile, List.reverse_reverse]

/-- The significant digits are digits. -/
theorem isDigit_of_mem_significant {digits : Nat} {c : Char} (h : c ∈ significant digits) :
    c.isDigit = true :=
  Nat.isDigit_of_mem_toDigits (by omega) (by omega) ((List.rdropWhile_prefix _ _).subset h)

/-- A positive number has significant digits. -/
theorem significant_ne_nil {digits : Nat} (h : 0 < digits) : significant digits ≠ [] := by
  obtain ⟨c, hmem, hc⟩ := exists_mem_toDigits_ne_zero h
  intro hnil
  exact hc (beq_iff_eq.1 (List.rdropWhile_eq_nil_iff.1 hnil c hmem))

/-- The shortest digits spell a decimal that is as large as the leading exponent says and lies in
the rounding interval. -/
theorem shortestDigits_eq {units : Nat} (hrep : Representable units) (hunits : units ≠ 0) :
    ∃ digits : Nat, ∃ power : ℤ,
      shortestDigits units =
        (significant digits, power + (Nat.toDigits 10 digits).length - 1) ∧
      0 < digits ∧ (10 : ℚ) ^ leadingExponent units ≤ digits * 10 ^ power ∧
      InInterval units (unitsPerOne * (digits * 10 ^ power)) := by
  unfold shortestDigits
  simp only
  cases hfound : ((List.range 17).map (· + 1)).findSome? (onGrid? units) with
  | none =>
    have hlast := List.findSome?_eq_none_iff.1 hfound 17 (by decide)
    have hsome := isSome_onGrid? hrep hunits
    rw [hlast] at hsome
    cases hsome
  | some found =>
    obtain ⟨digits, power⟩ := found
    obtain ⟨count, hcount, hgrid⟩ := List.exists_of_findSome?_eq_some hfound
    obtain ⟨n, -, rfl⟩ := List.mem_map.1 hcount
    obtain ⟨hpos, hlead⟩ := onGrid?_bounds hunits (Nat.succ_pos n) hgrid
    exact ⟨digits, power, rfl, hpos, hlead, onGrid?_inInterval hunits hgrid⟩

/-! ## The exponent of a text -/

/-- The exponent of the first digit that is written is no less than the leading exponent, and so
small that the power of ten does not exceed the rounding interval. -/
theorem exponent_bounds {units : Nat} (hrep : Representable units) (hunits : units ≠ 0) :
    leadingExponent units ≤ (shortestDigits units).2 ∧
      2 * unitsPerOne * (10 : ℚ) ^ (shortestDigits units).2 ≤ 2 * units + step units := by
  have hone := unitsPerOne_pos_rat
  obtain ⟨digits, power, heq, hpos, hlead, hwithin⟩ := shortestDigits_eq hrep hunits
  obtain ⟨hle, hlt⟩ := zpow_exponent_bounds hpos power
  rw [heq]
  constructor
  · have hexp := (zpow_lt_zpow_iff_right₀ (by norm_num : (1 : ℚ) < 10)).1 (lt_of_le_of_lt hlead hlt)
    simp only
    omega
  · have hhigh := hwithin.high
    have hscaled := mul_le_mul_of_nonneg_left hle hone.le
    linarith

/-- A significand of 53 bits that, taken `5⁵` times, is less than a power of two is still less when
half of one is added to it: no significand stands that near to `2⁶⁴`. -/
theorem half_step_lt {m j : Nat} (hm : m < 2 ^ 53) (hj : 64 ≤ j) (hlt : m * 3125 < 2 ^ j) :
    (2 * m + 1) * 3125 < 2 * 2 ^ j := by
  by_cases hnear : j = 64
  · rw [hnear] at hlt ⊢
    have hle : m ≤ 5902958103587056 := by omega
    norm_num
    linarith
  · have hpow : 2 ^ 65 ≤ 2 ^ j := Nat.pow_le_pow_right (by omega) (by omega)
    norm_num at hm hpow
    linarith

/-- What is left of a high power of two when a number of steps, taken `10⁵` times, is less than it:
at least 64 bits, as the steps fill 53 bits unless they are single units. -/
theorem exists_headroom {m q k : Nat} (hk : 100 ≤ k) (hpos : 0 < m) (hfull : q ≠ 0 → 2 ^ 52 ≤ m)
    (hlt : m * 2 ^ q * 10 ^ 5 < 2 ^ k) : ∃ j, 64 ≤ j ∧ k = q + 5 + j ∧ m * 3125 < 2 ^ j := by
  have hexp : q + 5 < k := by
    rw [← Nat.pow_lt_pow_iff_right (by omega : 1 < 2), Nat.pow_add]
    calc
      2 ^ q * 2 ^ 5 ≤ 2 ^ q * (m * 10 ^ 5) := Nat.mul_le_mul_left _ (by omega)
      _ = m * 2 ^ q * 10 ^ 5 := by ring
      _ < 2 ^ k := hlt
  obtain ⟨j, rfl⟩ := Nat.exists_eq_add_of_le hexp.le
  have hscaled : m * 3125 < 2 ^ j := by
    refine Nat.lt_of_mul_lt_mul_left (a := 2 ^ (q + 5)) ?_
    calc
      2 ^ (q + 5) * (m * 3125) = m * 2 ^ q * 10 ^ 5 := by ring
      _ < 2 ^ (q + 5) * 2 ^ j := by rwa [← Nat.pow_add]
  refine ⟨j, ?_, rfl, hscaled⟩
  by_contra hj
  have hpow : 2 ^ j ≤ 2 ^ 63 := Nat.pow_le_pow_right (by omega) (by omega)
  by_cases hq : q = 0
  · omega
  · have hfull := hfull hq
    omega

/-- Below `10⁻⁵` the rounding interval of a double ends below `10⁻⁵`, which itself is nearer to the
next double. -/
theorem interval_lt {units : Nat} (hrep : Representable units) (hunits : units ≠ 0)
    (hsmall : units * 10 ^ 5 < unitsPerOne) :
    (2 * units + step units) * 10 ^ 5 < 2 * unitsPerOne := by
  obtain ⟨k, hk, hone⟩ := exists_unitsPerOne
  rw [hone] at hsmall ⊢
  have hm := Nat.div_mul_cancel (step_dvd hrep)
  have hstep := step_pos units
  generalize hmdef : units / step units = m at hm
  have hm53 : m < 2 ^ 53 := by
    rw [← hmdef]
    exact (Nat.div_lt_iff_lt_mul hstep).2 (lt_mul_step units)
  have hpos : 0 < m := by
    rw [← hmdef]
    exact Nat.div_pos (step_le hunits) hstep
  have hfull : stepExponent units ≠ 0 → 2 ^ 52 ≤ m := by
    intro hexp
    rw [← hmdef]
    exact (Nat.le_div_iff_mul_le hstep).2 (mul_step_le (Nat.one_lt_two_pow hexp))
  rw [← hm] at hsmall
  obtain ⟨j, hj, rfl, hlt⟩ := exists_headroom hk hpos hfull hsmall
  calc
    (2 * units + step units) * 10 ^ 5 = (2 * (m * step units) + step units) * 10 ^ 5 := by rw [hm]
    _ = 2 ^ (stepExponent units + 5) * ((2 * m + 1) * 3125) := by
      unfold step
      ring
    _ < 2 ^ (stepExponent units + 5) * (2 * 2 ^ j) :=
      Nat.mul_lt_mul_of_pos_left (half_step_lt hm53 hj hlt) (Nat.two_pow_pos _)
    _ = 2 * 2 ^ (stepExponent units + 5 + j) := by ring

/-- A positive double below `10⁻⁵` has its first digit after more than four zeros. -/
theorem exponent_lt_of_small {units : Nat} (hrep : Representable units) (hunits : units ≠ 0)
    (hsmall : units * 10 ^ 5 < unitsPerOne) : (shortestDigits units).2 < -5 := by
  have hone := unitsPerOne_pos_rat
  obtain ⟨-, hhigh⟩ := exponent_bounds hrep hunits
  have hinterval : (2 * units + step units : ℚ) * 10 ^ 5 < 2 * unitsPerOne := by
    exact_mod_cast interval_lt hrep hunits hsmall
  have hlt : (10 : ℚ) ^ (shortestDigits units).2 < 10 ^ (-5 : ℤ) := by
    have hfive : (10 : ℚ) ^ (-5 : ℤ) = 1 / 10 ^ 5 := by norm_num
    rw [hfive, lt_div_iff₀ (by norm_num)]
    refine lt_of_mul_lt_mul_left ?_ (by positivity : (0 : ℚ) ≤ 2 * unitsPerOne)
    linarith
  exact (zpow_lt_zpow_iff_right₀ (by norm_num)).1 hlt

/-- A double of `10²¹` or more has more than twenty-one digits before the point. -/
theorem le_exponent_of_large {units : Nat} (hrep : Representable units) (hunits : units ≠ 0)
    (hlarge : 10 ^ 21 * unitsPerOne ≤ units) : 21 ≤ (shortestDigits units).2 := by
  have hone := unitsPerOne_pos_rat
  have hle : (10 : ℚ) ^ (21 : ℤ) ≤ inOnes units := by
    rw [inOnes, le_div_iff₀ hone]
    exact_mod_cast hlarge
  have hlead := (zpow_lt_zpow_iff_right₀ (by norm_num : (1 : ℚ) < 10)).1
    (lt_of_le_of_lt hle (leadingExponent_bounds hunits).2)
  have hexp := (exponent_bounds hrep hunits).1
  omega

/-- A double from `10⁻⁵` up, and within reach of 53 bits, has its first digit within the layout. -/
theorem exponent_of_plain {units : Nat} (hrep : Representable units)
    (hlow : unitsPerOne ≤ units * 10 ^ 5) (hhigh : units < 2 ^ 53 * unitsPerOne) :
    -5 ≤ (shortestDigits units).2 ∧ (shortestDigits units).2 ≤ 15 := by
  have hone := unitsPerOne_pos_rat
  have hpos := unitsPerOne_pos
  have hunits : units ≠ 0 := by
    rintro rfl
    omega
  obtain ⟨hlead, hinterval⟩ := exponent_bounds hrep hunits
  constructor
  · have hle : (10 : ℚ) ^ (-5 : ℤ) ≤ inOnes units := by
      have hcast : (unitsPerOne : ℚ) ≤ units * 10 ^ 5 := by exact_mod_cast hlow
      rw [inOnes, le_div_iff₀ hone, zpow_neg, inv_mul_le_iff₀ (by positivity)]
      norm_cast at hcast ⊢
      linarith
    have hlt := (zpow_lt_zpow_iff_right₀ (by norm_num : (1 : ℚ) < 10)).1
      (lt_of_le_of_lt hle (leadingExponent_bounds hunits).2)
    omega
  · have hstep : step units ≤ 2 * unitsPerOne := by
      by_cases hwide : 1 < step units
      · have hle := mul_step_le hwide
        omega
      · omega
    have hbound : (2 * units + step units : ℚ) < 2 * unitsPerOne * 10 ^ (16 : ℤ) := by
      have hnat : 2 * units + step units < 2 * unitsPerOne * 10 ^ 16 := by omega
      exact_mod_cast hnat
    have hlt : (10 : ℚ) ^ (shortestDigits units).2 < 10 ^ (16 : ℤ) :=
      lt_of_mul_lt_mul_left (lt_of_le_of_lt hinterval hbound) (by positivity)
    have hexp := (zpow_lt_zpow_iff_right₀ (by norm_num : (1 : ℚ) < 10)).1 hlt
    omega

end Double

end Vetting
