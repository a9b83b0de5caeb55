/-!
# Double-precision numbers, exactly

Every finite double is a whole number of units of `2⁻¹⁰⁷⁴`, the least positive double, so a sign
and a natural number say exactly which one it is. Arithmetic is done on natural numbers and
rounded once, to the nearest representable number of units and to the even one of two that are
equally near. `representable_nearestUnits` says that rounding lands on a representable number,
which is what lets `Double` carry that fact in its type.
-/

set_option autoImplicit false

namespace Vetting

/-- How many units make one: the least positive double is `2⁻¹⁰⁷⁴`. -/
def unitsPerOne : Nat := Nat.pow 2 1074

/-- The first power of two that is out of range, in units. -/
def unitsLimit : Nat := Nat.pow 2 2098

/-- A number of units that fits the 53 bits of a significand. -/
def Representable (units : Nat) : Prop :=
  ∃ significand shift : Nat, significand < Nat.pow 2 53 ∧ units = significand * Nat.pow 2 shift

/-- A finite double: a sign and a representable number of units below the limit. Both zeros
exist. -/
structure Double where
  negative : Bool
  units : Nat
  representable : Representable units
  inRange : units < unitsLimit
  deriving DecidableEq

/-- A result of arithmetic: a finite double, an infinity, or no number at all. -/
inductive Extended where
  | finite (value : Double)
  | infinite (negative : Bool)
  | undefined
  deriving DecidableEq

/-- The nearest whole number to a quotient, the even one of two equally near. -/
def roundQuotient (num den : Nat) : Nat :=
  let quotient := num / den
  let twice := 2 * (num % den)
  if twice < den then quotient
  else if den < twice then quotient + 1
  else quotient + quotient % 2

/-- The width of one step of the significand for doubles of this size, as a power of two. -/
def stepExponent (units : Nat) : Nat := units.log2 - 52

/-- The representable number of units nearest to a quotient. -/
def nearestUnits (num den : Nat) : Nat :=
  let shift := stepExponent (num / den)
  roundQuotient num (den * Nat.pow 2 shift) * Nat.pow 2 shift

/-- Rounding a quotient exceeds its whole part by one at most. -/
theorem roundQuotient_le (num den : Nat) : roundQuotient num den ≤ num / den + 1 := by
  simp only [roundQuotient]
  split
  · omega
  · split <;> omega

/-- What rounding yields fits a significand. -/
theorem representable_nearestUnits (num den : Nat) : Representable (nearestUnits num den) := by
  let shift := stepExponent (num / den)
  let digits := roundQuotient num (den * Nat.pow 2 shift)
  have hlt : num / den < Nat.pow 2 shift * Nat.pow 2 53 := by
    by_cases h0 : num / den = 0
    · rw [h0]
      exact Nat.mul_pos (Nat.two_pow_pos shift) (Nat.two_pow_pos 53)
    · have hlog := (Nat.log2_lt h0).1 (Nat.lt_succ_self _)
      have hle : (num / den).log2 + 1 ≤ shift + 53 := by
        show _ ≤ (num / den).log2 - 52 + 53
        omega
      exact Nat.lt_of_lt_of_le hlog
        (Nat.le_trans (Nat.pow_le_pow_right (by omega) hle) (Nat.le_of_eq (Nat.pow_add 2 shift 53)))
  have hquotient : num / (den * Nat.pow 2 shift) < Nat.pow 2 53 := by
    rw [← Nat.div_div_eq_div_mul]
    exact Nat.div_lt_of_lt_mul hlt
  have hdigits : digits ≤ Nat.pow 2 53 :=
    Nat.le_trans (roundQuotient_le _ _) hquotient
  by_cases hfull : digits = Nat.pow 2 53
  · refine ⟨Nat.pow 2 52, shift + 1, by decide, ?_⟩
    show digits * Nat.pow 2 shift = Nat.pow 2 52 * (Nat.pow 2 shift * 2)
    rw [hfull, show Nat.pow 2 53 = Nat.pow 2 52 * 2 from rfl, Nat.mul_assoc,
      Nat.mul_comm 2 (Nat.pow 2 shift)]
  · exact ⟨digits, shift, Nat.lt_of_le_of_ne hdigits hfull, rfl⟩

namespace Double

/-- The numerical value in units, with its sign. -/
def signedUnits (d : Double) : Int :=
  if d.negative then -(d.units : Int) else d.units

/-- Whether the value is a whole number. -/
def isIntegral (d : Double) : Bool :=
  d.units % unitsPerOne == 0

/-- The whole part, toward zero. -/
def toInt (d : Double) : Int :=
  let whole : Int := (d.units / unitsPerOne : Nat)
  if d.negative then -whole else whole

/-- Whether the absolute value lies below a whole number. -/
def absBelow (d : Double) (bound : Nat) : Bool :=
  d.units < bound * unitsPerOne

/-- Numerical equality: the two zeros are equal. -/
def numEq (a b : Double) : Bool :=
  a.signedUnits == b.signedUnits

end Double

namespace Extended

/-- The double nearest to a quotient of units; too large a quotient is infinite. -/
def ofUnits (negative : Bool) (num den : Nat) : Extended :=
  if h : nearestUnits num den < unitsLimit then
    .finite ⟨negative, nearestUnits num den, representable_nearestUnits num den, h⟩
  else
    .infinite negative

/-- The double nearest to a quotient. -/
def ofRatio (negative : Bool) (num den : Nat) : Extended :=
  ofUnits negative (num * unitsPerOne) den

/-- The double nearest to an integer. -/
def ofInt (n : Int) : Extended :=
  ofRatio (decide (n < 0)) n.natAbs 1

/-- The place on the line of units; infinity stands at the limit, which no finite double
reaches. -/
def position? : Extended → Option Int
  | .finite d => some d.signedUnits
  | .infinite true => some (-(unitsLimit : Int))
  | .infinite false => some unitsLimit
  | .undefined => none

/-- The order of two numbers; none when one is undefined. -/
def compare (a b : Extended) : Option Ordering :=
  match a.position?, b.position? with
  | some x, some y => some (Ord.compare x y)
  | _, _ => none

/-- Numerical equality: the two zeros are equal and the undefined number equals nothing. -/
def numEq (a b : Extended) : Bool :=
  match a.position?, b.position? with
  | some x, some y => x == y
  | _, _ => false

end Extended

end Vetting
