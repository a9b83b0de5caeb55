import Vetting.Double.Basic

/-!
# Arithmetic on doubles

Addition, scaling by an exact ratio, and the two roundings to whole numbers. Each operation
computes the exact result in units and rounds it once.
-/

set_option autoImplicit false

namespace Vetting.Extended

/-- The sum, rounded once. An exact zero is negative only when both terms are. -/
def add : Extended → Extended → Extended
  | .undefined, _ => .undefined
  | _, .undefined => .undefined
  | .infinite a, .infinite b => if a = b then .infinite a else .undefined
  | .infinite a, .finite _ => .infinite a
  | .finite _, .infinite b => .infinite b
  | .finite a, .finite b =>
    let sum := a.signedUnits + b.signedUnits
    if sum = 0 then ofUnits (a.negative && b.negative) 0 1
    else ofUnits (decide (sum < 0)) sum.natAbs 1

/-- The product with a positive ratio, rounded once. -/
def scale (x : Extended) (num den : Nat) : Extended :=
  match x with
  | .finite d => ofUnits d.negative (d.units * num) den
  | other => other

/-- The whole part, toward zero; the sign stays. -/
def trunc : Extended → Extended
  | .finite d => ofUnits d.negative (d.units / unitsPerOne * unitsPerOne) 1
  | other => other

/-- The nearest whole number, a half away from zero; the sign stays. -/
def roundHalfAway : Extended → Extended
  | .finite d =>
    ofUnits d.negative ((d.units + unitsPerOne / 2) / unitsPerOne * unitsPerOne) 1
  | other => other

/-- Rounds to a number of decimal places: multiply by the power of ten, round to a whole
number, divide again. Every step rounds on its own. -/
def roundToPlaces (x : Extended) (places : Nat) : Extended :=
  ((x.scale (Nat.pow 10 places) 1).roundHalfAway).scale 1 (Nat.pow 10 places)

end Vetting.Extended
