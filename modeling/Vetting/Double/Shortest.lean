import Vetting.Double.Basic

/-!
# Writing a double with the fewest digits

A positive double stands for the interval of reals that round to it, ends included exactly when
its significand is even. For one digit, two digits, and so on, the value has two neighbours on
the grid of decimals with that many digits; the first grid with a neighbour in the interval gives
the digits, the nearer neighbour if both are in it and the even one on a tie. Seventeen digits
always suffice.

The text is positional, with a point and at least one digit after it, while the exponent of the
first digit is within the bounds of the layout, and scientific with an explicit sign of the exponent
beyond them. The layout of values is `Double.layout`.
-/

set_option autoImplicit false

namespace Vetting.Double

/-- The exponents of the first digit for which a number is written around a point. -/
structure Layout where
  leastPlain : Int
  greatestPlain : Int
  deriving DecidableEq

/-- The layout of values: from `0.00001` up to sixteen digits before the point. -/
def layout : Layout := ⟨-5, 15⟩

/-- How many decimal digits a positive natural number has. -/
private def digitCount (n : Nat) : Nat := (Nat.toDigits 10 n).length

/-- The exponent of the leading decimal digit of a positive number of units. -/
def leadingExponent (units : Nat) : Int :=
  if unitsPerOne ≤ units then (digitCount (units / unitsPerOne) : Int) - 1
  else -(digitCount ((unitsPerOne - 1) / units) : Int)

/-- The reals that round to a positive number of units, in quarters of a unit: the two ends,
and whether they belong to the interval. -/
def roundingInterval (units : Nat) : Nat × Nat × Bool :=
  let step := Nat.pow 2 (stepExponent units)
  let significand := units / step
  let below := if significand = Nat.pow 2 52 ∧ 1 < step then step else 2 * step
  (4 * units - below, 4 * units + 2 * step, significand % 2 == 0)

/-- The neighbour of a positive number of units on the grid of decimals with `count` digits
that rounds back to it, as digits and a power of ten. -/
def onGrid? (units : Nat) (count : Nat) : Option (Nat × Int) :=
  let power := leadingExponent units - (count : Int) + 1
  let up := Nat.pow 10 power.toNat
  let down := Nat.pow 10 (-power).toNat
  let (low, high, closed) := roundingInterval units
  let value := 4 * units * down
  let grid := 4 * unitsPerOne * up
  let digits := value / grid
  let lower := digits * grid
  let upper := lower + grid
  let lowerIn := low * down < lower || (closed && low * down == lower)
  let upperIn := upper < high * down || (closed && upper == high * down)
  match lowerIn, upperIn with
  | false, false => none
  | true, false => some (digits, power)
  | false, true => some (digits + 1, power)
  | true, true =>
    let toLower := value - lower
    let toUpper := upper - value
    if toLower < toUpper || (toLower == toUpper && digits % 2 == 0) then some (digits, power)
    else some (digits + 1, power)

/-- The fewest digits that read back as a positive number of units, without zeros at the end,
and the exponent of the first of them. -/
def shortestDigits (units : Nat) : List Char × Int :=
  let counts := (List.range 17).map (· + 1)
  match counts.findSome? (onGrid? units) with
  | none => (['0'], 0)
  | some (digits, power) =>
    let chars := Nat.toDigits 10 digits
    let significant := (chars.reverse.dropWhile (· == '0')).reverse
    (significant, power + chars.length - 1)

/-- Lays digits out around the point, or in scientific form where the exponent is large or
small. -/
def Layout.apply (layout : Layout) (digits : List Char) (exponent : Int) : List Char :=
  if layout.leastPlain ≤ exponent ∧ exponent ≤ layout.greatestPlain then
    if exponent < 0 then
      '0' :: '.' :: List.replicate (-exponent - 1).toNat '0' ++ digits
    else
      let places := exponent.toNat + 1
      if digits.length ≤ places then
        digits ++ List.replicate (places - digits.length) '0' ++ ['.', '0']
      else
        digits.take places ++ '.' :: digits.drop places
  else
    let mantissa := match digits with
      | [] => []
      | [only] => [only]
      | first :: rest => first :: '.' :: rest
    let sign := if exponent < 0 then '-' else '+'
    mantissa ++ 'e' :: sign :: Nat.toDigits 10 exponent.natAbs

/-- The text of a double. -/
def text (d : Double) : String :=
  let magnitude :=
    if d.units = 0 then ['0', '.', '0']
    else
      let (digits, exponent) := shortestDigits d.units
      layout.apply digits exponent
  String.ofList (if d.negative then '-' :: magnitude else magnitude)

end Vetting.Double

namespace Vetting.Extended

/-- The text of a result of arithmetic. -/
def text : Extended → String
  | .finite d => d.text
  | .infinite true => "-inf"
  | .infinite false => "inf"
  | .undefined => "NaN"

end Vetting.Extended
