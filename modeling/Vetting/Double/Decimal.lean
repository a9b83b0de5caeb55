import Vetting.Double.Basic

/-!
# Reading decimal text as a double

The grammar is an optional sign, digits with at most one point among them, and an optional
exponent; at least one digit stands around the point. The number read is the double nearest to
the decimal, and a decimal out of range reads as infinity. A second reader also takes the words
for infinity and for the undefined number.
-/

set_option autoImplicit false

namespace Vetting

/-- A decimal: `± digits · 10 ^ exponent`. -/
structure Decimal where
  negative : Bool
  digits : Nat
  exponent : Int
  deriving DecidableEq

namespace Decimal

/-- The number that a run of digits spells. -/
def digitsValue (cs : List Char) : Nat :=
  cs.foldl (fun value c => value * 10 + (c.toNat - '0'.toNat)) 0

/-- Takes an optional sign off the front; true stands for a minus. -/
def splitSign : List Char → Bool × List Char
  | '-' :: rest => (true, rest)
  | '+' :: rest => (false, rest)
  | cs => (false, cs)

/-- Reads an exponent that fills the rest of the text; no text is the exponent zero. -/
def readExponent? : List Char → Option Int
  | [] => some 0
  | mark :: rest =>
    if mark = 'e' ∨ mark = 'E' then
      let (negative, digits) := splitSign rest
      if digits.isEmpty || !digits.all Char.isDigit then none
      else
        let magnitude : Int := (digitsValue digits : Nat)
        some (if negative then -magnitude else magnitude)
    else none

/-- Reads a whole text as a decimal. -/
def ofChars? (cs : List Char) : Option Decimal :=
  let (negative, body) := splitSign cs
  let whole := body.takeWhile Char.isDigit
  let afterWhole := body.dropWhile Char.isDigit
  let (fraction, rest) := match afterWhole with
    | '.' :: tail => (tail.takeWhile Char.isDigit, tail.dropWhile Char.isDigit)
    | _ => ([], afterWhole)
  if whole.isEmpty && fraction.isEmpty then none
  else
    (readExponent? rest).map fun exponent =>
      ⟨negative, digitsValue (whole ++ fraction), exponent - fraction.length⟩

/-- The double nearest to a decimal. Exponents so large or so small that the result is beyond
every double, or below half the least one, are settled before any power is computed. -/
def toExtended (d : Decimal) : Extended :=
  if d.digits = 0 then Extended.ofUnits d.negative 0 1
  else if 0 ≤ d.exponent then
    if 400 < d.exponent then .infinite d.negative
    else Extended.ofRatio d.negative (d.digits * Nat.pow 10 d.exponent.toNat) 1
  else
    let places := (-d.exponent).toNat
    if d.digits.log2 + 401 < places then Extended.ofUnits d.negative 0 1
    else Extended.ofRatio d.negative d.digits (Nat.pow 10 places)

end Decimal

namespace Extended

/-- Reads decimal text as the nearest double. -/
def ofDecimalText? (text : String) : Option Extended :=
  (Decimal.ofChars? text.toList).map Decimal.toExtended

/-- Reads decimal text, or one of the words for infinity and for the undefined number in any
case of letters. -/
def ofText? (text : String) : Option Extended :=
  let (negative, body) := Decimal.splitSign text.toList
  let word := String.ofList (body.map Char.toLower)
  if word = "inf" ∨ word = "infinity" then some (.infinite negative)
  else if word = "nan" then some .undefined
  else ofDecimalText? text

end Extended

end Vetting
