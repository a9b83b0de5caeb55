import Vetting.Value.Basic
import Vetting.Double.Decimal
import Vetting.Text.Space

/-!
# Loose readings of values

Rules are written against data that comes out of forms, where a number is often a string. This
module says how a value reads as a truth, as a number and as text, when two values count as
equal (`looselyEquals`), and how they are ordered (`compare`).
-/

set_option autoImplicit false

namespace Vetting.Value

/-- Null and the empty string are blank: nothing was entered. -/
def isBlank : Value → Bool
  | .null => true
  | .string s => s.isEmpty
  | _ => false

/-- The truth of a value: null, false, zero and the empty string are false, and containers are
true whatever they hold. -/
def isTruthy : Value → Bool
  | .null => false
  | .bool b => b
  | .number (.int n) => n != 0
  | .number (.double d) => d.units != 0
  | .string s => !s.isEmpty
  | .array _ => true
  | .object _ => true

/-- The number that a text spells once white space is taken off its ends: empty text is zero, and
a text with an ASCII letter other than the mark of an exponent spells none. -/
def numberOfText? (text : String) : Option Extended :=
  let trimmed := Text.trim text
  if trimmed.isEmpty then some (Extended.ofInt 0)
  else if trimmed.toList.any fun c => c.isAlpha && c != 'e' && c != 'E' then none
  else Extended.ofDecimalText? trimmed

/-- The numeric reading of a value, if it has one. A list reads as its only item. -/
def toNumber? : Value → Option Extended
  | .null => some (Extended.ofInt 0)
  | .bool b => some (Extended.ofInt (if b then 1 else 0))
  | .number n => some n.toExtended
  | .string s => numberOfText? s
  | .array [] => some (Extended.ofInt 0)
  | .array [item] => item.toNumber?
  | .array _ => none
  | .object _ => none

/-- Whole doubles below this size, `10²¹`, are written as integers in plain text. -/
def plainBound : Nat := 1000000000000000000000

/-- The plain text of a number: a whole double below the bound is written without a point. -/
def displayNumber : Number → String
  | .int n => toString n
  | .double d =>
    if d.isIntegral && d.absBelow plainBound then
      (if d.negative then "-" else "") ++ toString (d.units / unitsPerOne)
    else d.text

mutual

/-- The plain text of a value. The items of a list are joined with commas, null among them as
nothing; an object has one fixed text. -/
def display : Value → String
  | .null => "null"
  | .bool b => if b then "true" else "false"
  | .number n => displayNumber n
  | .string s => s
  | .array items => ",".intercalate (displayItems items)
  | .object _ => "[object Object]"

/-- The texts of the items of a list. -/
def displayItems : List Value → List String
  | [] => []
  | .null :: rest => "" :: displayItems rest
  | item :: rest => item.display :: displayItems rest

end

/-- The number of characters of a string or of items of a list. -/
def length? : Value → Option Nat
  | .string s => some s.length
  | .array items => some items.length
  | _ => none

/-- A container as its plain text; other values stay. -/
def plain : Value → Value
  | .array items => .string (display (.array items))
  | .object fields => .string (display (.object fields))
  | other => other

/-- Whether the numeric readings exist and are equal. -/
def numericEq (a b : Value) : Bool :=
  match a.toNumber?, b.toNumber? with
  | some x, some y => x.numEq y
  | _, _ => false

/-- Loose equality. Null equals only null; values of one kind are compared as they are; a truth
value is compared by number; a container is compared by its text; a string is compared with a
number by number. -/
def looselyEquals : Value → Value → Bool
  | .null, .null => true
  | .null, _ => false
  | _, .null => false
  | .bool a, .bool b => a == b
  | .bool a, b => numericEq (.bool a) b
  | a, .bool b => numericEq a (.bool b)
  | .array as, .array bs => same (.array as) (.array bs)
  | .object as, .object bs => same (.object as) (.object bs)
  | a, b =>
    match a.plain, b.plain with
    | .string s, .string t => s == t
    | x, y => numericEq x y

/-- The order of two values: two texts by their characters, anything else by number. None when
the values cannot be compared. -/
def compare (a b : Value) : Option Ordering :=
  match a.plain, b.plain with
  | .string s, .string t => some (Ord.compare s t)
  | x, y =>
    match x.toNumber?, y.toNumber? with
    | some m, some n => m.compare n
    | _, _ => none

end Vetting.Value
