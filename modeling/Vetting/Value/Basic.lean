import Vetting.Fields
import Vetting.Double.Shortest

/-!
# Values

The dynamically typed data that records hold. A number is an integer or a finite double, and the
two stay apart: `5` and `5.0` are different values. The fields of an object keep their order, but
equality of values does not look at it.
-/

set_option autoImplicit false

namespace Vetting

/-- A number of a value: an integer, or a finite double. -/
inductive Number where
  | int (n : Int)
  | double (d : Double)
  deriving DecidableEq

namespace Number

/-- The double nearest to a number. -/
def toExtended : Number → Extended
  | .int n => Extended.ofInt n
  | .double d => .finite d

/-- Equality of numbers: an integer differs from every double, and the two zeros are equal. -/
def same : Number → Number → Bool
  | .int a, .int b => a == b
  | .double a, .double b => a.numEq b
  | _, _ => false

/-- The text of a number. -/
def text : Number → String
  | .int n => toString n
  | .double d => d.text

end Number

/-- The kinds of values. -/
inductive Kind where
  | null
  | boolean
  | number
  | string
  | array
  | object
  deriving DecidableEq

/-- The name of a kind. -/
def Kind.name : Kind → String
  | .null => "null"
  | .boolean => "boolean"
  | .number => "number"
  | .string => "string"
  | .array => "array"
  | .object => "object"

/-- A piece of dynamically typed data. -/
inductive Value where
  | null
  | bool (b : Bool)
  | number (n : Number)
  | string (s : String)
  | array (items : List Value)
  | object (fields : List (String × Value))

/-- A record: its fields in order. -/
abbrev Record := Fields Value

namespace Value

/-- The value of an integer. -/
def ofInt (n : Int) : Value := .number (.int n)

/-- Whole results of arithmetic below this size become integers. -/
def integerBound : Nat := 9000000000000000

/-- The value of a result of arithmetic: a whole number of size below the bound becomes an integer,
any other finite result stays a double, and a result that is no finite number becomes null. -/
def ofExtended : Extended → Value
  | .finite d =>
    if d.isIntegral && d.absBelow integerBound then .ofInt d.toInt
    else .number (.double d)
  | _ => .null

mutual

/-- Equality of values. Objects are equal when they have as many fields and every field of the
one has an equal field of the same name in the other. -/
def same : Value → Value → Bool
  | .null, .null => true
  | .bool a, .bool b => a == b
  | .number a, .number b => a.same b
  | .string a, .string b => a == b
  | .array as, .array bs => sameItems as bs
  | .object as, .object bs => as.length == bs.length && sameFields as bs
  | _, _ => false

/-- Equality of lists of values, place by place. -/
def sameItems : List Value → List Value → Bool
  | [], [] => true
  | a :: as, b :: bs => a.same b && sameItems as bs
  | _, _ => false

/-- Every field of the first map has an equal field of the same name in the second. -/
def sameFields : List (String × Value) → Fields Value → Bool
  | [], _ => true
  | (name, a) :: rest, bs =>
    (match bs.get? name with
      | some b => a.same b
      | none => false) && sameFields rest bs

end

mutual

/-- The size of a value: a container counts one and what it holds. -/
def weight : Value → Nat
  | .array items => 1 + itemsWeight items
  | .object fields => 1 + fieldsWeight fields
  | _ => 1

/-- The size of a list of values. -/
def itemsWeight : List Value → Nat
  | [] => 0
  | item :: rest => item.weight + itemsWeight rest

/-- The size of the fields of an object. -/
def fieldsWeight : List (String × Value) → Nat
  | [] => 0
  | (_, value) :: rest => value.weight + fieldsWeight rest

end

/-- The kind of a value. -/
def kind : Value → Kind
  | .null => .null
  | .bool _ => .boolean
  | .number _ => .number
  | .string _ => .string
  | .array _ => .array
  | .object _ => .object

/-- The fields of an object. -/
def fields? : Value → Option (Fields Value)
  | .object fields => some fields
  | _ => none

end Value

/-- The value of a field; an absent field reads as null. -/
def Fields.read (record : Record) (name : String) : Value :=
  (record.get? name).getD .null

end Vetting
