import Vetting.Validator.Basic
import Vetting.Value.Loose
import Vetting.Pattern.Basic

/-!
# The built-in validators

Presence, length, comparison, structure and format: twenty-six validators and their default
messages, in the order in which they are registered.
-/

set_option autoImplicit false

namespace Vetting.Validator

/-- At most: less or equal. -/
def atMost (order : Ordering) : Bool := order != .gt

/-- At least: greater or equal. -/
def atLeast (order : Ordering) : Bool := order != .lt

/-- Whether two values are comparable and their order satisfies a test. -/
def related (test : Ordering → Bool) (a b : Value) : Bool :=
  match a.compare b with
  | some order => test order
  | none => false

/-- Whether a value is related to the argument at a position; a missing one relates to nothing. -/
def relatedToBound (test : Ordering → Bool) (index : Nat) (v : Value)
    (arguments : Arguments) : Bool :=
  match arguments.at? index with
  | some bound => related test v bound.toValue
  | none => false

/-- Something was entered. -/
def required (v : Value) (_ : Arguments) : Bool := !v.isBlank

/-- Something was entered, or the first argument does not ask for it. -/
def requiredOnlyIf (v : Value) (arguments : Arguments) : Bool :=
  !(arguments.value 0).isTruthy || !v.isBlank

/-- The number of characters of the text of a value. -/
def textLength (v : Value) : Value := .ofInt v.display.length

/-- The text has at least so many characters; falsy values pass. -/
def minLength (v : Value) (arguments : Arguments) : Bool :=
  !v.isTruthy || related atLeast (textLength v) (arguments.value 0)

/-- The text has at most so many characters; falsy values pass. -/
def maxLength (v : Value) (arguments : Arguments) : Bool :=
  !v.isTruthy || related atMost (textLength v) (arguments.value 0)

/-- The length of a string or a list lies between two bounds; falsy values pass, and other
values fail. -/
def lengthInRange (v : Value) (arguments : Arguments) : Bool :=
  !v.isTruthy ||
    match v.length? with
    | some n =>
      related atLeast (.ofInt n) (arguments.value 0) &&
        related atMost (.ofInt n) (arguments.value 1)
    | none => false

/-- The value lies between two bounds. -/
def betweenValues (v : Value) (arguments : Arguments) : Bool :=
  relatedToBound atLeast 0 v arguments && relatedToBound atMost 1 v arguments

/-- The value is loosely equal to the first argument. -/
def equals (v : Value) (arguments : Arguments) : Bool :=
  v.looselyEquals (arguments.value 0)

/-- The value is not loosely equal to the first argument. -/
def notEquals (v : Value) (arguments : Arguments) : Bool :=
  !v.looselyEquals (arguments.value 0)

/-- A list of two bounds in order; a bound loosely equal to zero leaves its side open. -/
def range (v : Value) (_ : Arguments) : Bool :=
  match v with
  | .array items =>
    let isOpen : Option Value → Bool := fun bound =>
      match bound with
      | some bound => bound.looselyEquals (.ofInt 0)
      | none => false
    isOpen items[0]? || isOpen items[1]? ||
      match items[0]?, items[1]? with
      | some low, some high => related atLeast high low
      | _, _ => false
  | _ => false

/-- An object. -/
def isObject (v : Value) (_ : Arguments) : Bool :=
  match v with
  | .object _ => true
  | _ => false

/-- An object, a list or a string that holds something. -/
def notEmptyObject (v : Value) (_ : Arguments) : Bool :=
  match v with
  | .object fields => !fields.isEmpty
  | .array items => !items.isEmpty
  | .string s => !s.isEmpty
  | _ => false

/-- The text of the value has a format. -/
def hasFormat (pattern : Pattern) (v : Value) (_ : Arguments) : Bool :=
  pattern.accepts v.display

/-- The first argument is a predicate that holds for the value. -/
def customFunction (v : Value) (arguments : Arguments) : Bool :=
  match arguments.predicate? 0 with
  | some holds => holds v
  | none => false

/-- A validator with a fixed default message. -/
private def plain (check : Value → Arguments → Bool) (message : String) : Validator :=
  ⟨check, .text message, false⟩

/-- A presence validator with a fixed default message. -/
private def presenceCheck (check : Value → Arguments → Bool) (message : String) : Validator :=
  ⟨check, .text message, true⟩

/-- The built-in validators, in order. -/
def builtins : List (String × Validator) :=
  [("required", presenceCheck required "This field is required."),
   ("requiredOnlyIf", presenceCheck requiredOnlyIf "The field is required"),
   ("minLength", plain minLength "Please enter at least \x7b0\x7d characters."),
   ("maxLength", plain maxLength "Please enter no more than \x7b0\x7d characters."),
   ("lengthInRange", plain lengthInRange
     "Please enter a string with length between \x7b0\x7d and \x7b1\x7d"),
   ("digits", plain (hasFormat .digits) "Please enter a valid number."),
   ("float", plain (hasFormat .float) "Please enter a valid float number."),
   ("int", plain (hasFormat .int) "Please enter a valid integer number."),
   ("greaterThan", plain (relatedToBound (· == .gt) 0)
     "Please enter a value greater than \x7b0\x7d."),
   ("lessThan", plain (relatedToBound (· == .lt) 0)
     "Please enter a value less than \x7b0\x7d."),
   ("maxValue", plain (relatedToBound atMost 0)
     "Please enter a value less than or equal to \x7b0\x7d."),
   ("minValue", plain (relatedToBound atLeast 0)
     "Please enter a value greater than or equal to \x7b0\x7d."),
   ("betweenValues", plain betweenValues "Value must be between \x7b0\x7d and \x7b1\x7d"),
   ("equalsTo", plain equals "Please enter a value equal to \x7b0\x7d."),
   ("equalsToField", plain equals "Please enter a value equal to '\x7b0\x7d' field."),
   ("notEqualsTo", plain notEquals "Please enter a value not equal to \x7b0\x7d."),
   ("notEqualsToField", plain notEquals
     "Please enter a value not equal to '\x7b0\x7d' field."),
   ("range", plain range "Please enter a valid range"),
   ("object", plain isObject "Please enter a valid javascript object."),
   ("notEmptyObject", plain notEmptyObject
     "Please enter a valid and not empty javascript object."),
   ("url", plain (hasFormat .url) "Please enter a valid URL."),
   ("shortURL", plain (hasFormat .shortUrl) "Please enter a valid URL."),
   ("validTextString", plain (hasFormat .textString)
     "Please do not use invalid characters."),
   ("email", plain (hasFormat .email) "Please enter a valid email address."),
   ("phone", plain (hasFormat .phone) "Please enter a valid phone number"),
   ("customFunction", plain customFunction "OH! Something you entered is wrong...")]

end Vetting.Validator

namespace Vetting.KnownValidators

/-- The registry of the built-in validators. -/
def builtin : KnownValidators := Registry.ofPairs Validator.builtins

end Vetting.KnownValidators
