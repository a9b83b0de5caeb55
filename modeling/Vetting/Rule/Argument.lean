import Vetting.Value.Basic

/-!
# Arguments of a validator

What a validator gets beside the value of its field: plain values and predicates, in the order in
which the rule declares its parameters. A position past the end reads as null, and so does a
predicate where a value is asked for.
-/

set_option autoImplicit false

namespace Vetting

/-- One argument: a plain value, or a predicate of the author of the rules. -/
inductive Argument where
  | value (v : Value)
  | predicate (holds : Value → Bool)

/-- The arguments of one call. -/
abbrev Arguments := List Argument

namespace Argument

/-- The value form of an argument. -/
def toValue : Argument → Value
  | .value v => v
  | .predicate _ => .null

end Argument

namespace Arguments

/-- The arguments that are these plain values. -/
def ofValues (values : List Value) : Arguments := values.map .value

/-- The argument at a position. -/
def at? (arguments : Arguments) (index : Nat) : Option Argument := arguments[index]?

/-- The value at a position. -/
def value (arguments : Arguments) (index : Nat) : Value :=
  ((arguments.at? index).map Argument.toValue).getD .null

/-- The predicate at a position, if that position holds one. -/
def predicate? (arguments : Arguments) (index : Nat) : Option (Value → Bool) :=
  match arguments.at? index with
  | some (.predicate holds) => some holds
  | _ => none

end Arguments

end Vetting
