import Vetting.Module.Basic
import Vetting.Rule.Decode
import Vetting.Pattern.Basic
import Vetting.Double.Arith

/-!
# The built-in modules

Trimming, default values, coercion of numbers, nested records, functions of the record, and
titles: eight modules in the order in which they are registered.
-/

set_option autoImplicit false

namespace Vetting.Module

variable {σ : Type}

/-- Whether a configuration is the plain value true. -/
def isPlainTrue : Configuration → Bool
  | .value (.bool b) => b
  | _ => false

/-- The text of a value that may be coerced to a number: a string or a number. -/
def coercibleText? : Value → Option String
  | .string s => some s
  | .number n => some (Value.displayNumber n)
  | _ => none

/-- The number that a text spells, with a comma or a point before the decimals. -/
def floatOfText? (text : String) : Option Extended :=
  Extended.ofDecimalText?
    (String.ofList ((Text.trim text).toList.map fun c => if c = ',' then '.' else c))

/-- The integer that a text of an optional sign and digits spells, if it fits 64 bits with a
sign. -/
def smallIntOfText? (text : String) : Option Int :=
  let (negative, digits) := Decimal.splitSign text.toList
  if digits.isEmpty || !digits.all Char.isDigit then none
  else
    let magnitude : Int := (Decimal.digitsValue digits : Nat)
    let n := if negative then -magnitude else magnitude
    if -9223372036854775808 ≤ n && n ≤ 9223372036854775807 then some n else none

/-- The value that a text of the integer format is coerced to: itself when it fits 64 bits, and
the whole part of the nearest double otherwise. -/
def intOfText? (text : String) : Option Value :=
  match smallIntOfText? text with
  | some n => some (.ofInt n)
  | none => (floatOfText? text).map fun x => Value.ofExtended x.trunc

/-- The number of a value whose text has the float format. -/
def floatOfValue? (v : Value) : Option Extended :=
  match coercibleText? v with
  | some text => if Pattern.float.accepts text then floatOfText? text else none
  | none => none

/-- Takes white space off the ends of a string. -/
def trimValue : Module σ := fun config scope => do
  if config.isEnabled then
    match scope.value with
    | .string text => if Text.trim text != text then write (.string (Text.trim text))
    | _ => pure ()
  return none

/-- Puts a value in the place of a blank one. -/
def defaultValue : Module σ := fun config scope => do
  if scope.value.isBlank then
    match config with
    | .value v => write v
    | .function hook => write (hook.run scope.record)
    | .rules _ => throw (.invalidRule scope.field .defaultFromRules)
  return none

/-- Turns a text of the integer format into a number. -/
def int : Module σ := fun config scope => do
  if isPlainTrue config then
    match coercibleText? scope.value with
    | some text =>
      if Pattern.int.accepts text then
        match intOfText? text with
        | some v => write v
        | none => pure ()
    | none => pure ()
  return none

/-- Turns a text of the float format into a number. -/
def float : Module σ := fun config scope => do
  if isPlainTrue config then
    match floatOfValue? scope.value with
    | some x => write (.ofExtended x)
    | none => pure ()
  return none

/-- Whether the field switches the coercion to a float off. -/
def floatsOff (scope : Scope σ) : Bool :=
  match scope.sibling? "float" with
  | some (.value (.bool b)) => !b
  | _ => false

/-- What the rounding coercion does under a configuration: nothing, coerce only, or coerce and
round to some decimal places. -/
inductive Rounding where
  | off
  | coerce
  | places (count : Nat)
  deriving DecidableEq

/-- The rounding that a configuration asks for: true coerces, and an integer also rounds, to no
fewer than zero and no more than fifteen places, unless the field switches floats off. -/
def roundingOf (config : Configuration) (scope : Scope σ) : Rounding :=
  match config with
  | .value (.bool true) => .coerce
  | .value (.number n) =>
    if floatsOff scope then .off
    else
      match n with
      | .int i => if i ≤ 9223372036854775807 then .places (min i.toNat 15) else .off
      | .double _ => .off
  | _ => .off

/-- Turns a text of the float format into a number and rounds it. -/
def roundedFloat : Module σ := fun config scope => do
  match roundingOf config scope with
  | .off => pure ()
  | .coerce =>
    match floatOfValue? scope.value with
    | some x => write (.ofExtended x)
    | none => pure ()
  | .places count =>
    match floatOfValue? scope.value with
    | some x => write (.ofExtended (x.roundToPlaces count))
    | none => pure ()
  return none

/-- The rules for a nested record that a configuration holds or describes. -/
def nestedRules (field : String) : Configuration → Except SetupError Rules
  | .rules rules => .ok rules
  | .value v =>
    match Rules.ofValue v with
    | .ok rules => .ok rules
    | .error (.invalidRule _ fault) => .error (.invalidRule field fault)
    | .error other => .error other
  | .function _ => .error (.invalidRule field .nestedFromFunction)

/-- Validates the value of the field as a record of its own. A blank value is passed over unless
the engine is strict; a nested outcome that does not pass is recorded under the module's name. -/
def objectValidator : Module σ := fun config scope => do
  if !scope.strict && scope.value.isBlank then return none
  let rules ← Run.ofExcept (nestedRules scope.field config)
  let (outcome, v) ← Run.beside scope.value (scope.validate rules false)
  write v
  match outcome with
  | .valid => return none
  | failing => return some (.errors [("objectValidator", .nested failing)])

/-- Puts the result of a function of the record into the field. -/
def customFunction : Module σ := fun config scope => do
  match config with
  | .function hook => write (hook.run scope.record)
  | _ => pure ()
  return none

/-- Hands plain data on to the report of the field. -/
def title : Module σ := fun config _ => return config.value?.map .aux

/-- The built-in modules, in order. -/
def builtins : List (String × Module σ) :=
  [("trimValue", trimValue), ("defaultValue", defaultValue), ("int", int), ("float", float),
   ("roundedFloat", roundedFloat), ("objectValidator", objectValidator),
   ("customFunction", customFunction), ("title", title)]

end Vetting.Module

namespace Vetting.KnownModules

/-- The registry of the built-in modules. -/
def builtin {σ : Type} : KnownModules σ := Registry.ofPairs Module.builtins

end Vetting.KnownModules
