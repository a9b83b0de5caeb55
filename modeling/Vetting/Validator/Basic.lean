import Vetting.Registry
import Vetting.Rule.Describe

/-!
# Validators

A validator is a predicate on the value of a field and the arguments of its rule, with a default
message. A presence validator looks at blank values too; every other one is passed over when the
value is blank, unless the engine is strict.
-/

set_option autoImplicit false

namespace Vetting

/-- A registered validator. -/
structure Validator where
  check : Value → Arguments → Bool
  message : Message
  presence : Bool

/-- The validators that rules may name. -/
abbrev KnownValidators := Registry Validator

/-- The description of a validator. -/
def Validator.describe (validator : Validator) : String :=
  "ValidatorEntry \x7b default_message: " ++ validator.message.describe ++
    ", required_class: " ++ Describe.bool validator.presence ++ ", .. \x7d"

namespace KnownValidators

/-- Registers a validator under a new name. -/
def add (registry : KnownValidators) (name : String) (validator : Validator) :
    Except SetupError KnownValidators :=
  registry.register name validator (.duplicateValidator name)

/-- The validator of a name. -/
def find (registry : KnownValidators) (name : String) : Except SetupError Validator :=
  match registry.get? name with
  | some validator => .ok validator
  | none => .error (.unknownValidator name)

/-- Runs the validator of a name. -/
def invoke (registry : KnownValidators) (name : String) (v : Value) (arguments : Arguments) :
    Except SetupError Bool := do
  let validator ← registry.find name
  return validator.check v arguments

end KnownValidators

end Vetting
