import Vetting.Value.Basic

/-!
# Errors of setup and of rules

A field that fails its rules is no error: that is part of an outcome. The errors here are
mistakes in registrations and in rule declarations, which the author of the rules has to mend.
Each is a cause; its code, its category and its wording are functions of it.
-/

set_option autoImplicit false

namespace Vetting

/-- What is wrong with the declaration of a rule. -/
inductive RuleFault where
  | messageKind (found : Kind)
  | expectedResultKind (found : Kind)
  | validatorsKind (found : Kind)
  | ruleKind (found : Kind)
  | rulesKind (found : Kind)
  | listItemKind (found : Kind)
  | sectionKind (name : String) (found : Kind)
  | missingSelector
  | messageTextKind (rule : String)
  | defaultFromRules
  | nestedFromFunction
  | raised (reason : String)
  deriving DecidableEq

/-- The wording of a fault. -/
def RuleFault.reason : RuleFault → String
  | .messageKind found => "message must be a string, got " ++ found.name
  | .expectedResultKind found => "expectedResult must be a boolean, got " ++ found.name
  | .validatorsKind found => "validators cannot be a " ++ found.name
  | .ruleKind found => "a rule cannot be a " ++ found.name
  | .rulesKind found => "a rule map must be an object, got " ++ found.name
  | .listItemKind found => "validator lists may only contain names, found a " ++ found.name
  | .sectionKind name found => name ++ " must be an object, got " ++ found.name
  | .missingSelector => "equalTo needs a selector"
  | .messageTextKind rule => "message for `" ++ rule ++ "` must be a string"
  | .defaultFromRules => "defaultValue takes a value or a function"
  | .nestedFromFunction => "objectValidator takes a rule map"
  | .raised reason => reason

/-- A mistake that stops a registration or a run. -/
inductive SetupError where
  | duplicateValidator (name : String)
  | duplicateModule (name : String)
  | unknownValidator (name : String)
  | missingTarget (found : Kind)
  | cyclicDependency (path : List String)
  | invalidRule (field : String) (fault : RuleFault)
  | nestingTooDeep
  deriving DecidableEq

namespace SetupError

/-- The code of an error, for programs. -/
def code : SetupError → String
  | .duplicateValidator _ => "ENGINE_DUPLICATE_VALIDATOR"
  | .duplicateModule _ => "ENGINE_DUPLICATE_MODULE"
  | .unknownValidator _ => "ENGINE_UNKNOWN_VALIDATOR"
  | .missingTarget _ => "ENGINE_MISSING_TARGET"
  | .cyclicDependency _ => "ENGINE_CYCLIC_DEPENDENCY"
  | .invalidRule _ _ => "ENGINE_INVALID_RULE"
  | .nestingTooDeep => "ENGINE_NESTING_TOO_DEEP"

/-- The broad group of an error. -/
def category : SetupError → String
  | .duplicateValidator _ => "registration"
  | .duplicateModule _ => "registration"
  | .unknownValidator _ => "lookup"
  | .missingTarget _ => "input"
  | .cyclicDependency _ => "dependency"
  | .invalidRule _ _ => "rule"
  | .nestingTooDeep => "nesting"

/-- The wording of an error. -/
def message : SetupError → String
  | .duplicateValidator name => "validator `" ++ name ++ "` is already registered"
  | .duplicateModule name => "module `" ++ name ++ "` is already registered"
  | .unknownValidator name => "unknown validator `" ++ name ++ "`"
  | .missingTarget found => "nothing to validate: expected a record, got " ++ found.name
  | .cyclicDependency path => "cyclic field dependency: " ++ " -> ".intercalate path
  | .invalidRule field fault => "invalid rule for `" ++ field ++ "`: " ++ fault.reason
  | .nestingTooDeep => "nested validation is too deep"

end SetupError

end Vetting
