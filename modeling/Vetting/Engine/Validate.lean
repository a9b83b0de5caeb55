import Vetting.Engine.Field

/-!
# Validating a record

Rules for fields are evaluated in order of declaration on a record; a descriptor for the record as
a whole is evaluated on a record that holds the given value as its only field. Modules may start
runs on nested records. A nested run over rules that are lighter than those at hand, which is what
rules found inside rules are, is always granted; the limit of an engine bounds how many other
nested runs may be open at once.
-/

set_option autoImplicit false

namespace Vetting.Engine

variable {σ : Type}

/-- Evaluates the fields of a rule map in order and collects the reports. -/
def judgeAll (engine : Engine σ) (nested : NestedValidation σ) (rules : Fields Rule)
    (force : Bool) : List (String × Rule) → Run Record σ (Fields Report)
  | [] => return []
  | (field, rule) :: rest => do
    let outcome ← engine.judgeWithin nested rules [] field rule force
    let others ← judgeAll engine nested rules force rest
    match outcome with
    | .valid => return others
    | .checked report => return (field, report) :: others

/-- The fields of a value as a record; a value that is no object has none. -/
def recordOf (v : Value) : Record := v.fields?.getD []

/-- A value with the fields of a record; a value that is no object stays. -/
def withRecord (v : Value) (record : Record) : Value :=
  match v with
  | .object _ => .object record
  | other => other

/-- Validates by field rules. A falsy value is nothing to validate. -/
def validateFields (engine : Engine σ) (nested : NestedValidation σ) (rules : Fields Rule)
    (force : Bool) : Run Value σ Outcome := do
  let v ← Run.target
  if !v.isTruthy then throw (.missingTarget v.kind)
  let reports ← Run.focus recordOf withRecord (engine.judgeAll nested rules force rules)
  if !force && reports.isEmpty then return .valid
  return .fields reports

/-- Validates by a descriptor for the value as a whole. -/
def validateWhole (engine : Engine σ) (nested : NestedValidation σ) (descriptor : Descriptor)
    (force : Bool) : Run Value σ Outcome := do
  let rule := Rule.descriptor descriptor
  let outcome ← Run.focus (fun v => [(wholeField, v)])
    (fun _ record => Fields.read record wholeField)
    (engine.judgeWithin nested [(wholeField, rule)] [] wholeField rule force)
  match outcome with
  | .valid => return .valid
  | .checked report => return .errors report.errors

/-- Validates by rules, given how nested records are validated. -/
def validateBy (engine : Engine σ) (nested : NestedValidation σ) (rules : Rules) (force : Bool) :
    Run Value σ Outcome :=
  match rules with
  | .fields fields => engine.validateFields nested fields force
  | .whole descriptor => engine.validateWhole nested descriptor force

/-- Nested validation below a weight: lighter rules are validated, with nested validation below
their own weight; `otherwise` decides about all others. -/
def nestedBelow (engine : Engine σ) (otherwise : NestedValidation σ) (bound : Nat) :
    NestedValidation σ :=
  fun rules force =>
    if _h : rules.weight < bound then
      engine.validateBy (nestedBelow engine otherwise rules.weight) rules force
    else otherwise rules force
termination_by bound

/-- Nested validation below a weight, when so many runs over other rules may still be opened. -/
def nestedWithin (engine : Engine σ) : Nat → Nat → NestedValidation σ
  | 0, bound => engine.nestedBelow (fun _ _ => throw .nestingTooDeep) bound
  | limit + 1, bound =>
    engine.nestedBelow
      (fun rules force =>
        engine.validateBy (nestedWithin engine limit rules.weight) rules force)
      bound

/-- Validates a value by rules and leaves in its place what the modules have made of it. -/
def validate (engine : Engine σ) (rules : Rules) (force : Bool) : Run Value σ Outcome :=
  engine.validateBy (engine.nestedWithin engine.nestingLimit rules.weight) rules force

/-- Reads rules from data and validates by them. -/
def validateData (engine : Engine σ) (rules : Value) (force : Bool) : Run Value σ Outcome := do
  let rules ← Run.ofExcept (Rules.ofValue rules)
  engine.validate rules force

/-- Whether a value passes every rule. -/
def isValid (engine : Engine σ) (rules : Rules) : Run Value σ Bool := do
  match ← engine.validate rules false with
  | .valid => return true
  | _ => return false

/-- Evaluates a single field of a record by a rule; the rule map is looked at for the fields that
the rule depends on. -/
def judgeField (engine : Engine σ) (rules : Fields Rule) (field : String) (rule : Rule)
    (force : Bool) : Run Record σ FieldResult :=
  engine.judgeWithin
    (engine.nestedWithin engine.nestingLimit ((Rules.fields rules).weight + rule.weight))
    rules [] field rule force

end Vetting.Engine
