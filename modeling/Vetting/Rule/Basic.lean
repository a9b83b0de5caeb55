import Vetting.Error
import Vetting.Rule.Argument

/-!
# Rules

The declarations that an author of rules writes. A field rule is a set of validators, in one of
three shapes, or a descriptor, which adds configurations of modules. Rules either give a field
rule to each field of a record or treat the record as one value. A configuration may hold rules
again, for a nested record.

Parts that are functions are hooks: a function with an identity, since two functions cannot be
compared. `Rules.weight` counts the declarations; rules found inside rules are lighter.
-/

set_option autoImplicit false

namespace Vetting

/-- A function that the author of the rules supplies, and its identity: two hooks count as equal
when their identities are. -/
structure Hook (α : Type) where
  id : Nat
  run : α

/-- A declared parameter: a plain value, a function of the record, the value of another field
once that field passes, or a predicate handed on to the validator. -/
inductive Param where
  | literal (v : Value)
  | computed (hook : Hook (Record → Value))
  | dependsOn (field : String)
  | predicate (hook : Hook (Value → Bool))

/-- The template of a message: a text, or a function of the record and the arguments. -/
inductive Message where
  | text (s : String)
  | computed (hook : Hook (Record → Arguments → String))

/-- The result that a validator has to return: fixed, or a function of the record and the
arguments. -/
inductive Expectation where
  | literal (b : Bool)
  | computed (hook : Hook (Record → Arguments → Bool))

/-- What a rule says about one validator: its parameters, a message in place of the default one,
and the expected result in place of true. -/
structure Spec where
  values : List Param
  message : Option Message
  expected : Option Expectation

/-- The validators of a rule: one name, a list of names, or names with their specs. -/
inductive Validators where
  | name (name : String)
  | list (names : List String)
  | specs (specs : Fields Spec)

mutual

/-- Validators with configurations of modules. -/
structure Descriptor where
  validators : Validators
  modules : List (String × Configuration)

/-- The configuration of a module: plain data, rules for a nested record, or a function of the
record. -/
inductive Configuration where
  | value (v : Value)
  | rules (rules : Rules)
  | function (hook : Hook (Record → Value))

/-- The rule of one field. -/
inductive Rule where
  | bare (validators : Validators)
  | descriptor (descriptor : Descriptor)

/-- Rules for a record: one rule for each field, or one descriptor for the record as a whole. -/
inductive Rules where
  | fields (fields : List (String × Rule))
  | whole (descriptor : Descriptor)

end

namespace Param

/-- The field that a parameter depends on. -/
def dependency? : Param → Option String
  | .dependsOn field => some field
  | _ => none

end Param

namespace Message

/-- The template for one failure. -/
def template (message : Message) (record : Record) (arguments : Arguments) : String :=
  match message with
  | .text s => s
  | .computed hook => hook.run record arguments

end Message

namespace Expectation

/-- The result that counts as valid for one call. -/
def evaluate (expectation : Expectation) (record : Record) (arguments : Arguments) : Bool :=
  match expectation with
  | .literal b => b
  | .computed hook => hook.run record arguments

end Expectation

namespace Spec

/-- A spec that says nothing: no parameters, the default message, the result true. -/
def empty : Spec := ⟨[], none, none⟩

/-- A spec with only these parameters. -/
def ofValues (values : List Param) : Spec := ⟨values, none, none⟩

/-- A spec with only this message. -/
def ofMessage (message : Message) : Spec := ⟨[], some message, none⟩

/-- A spec with only this expected result. -/
def ofExpected (expected : Bool) : Spec := ⟨[], none, some (.literal expected)⟩

/-- Appends parameters. -/
def withValues (spec : Spec) (values : List Param) : Spec :=
  { spec with values := spec.values ++ values }

/-- Sets the message. -/
def withMessage (spec : Spec) (message : Message) : Spec :=
  { spec with message := some message }

/-- Sets the expected result. -/
def expecting (spec : Spec) (expected : Expectation) : Spec :=
  { spec with expected := some expected }

/-- The result that counts as valid for one call: true unless the spec says otherwise. -/
def expectedResult (spec : Spec) (record : Record) (arguments : Arguments) : Bool :=
  match spec.expected with
  | none => true
  | some expectation => expectation.evaluate record arguments

end Spec

namespace Validators

/-- No validators. -/
def empty : Validators := .specs []

/-- The validators of a field rule; a descriptor gives only its own. -/
def ofRule : Rule → Validators
  | .bare validators => validators
  | .descriptor descriptor => descriptor.validators

end Validators

namespace Configuration

/-- The plain data of a configuration. -/
def value? : Configuration → Option Value
  | .value v => some v
  | _ => none

end Configuration

namespace Rule

/-- The rule of a field that has none. -/
def empty : Rule := .bare .empty

end Rule

mutual

/-- The weight of a configuration. -/
def Configuration.weight : Configuration → Nat
  | .value v => v.weight
  | .rules rules => rules.weight
  | .function _ => 1

/-- The weight of a descriptor: one and its configurations. -/
def Descriptor.weight : Descriptor → Nat
  | ⟨_, modules⟩ => 1 + Configuration.totalWeight modules

/-- The weight of some configurations. -/
def Configuration.totalWeight : List (String × Configuration) → Nat
  | [] => 0
  | (_, config) :: rest => config.weight + Configuration.totalWeight rest

/-- The weight of a field rule. -/
def Rule.weight : Rule → Nat
  | .bare _ => 1
  | .descriptor descriptor => descriptor.weight

/-- The weight of some field rules. -/
def Rule.totalWeight : List (String × Rule) → Nat
  | [] => 0
  | (_, rule) :: rest => rule.weight + Rule.totalWeight rest

/-- The weight of rules: one and their field rules, or one and the descriptor. -/
def Rules.weight : Rules → Nat
  | .fields fields => 1 + Rule.totalWeight fields
  | .whole descriptor => 1 + descriptor.weight

end

end Vetting
