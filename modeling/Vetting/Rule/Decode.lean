import Vetting.Rule.Basic

/-!
# Reading rules from data

Rules that hold no functions can be written as data. Every field of the rules of a record is a
field rule; one that is an object with the member `validators` is a descriptor, whose other
members configure modules. Options of a validator are a truth value (the expected result), a
string (the message), an object with the members `values`, `message` and `expectedResult`, or the
parameters themselves.
-/

set_option autoImplicit false

namespace Vetting

/-- The member that marks a descriptor. -/
def validatorsMember : String := "validators"

/-- The name under which a descriptor for a whole record sees the record. -/
def wholeField : String := "object"

/-- Decodes every member of an object with a function of its name and value; the first error
wins. -/
def Fields.mapMembers {α β : Type} (decode : String → α → Except SetupError β) :
    Fields α → Except SetupError (Fields β)
  | [] => .ok []
  | (name, value) :: rest => do
    let first ← decode name value
    let others ← mapMembers decode rest
    return (name, first) :: others

namespace Param

/-- Reads one parameter: an object whose member `dependsField` is a string names a dependency,
any other value is itself. -/
def ofValue (v : Value) : Param :=
  match v with
  | .object fields =>
    match Fields.get? fields "dependsField" with
    | some (.string field) => .dependsOn field
    | _ => .literal v
  | _ => .literal v

/-- Reads parameters: a list gives one for each item, any other value is the only one. -/
def listOfValue : Value → List Param
  | .array items => items.map ofValue
  | other => [ofValue other]

end Param

namespace Spec

/-- Reads the message of an object of options. -/
def messageOf (field : String) : Option Value → Except SetupError (Option Message)
  | none => .ok none
  | some .null => .ok none
  | some (.string s) => .ok (some (.text s))
  | some other => .error (.invalidRule field (.messageKind other.kind))

/-- Reads the expected result of an object of options. -/
def expectationOf (field : String) : Option Value → Except SetupError (Option Expectation)
  | none => .ok none
  | some .null => .ok none
  | some (.bool b) => .ok (some (.literal b))
  | some other => .error (.invalidRule field (.expectedResultKind other.kind))

/-- Reads the options of one validator. -/
def ofValue (field : String) : Value → Except SetupError Spec
  | .bool b => .ok (.ofExpected b)
  | .string s => .ok (.ofMessage (.text s))
  | .object options => do
    let values := ((Fields.get? options "values").map Param.listOfValue).getD []
    let message ← messageOf field (Fields.get? options "message")
    let expected ← expectationOf field (Fields.get? options "expectedResult")
    return ⟨values, message, expected⟩
  | other => .ok (.ofValues (Param.listOfValue other))

/-- Reads the options of several validators. -/
def mapOfFields (field : String) (options : Fields Value) : Except SetupError (Fields Spec) :=
  Fields.mapMembers (fun _ => ofValue field) options

end Spec

namespace Validators

/-- Reads a list of names. -/
def namesOfItems (field : String) : List Value → Except SetupError (List String)
  | [] => .ok []
  | .string first :: rest => do
    let others ← namesOfItems field rest
    return first :: others
  | other :: _ => .error (.invalidRule field (.listItemKind other.kind))

/-- Reads the validators of a descriptor. -/
def ofValue (field : String) : Value → Except SetupError Validators
  | .string only => .ok (.name only)
  | .array items => .list <$> namesOfItems field items
  | .object options => .specs <$> Spec.mapOfFields field options
  | .null => .ok .empty
  | other => .error (.invalidRule field (.validatorsKind other.kind))

end Validators

namespace Descriptor

/-- Reads a descriptor: the member `validators`, and a module for every other member. -/
def ofFields (field : String) (members : Fields Value) : Except SetupError Descriptor := do
  let validators ← Validators.ofValue field (Fields.read members validatorsMember)
  let others := members.filter fun member => member.1 != validatorsMember
  return ⟨validators, others.map fun member => (member.1, .value member.2)⟩

end Descriptor

namespace Rule

/-- Reads the rule of a field. -/
def ofValue (field : String) : Value → Except SetupError Rule
  | .string name => .ok (.bare (.name name))
  | .array items => (.bare ∘ .list) <$> Validators.namesOfItems field items
  | .object members =>
    if Fields.has members validatorsMember then
      .descriptor <$> Descriptor.ofFields field members
    else (.bare ∘ .specs) <$> Spec.mapOfFields field members
  | .null => .ok .empty
  | other => .error (.invalidRule field (.ruleKind other.kind))

end Rule

namespace Rules

/-- Reads rules: an object with the member `validators` describes the record as a whole, any other
object gives a rule to each field. -/
def ofValue : Value → Except SetupError Rules
  | .object members =>
    if Fields.has members validatorsMember then
      .whole <$> Descriptor.ofFields wholeField members
    else .fields <$> Fields.mapMembers Rule.ofValue members
  | other => .error (.invalidRule wholeField (.rulesKind other.kind))

end Rules

end Vetting
