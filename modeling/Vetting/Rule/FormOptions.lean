import Vetting.Rule.Decode

/-!
# Rules from the options of a form plugin

Options of the form `rules: field: rule: value` and `messages: field: rule: text`, as pages with a
validation plugin already have them, turned into field rules. Some rules go by another name here,
and `equalTo` names the field whose value has to be equal by a selector. A message counts only if
its rule is declared for the same field.
-/

set_option autoImplicit false

namespace Vetting.FormOptions

/-- The rules that go by another name, with the validators they stand for. -/
def renamed : List (String × String) :=
  [("minlength", "minLength"), ("maxlength", "maxLength"), ("min", "minValue"),
    ("max", "maxValue"), ("equalTo", "equalsTo")]

/-- The validator that a rule of the options stands for. -/
def validatorName (rule : String) : String :=
  (renamed.lookup rule).getD rule

/-- The members of a value that has to be an object. -/
def objectOf (field : String) (name : String) (v : Value) :
    Except SetupError (Fields Value) :=
  match v with
  | .object members => .ok members
  | other => .error (.invalidRule field (.sectionKind name other.kind))

/-- A section of the options; absent or null is empty. -/
def sectionOf (options : Value) (name : String) : Except SetupError (Fields Value) :=
  match ((options.fields?).getD []).get? name with
  | none => .ok []
  | some .null => .ok []
  | some v => objectOf name name v

/-- The field that a selector names: the text without the number signs in front. -/
def selected (selector : String) : String :=
  String.ofList (selector.toList.dropWhile (· == '#'))

/-- The parameters of one rule. -/
def paramsOf (field rule : String) (v : Value) : Except SetupError (List Param) :=
  if rule = "equalTo" then
    match v with
    | .string selector => .ok [.dependsOn (selected selector)]
    | .array (.string selector :: _) => .ok [.dependsOn (selected selector)]
    | _ => .error (.invalidRule field .missingSelector)
  else .ok (Param.listOfValue v)

/-- Adds the specs of the rules of a field, one after the other. -/
def addSpecs (field : String) : Fields Value → Fields Spec → Except SetupError (Fields Spec)
  | [], specs => .ok specs
  | (rule, v) :: rest, specs => do
    let params ← paramsOf field rule v
    addSpecs field rest (specs.put (validatorName rule) (.ofValues params))

/-- Sets the messages of the rules that are declared for a field. -/
def addMessages (field : String) (rules : Fields Value) :
    Fields Value → Fields Spec → Except SetupError (Fields Spec)
  | [], specs => .ok specs
  | (rule, text) :: rest, specs =>
    if !rules.has rule then addMessages field rules rest specs
    else
      match text with
      | .string s =>
        let name := validatorName rule
        match specs.get? name with
        | some spec => addMessages field rules rest (specs.put name (spec.withMessage (.text s)))
        | none => addMessages field rules rest specs
      | _ => .error (.invalidRule field (.messageTextKind rule))

/-- The rule of one field. -/
def fieldRule (messages : Fields Value) (field : String) (v : Value) :
    Except SetupError Rule := do
  let rules ← objectOf field "rules" v
  let specs ← addSpecs field rules []
  let specs ← match messages.get? field with
    | none => .ok specs
    | some texts => do
      let texts ← objectOf field "messages" texts
      addMessages field rules texts specs
  return .descriptor ⟨.specs specs, []⟩

/-- The field rules that the options of a form stand for. -/
def ruleMap (options : Value) : Except SetupError (Fields Rule) := do
  let rules ← sectionOf options "rules"
  let messages ← sectionOf options "messages"
  Fields.mapMembers (fieldRule messages) rules

end Vetting.FormOptions
