import Vetting.Rule.Basic
import Vetting.Text.Quoted

/-!
# Descriptions for logs

A one-line description of every declaration, with the shape of each part by name. Functions show
as a mark, since nothing else can be said about them.
-/

set_option autoImplicit false

namespace Vetting

namespace Describe

/-- The characters with a mark in a description: those common to all formats, and the null
character. -/
def marks : List (Char × Char) :=
  Text.commonMarks ++ [(Char.ofNat 0, '0')]

/-- A text between quotation marks. -/
def text (s : String) : String := Text.quoted marks (fun c => [c]) s

/-- A list of descriptions. -/
def list (items : List String) : String :=
  "[" ++ ", ".intercalate items ++ "]"

/-- A map of descriptions. -/
def map (members : List (String × String)) : String :=
  "\x7b" ++ ", ".intercalate (members.map fun m => text m.1 ++ ": " ++ m.2) ++ "\x7d"

/-- A description with the name of its shape. -/
def tagged (tag body : String) : String := tag ++ "(" ++ body ++ ")"

/-- A description with named parts. -/
def parts (tag : String) (members : List (String × String)) : String :=
  tag ++ " \x7b " ++ ", ".intercalate (members.map fun m => m.1 ++ ": " ++ m.2) ++ " \x7d"

/-- An optional description. -/
def optional : Option String → String
  | none => "None"
  | some body => tagged "Some" body

/-- A truth value. -/
def bool (b : Bool) : String := if b then "true" else "false"

/-- A function. -/
def function : String := "<fn>"

end Describe

mutual

/-- The description of a value. -/
def Value.describe : Value → String
  | .null => "Null"
  | .bool b => Describe.tagged "Bool" (Describe.bool b)
  | .number n => Describe.tagged "Number" n.text
  | .string s => Describe.tagged "String" (Describe.text s)
  | .array items => "Array " ++ Describe.list (Value.describeItems items)
  | .object fields => "Object " ++ Describe.map (Value.describeFields fields)

/-- The descriptions of the items of a list. -/
def Value.describeItems : List Value → List String
  | [] => []
  | item :: rest => item.describe :: Value.describeItems rest

/-- The descriptions of the fields of an object. -/
def Value.describeFields : List (String × Value) → List (String × String)
  | [] => []
  | (name, value) :: rest => (name, value.describe) :: Value.describeFields rest

end

/-- The description of an argument. -/
def Argument.describe : Argument → String
  | .value v => v.describe
  | .predicate _ => Describe.function

/-- The description of the arguments of a call. -/
def Arguments.describe (arguments : Arguments) : String :=
  Describe.list (arguments.map Argument.describe)

/-- The description of a parameter. -/
def Param.describe : Param → String
  | .literal v => Describe.tagged "Literal" v.describe
  | .computed _ => Describe.tagged "Computed" Describe.function
  | .dependsOn field => Describe.tagged "DependsOn" (Describe.text field)
  | .predicate _ => Describe.tagged "Predicate" Describe.function

/-- The description of a message. -/
def Message.describe : Message → String
  | .text s => Describe.tagged "Text" (Describe.text s)
  | .computed _ => Describe.tagged "Computed" Describe.function

/-- The description of an expectation. -/
def Expectation.describe : Expectation → String
  | .literal b => Describe.tagged "Literal" (Describe.bool b)
  | .computed _ => Describe.tagged "Computed" Describe.function

/-- The description of a spec. -/
def Spec.describe (spec : Spec) : String :=
  Describe.parts "RuleSpec"
    [("values", Describe.list (spec.values.map Param.describe)),
     ("message", Describe.optional (spec.message.map Message.describe)),
     ("expected_result", Describe.optional (spec.expected.map Expectation.describe))]

/-- The description of a set of validators. -/
def Validators.describe : Validators → String
  | .name only => Describe.tagged "Name" (Describe.text only)
  | .list names => Describe.tagged "List" (Describe.list (names.map Describe.text))
  | .specs entries => Describe.tagged "Specs" (Describe.map (entries.mapValues Spec.describe))

mutual

/-- The description of a configuration. -/
def Configuration.describe : Configuration → String
  | .value v => Describe.tagged "Value" v.describe
  | .rules rules => Describe.tagged "Rules" rules.describe
  | .function _ => Describe.tagged "Function" Describe.function

/-- The descriptions of some configurations. -/
def Configuration.describeAll : List (String × Configuration) → List (String × String)
  | [] => []
  | (name, config) :: rest => (name, config.describe) :: Configuration.describeAll rest

/-- The description of a descriptor. -/
def Descriptor.describe : Descriptor → String
  | ⟨validators, modules⟩ =>
    Describe.parts "FieldDescriptor"
      [("validators", validators.describe),
       ("modules", Describe.map (Configuration.describeAll modules))]

/-- The description of a field rule. -/
def Rule.describe : Rule → String
  | .bare validators => validators.describe
  | .descriptor descriptor => Describe.tagged "Descriptor" descriptor.describe

/-- The descriptions of some field rules. -/
def Rule.describeAll : List (String × Rule) → List (String × String)
  | [] => []
  | (name, rule) :: rest => (name, rule.describe) :: Rule.describeAll rest

/-- The description of rules. -/
def Rules.describe : Rules → String
  | .fields fields => Describe.tagged "Fields" (Describe.map (Rule.describeAll fields))
  | .whole descriptor => Describe.tagged "Whole" descriptor.describe

end

end Vetting
