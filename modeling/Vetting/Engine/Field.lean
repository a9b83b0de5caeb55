import Vetting.Engine.Basic
import Vetting.Rule.Binding
import Vetting.Template

/-!
# Evaluating one field

The rule of a field is brought into canonical form, all its validators are looked up, its modules
run, and then every validator gives its verdict, in order of declaration. A parameter that depends
on another field is the value of that field after it has passed by its own rule; if it does not
pass, the validator is abandoned and says nothing. The fields in progress are handed down, so a
field that comes to depend on itself is found out, and the chain of dependencies ends because each
step takes one more declared field into progress.
-/

set_option autoImplicit false

namespace Vetting

/-- The arguments of a call of a validator, and their texts for its message. -/
structure Call where
  arguments : Arguments
  displays : List String

/-- Puts an argument and its text in front. -/
def Call.cons (argument : Argument) (display : String) (call : Call) : Call :=
  ⟨argument :: call.arguments, display :: call.displays⟩

/-- What becomes of one validator of a field. -/
inductive Verdict where
  | skipped
  | abandoned (dependency : String)
  | passed
  | failed (message : String)
  deriving DecidableEq

/-- The message of a failure. -/
def Verdict.message? : Verdict → Option String
  | .failed message => some message
  | _ => none

/-- What the modules of a field have handed back. -/
structure Contributions where
  aux : Fields Value
  errors : Findings

namespace Contributions

/-- Nothing yet. -/
def empty : Contributions := ⟨[], []⟩

/-- Adds the output of the module of a name. -/
def add (results : Contributions) (name : String) : Option Contribution → Contributions
  | none => results
  | some (.aux v) => { results with aux := results.aux.put name v }
  | some (.errors errors) => { results with errors := results.errors.merge errors }

end Contributions

/-- Whether a field is reported as passing. -/
def FieldResult.passes : FieldResult → Bool
  | .valid => true
  | .checked _ => false

/-- Turns bound parameters into arguments, from the left. The first dependency that does not pass
ends it, with the name of the field. -/
def assembleCall {σ : Type} (depends : String → Run Record σ Bool) :
    List BoundParam → Run Record σ (Except String Call)
  | [] => return .ok ⟨[], []⟩
  | .literal v :: rest => do
    let call ← assembleCall depends rest
    return call.map (.cons (.value v) v.display)
  | .predicate hook :: rest => do
    let call ← assembleCall depends rest
    return call.map (.cons (.predicate hook.run) "[function]")
  | .dependsOn field :: rest => do
    if ← depends field then
      let record ← Run.target
      let call ← assembleCall depends rest
      return call.map (.cons (.value (record.read field)) field)
    else return .error field

namespace Engine

variable {σ : Type}

/-- Looks up the validators of a canonical rule; the first unknown name is an error. -/
def findAll (engine : Engine σ) :
    Fields Spec → Except SetupError (List (String × Validator × Spec))
  | [] => .ok []
  | (name, spec) :: rest => do
    let validator ← engine.validators.find name
    let others ← findAll engine rest
    return (name, validator, spec) :: others

/-- Runs one module on its field. -/
def runModule (engine : Engine σ) (nested : NestedValidation σ)
    (field : String) (rule : CanonicalForm) (config : Configuration) (module : Module σ) :
    Run Record σ (Option Contribution) := do
  let record ← Run.target
  Run.focus (fun _ => none)
    (fun record written =>
      match written with
      | some v => record.put field v
      | none => record)
    (module config ⟨field, rule, engine.settings.strict, record, engine.announced nested⟩)

/-- Runs the configured modules that are registered, in order of configuration. -/
def runModules (engine : Engine σ) (nested : NestedValidation σ)
    (field : String) (rule : CanonicalForm) :
    Fields Configuration → Contributions → Run Record σ Contributions
  | [], results => return results
  | (name, config) :: rest, results =>
    match engine.modules.get? name with
    | none => runModules engine nested field rule rest results
    | some module => do
      let output ← engine.runModule nested field rule config module
      runModules engine nested field rule rest (results.add name output)

/-- The verdict of one validator on its field. -/
def check (engine : Engine σ) (depends : String → Run Record σ Bool) (field name : String)
    (validator : Validator) (spec : Spec) : Run Record σ Verdict := do
  let record ← Run.target
  if !validator.presence && !engine.settings.strict && (record.read field).isBlank then
    return .skipped
  match ← assembleCall depends (spec.bind record) with
  | .error dependency => do
    engine.notify (.abandoned field name dependency)
    return .abandoned dependency
  | .ok call => do
    let record ← Run.target
    let actual := validator.check (record.read field) call.arguments
    if actual == spec.expectedResult record call.arguments then return .passed
    let message := spec.message.getD validator.message
    return .failed (Template.fill (message.template record call.arguments) call.displays)

/-- The verdicts of the validators of a field, in order. -/
def checkAll (engine : Engine σ) (depends : String → Run Record σ Bool) (field : String) :
    List (String × Validator × Spec) → Run Record σ (List (String × Verdict))
  | [] => return []
  | (name, validator, spec) :: rest => do
    let verdict ← engine.check depends field name validator spec
    let others ← checkAll engine depends field rest
    return (name, verdict) :: others

/-- The errors of the validators that failed. -/
def failures (verdicts : List (String × Verdict)) : Findings :=
  verdicts.filterMap fun entry => entry.2.message?.map fun text => (entry.1, .message text)

/-- Evaluates the rule of a field, given how its dependencies are settled. A field without errors
is reported only when a report is forced. -/
def judge (engine : Engine σ) (nested : NestedValidation σ)
    (depends : String → Run Record σ Bool) (field : String) (rule : Rule) (force : Bool) :
    Run Record σ FieldResult := do
  let validators ← Run.ofExcept (engine.findAll rule.canonical.validators)
  let modules ←
    engine.runModules nested field rule.canonical rule.canonical.modules .empty
  let verdicts ← engine.checkAll depends field validators
  let errors := (failures verdicts).merge modules.errors
  if !force && errors.isEmpty then return .valid
  return .checked ⟨errors, modules.aux⟩

/-- The declared fields that are not in progress. -/
def idle (rules : Fields Rule) (inProgress : List String) : List String :=
  rules.keys.filter fun key => !inProgress.contains key

/-- Taking one more declared field into progress leaves fewer that are not. -/
theorem length_idle_lt {rules : Fields Rule} {inProgress : List String} {field : String}
    (hdeclared : field ∈ rules.keys) (hnew : field ∉ inProgress) :
    (idle rules (inProgress ++ [field])).length < (idle rules inProgress).length := by
  have hsub : (idle rules (inProgress ++ [field])) =
      (idle rules inProgress).filter fun key => key != field := by
    simp only [idle, List.filter_filter]
    refine List.filter_congr fun key _ => ?_
    by_cases hk : key = field <;> by_cases hp : key ∈ inProgress <;> simp [hk, hp]
  rw [hsub, List.length_filter_lt_length_iff_exists]
  exact ⟨field, List.mem_filter.2 ⟨hdeclared, by simp [hnew]⟩, by simp⟩

/-- Whether a field that another one depends on passes by its own rule. A field without a rule
passes; a field in progress closes a cycle, and the path of the cycle is the error. -/
def dependencyPasses (engine : Engine σ) (nested : NestedValidation σ)
    (rules : Fields Rule) (inProgress : List String) (field : String) : Run Record σ Bool :=
  if _hnew : field ∈ inProgress then throw (.cyclicDependency (inProgress ++ [field]))
  else
    engine.during (.entered rules.keys (inProgress ++ [field])) (.returned inProgress)
      (match _hrule : rules.get? field with
      | none => return true
      | some rule => do
        let outcome ← engine.judge nested
          (fun next => dependencyPasses engine nested rules (inProgress ++ [field]) next)
          field rule false
        return outcome.passes)
termination_by (idle rules inProgress).length
decreasing_by
  exact length_idle_lt ((Fields.get?_isSome_iff rules field).1 (by rw [_hrule]; rfl)) _hnew

/-- Evaluates a field while others are in progress. -/
def judgeWithin (engine : Engine σ) (nested : NestedValidation σ)
    (rules : Fields Rule) (inProgress : List String) (field : String) (rule : Rule)
    (force : Bool) : Run Record σ FieldResult :=
  engine.during (.entered rules.keys (inProgress ++ [field])) (.returned inProgress)
    (engine.judge nested
      (engine.dependencyPasses nested rules (inProgress ++ [field])) field rule force)

end Engine

end Vetting
