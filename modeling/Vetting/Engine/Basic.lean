import Vetting.Validator.Builtin
import Vetting.Module.Builtin

/-!
# The engine

An engine is its settings, a registry of validators and a registry of modules. It may also be
given an observer, which is told of the steps of a run and may note them in the caller's state.
-/

set_option autoImplicit false

namespace Vetting

/-- The settings of an engine. A strict engine passes over no validator and no nested record for
a blank value. -/
structure Settings where
  strict : Bool
  deriving DecidableEq

namespace Settings

/-- The settings of an engine about which nothing is said. -/
def standard : Settings := ⟨false⟩

/-- The settings for what is said about `strict`, which has to be a truth value if anything is
said. -/
def ofStrict? : Option Value → Option Settings
  | none => some standard
  | some (.bool strict) => some ⟨strict⟩
  | some _ => none

/-- Reads settings by name from an object, whose other members count for nothing, or by position
from a list, which has no item more than there are settings. -/
def ofValue? : Value → Option Settings
  | .object members => ofStrict? (Fields.get? members "strict")
  | .array [] => ofStrict? none
  | .array [strict] => ofStrict? (some strict)
  | _ => none

/-- Settings as data. -/
def toValue (settings : Settings) : Value := .object [("strict", .bool settings.strict)]

end Settings

/-- A step of a run that an observer is told of: the evaluation of a field begins, given with the
fields that the rule map declares and with the fields in progress, the new one last; it is over,
given with the fields still in progress; a validator is abandoned because a field that it depends on
does not pass; a module begins a nested run over rules on a value; and that run is over. -/
inductive Event where
  | entered (declared inProgress : List String)
  | returned (inProgress : List String)
  | abandoned (field validator dependency : String)
  | opened (rules : Rules) (v : Value)
  | closed

/-- An engine, for callers that keep a state of type `σ`. Nested runs over rules that are lighter
than those at hand are always granted; `nestingLimit` is how many others may be open at once. -/
structure Engine (σ : Type) where
  settings : Settings
  validators : KnownValidators
  modules : KnownModules σ
  nestingLimit : Nat
  observe : Event → σ → σ

namespace Engine

variable {σ : Type}

/-- An engine with these settings and registries. -/
def ofParts (settings : Settings) (validators : KnownValidators) (modules : KnownModules σ) :
    Engine σ :=
  ⟨settings, validators, modules, 1000, fun _ caller => caller⟩

/-- An engine with the built-in validators and modules. -/
def withSettings (settings : Settings) : Engine σ :=
  ofParts settings KnownValidators.builtin KnownModules.builtin

/-- An engine with the built-in validators and modules and the standard settings. -/
def standard : Engine σ := withSettings Settings.standard

/-- Registers a validator under a new name. -/
def addValidator (engine : Engine σ) (name : String) (validator : Validator) :
    Except SetupError (Engine σ) := do
  let validators ← engine.validators.add name validator
  return { engine with validators }

/-- Registers a module under a new name. -/
def addModule (engine : Engine σ) (name : String) (module : Module σ) :
    Except SetupError (Engine σ) := do
  let modules ← engine.modules.add name module
  return { engine with modules }

/-- Tells the observer of a step. -/
def notify {τ : Type} (engine : Engine σ) (event : Event) : Run τ σ Unit :=
  Run.modifyCaller (engine.observe event)

/-- Runs between two steps that the observer is told of; the last one also when the run ends in an
error. -/
def during {τ α : Type} (engine : Engine σ) (first last : Event) (run : Run τ σ α) :
    Run τ σ α := do
  engine.notify first
  Run.lastly (engine.observe last) run

/-- Nested validation with an observer who is told when it begins and when it is over. -/
def announced (engine : Engine σ) (nested : NestedValidation σ) : NestedValidation σ :=
  fun rules force => do
    let v ← Run.target
    engine.during (.opened rules v) .closed (nested rules force)

end Engine

end Vetting
