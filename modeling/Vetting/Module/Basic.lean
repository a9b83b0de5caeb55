import Vetting.Registry
import Vetting.Run
import Vetting.Outcome
import Vetting.Rule.Canonical
import Vetting.Rule.Describe
import Vetting.Value.Loose

/-!
# Modules

A module is configured beside the validators of a field and runs before them. It sees the record
and may put a new value into its own field, and no other; it may hand back data for the report of
the field, or errors of its own. The target of its run is what it has written so far, so that this
is all it can change.
-/

set_option autoImplicit false

namespace Vetting

/-- What a module hands back: data under its name, or errors for the field. -/
inductive Contribution where
  | aux (v : Value)
  | errors (errors : Findings)

/-- Validation of a nested record: by rules, with or without a forced report. -/
abbrev NestedValidation (σ : Type) := Rules → Bool → Run Value σ Outcome

/-- What a module sees: its field, the canonical rule of the field, whether the engine is strict,
the record, and validation by the same engine. -/
structure Scope (σ : Type) where
  field : String
  rule : CanonicalForm
  strict : Bool
  record : Record
  validate : NestedValidation σ

/-- A module: with a configuration and a scope it runs on what it writes into its field. -/
abbrev Module (σ : Type) := Configuration → Scope σ → Run (Option Value) σ (Option Contribution)

/-- The modules that rules may configure. -/
abbrev KnownModules (σ : Type) := Registry (Module σ)

namespace Scope

variable {σ : Type}

/-- The value of the field; an absent field reads as null. -/
def value (scope : Scope σ) : Value := scope.record.read scope.field

/-- The configuration of another module of the field. -/
def sibling? (scope : Scope σ) (name : String) : Option Configuration :=
  scope.rule.modules.get? name

end Scope

namespace Configuration

/-- Whether a configuration switches its module on: rules and functions do, data when it is
truthy. -/
def isEnabled : Configuration → Bool
  | .value v => v.isTruthy
  | .rules _ => true
  | .function _ => true

end Configuration

/-- Writes a value into the field of a module. -/
def Module.write {σ : Type} (v : Value) : Run (Option Value) σ Unit := Run.setTarget (some v)

namespace KnownModules

variable {σ : Type}

/-- Registers a module under a new name. -/
def add (registry : KnownModules σ) (name : String) (module : Module σ) :
    Except SetupError (KnownModules σ) :=
  registry.register name module (.duplicateModule name)

/-- The description of a registry of modules. -/
def describe (registry : KnownModules σ) : String :=
  Describe.parts "ModuleRegistry"
    [("modules", Describe.list (registry.names.map Describe.text))]

end KnownModules

end Vetting
