import Vetting.Proofs.RelatedEvaluations

/-!
# Runs with different observers

Two engines with the built-in modules that differ in their observers alone validate alike
(`Engine.Alike.validateBy`): from one target, and from states of their callers that belong together,
they end the same way, with one target and with states that belong together. This is the comparison
of related runs in which targets and results are related when they are equal. The built-in modules
never look at the state of the caller, and ask for nested runs over the rules of their
configurations alone. With states that belong together when they are equal, runs alike are equal
runs; with states that always belong together, no observer changes what a run does.
-/

set_option autoImplicit false

namespace Vetting

/-- Runs that end the same way from one target and states of the callers that belong together: with
one result or one error, one target, and states that belong together. -/
abbrev Run.Alike {τ σ σ' α : Type} (R : σ → σ' → Prop) (run : Run τ σ α) (run' : Run τ σ' α) :
    Prop :=
  Run.Related noError Eq R Eq run run'

/-- A result of the one run is the result of a run alike, on the same target. -/
theorem Run.Alike.ok {τ σ σ' α : Type} {R : σ → σ' → Prop} {run : Run τ σ α} {run' : Run τ σ' α}
    (h : Run.Alike R run run') {t : τ} {c : σ} (c' : σ') (hcallers : R c c') {a : α}
    {after : Store τ σ} (hrun : run ⟨t, c⟩ = .ok a after) :
    ∃ d, run' ⟨t, c'⟩ = .ok a ⟨after.target, d⟩ ∧ R after.caller d := by
  obtain ⟨_, ⟨u, d⟩, hrun', rfl, htarget, hafter⟩ := (h ⟨t, c⟩ ⟨t, c'⟩ ⟨rfl, hcallers⟩).of_ok hrun
  cases htarget
  exact ⟨d, hrun', hafter⟩

/-- The field rules by which rules are carried out: their own, or the one of the field that holds
the whole record. -/
def Rules.members : Rules → Fields Rule
  | .fields rules => rules
  | .whole descriptor => [(wholeField, .descriptor descriptor)]

/-- Two ways to validate nested records treat alike all rules that the modules of some field rules
are configured with. -/
def NestedAlike {σ σ' : Type} (R : σ → σ' → Prop) (rules : Fields Rule)
    (nested : NestedValidation σ) (nested' : NestedValidation σ') : Prop :=
  ∀ field rule, (field, rule) ∈ rules → ∀ name config, (name, config) ∈ rule.canonical.modules →
    ∀ inner, Module.nestedRules field config = .ok inner →
      Run.Alike R (nested inner false) (nested' inner false)

namespace Module

variable {σ σ' : Type} {X : SetupError → Prop} {R : σ → σ' → Prop}

open Run

/-- Modules that write nothing more and hand back nothing are alike. -/
theorem alike_none :
    Related X Eq R Eq (pure none : Run (Option Value) σ (Option Contribution))
      (pure none : Run (Option Value) σ' (Option Contribution)) :=
  related_pure rfl

/-- Modules that write one value and hand back nothing are alike. -/
theorem alike_write (v : Value) :
    Related X Eq R Eq (do write v; pure none : Run (Option Value) σ (Option Contribution))
      (do write v; pure none : Run (Option Value) σ' (Option Contribution)) :=
  (related_setTarget rfl).bind fun _ _ _ => alike_none

section Scopes

variable {config : Configuration} {scope : Scope σ} {validate : NestedValidation σ'}

/-- Trimming looks at the value of the field. -/
theorem trimValue_alike :
    Related X Eq R Eq (trimValue config scope) (trimValue config { scope with validate }) := by
  have hvalue : ({ scope with validate } : Scope σ').value = scope.value := rfl
  unfold trimValue
  rw [hvalue]
  split
  · split
    · split
      · exact alike_write _
      · exact alike_none
    · exact alike_none
  · exact alike_none

/-- A default value is a constant or a function of the record. -/
theorem defaultValue_alike :
    Related X Eq R Eq (defaultValue config scope)
      (defaultValue config { scope with validate }) := by
  have hvalue : ({ scope with validate } : Scope σ').value = scope.value := rfl
  unfold defaultValue
  rw [hvalue]
  split
  · cases config with
    | value v => exact alike_write v
    | function hook => exact alike_write _
    | rules rules => exact (related_throw (A := Eq) _).bind fun _ _ _ => alike_none
  · exact alike_none

/-- Coercion to an integer looks at the value of the field. -/
theorem int_alike : Related X Eq R Eq (int config scope) (int config { scope with validate }) := by
  have hvalue : ({ scope with validate } : Scope σ').value = scope.value := rfl
  unfold int
  rw [hvalue]
  split
  · split
    · split
      · split
        · exact alike_write _
        · exact alike_none
      · exact alike_none
    · exact alike_none
  · exact alike_none

/-- Coercion to a float looks at the value of the field. -/
theorem float_alike :
    Related X Eq R Eq (float config scope) (float config { scope with validate }) := by
  have hvalue : ({ scope with validate } : Scope σ').value = scope.value := rfl
  unfold float
  rw [hvalue]
  split
  · split
    · exact alike_write _
    · exact alike_none
  · exact alike_none

/-- Rounding looks at the value of the field and at the configurations beside its own. -/
theorem roundedFloat_alike :
    Related X Eq R Eq (roundedFloat config scope)
      (roundedFloat config { scope with validate }) := by
  have hvalue : ({ scope with validate } : Scope σ').value = scope.value := rfl
  have hrounding : roundingOf config { scope with validate } = roundingOf config scope := rfl
  unfold roundedFloat
  rw [hvalue, hrounding]
  split
  · exact alike_none
  · split
    · exact alike_write _
    · exact alike_none
  · split
    · exact alike_write _
    · exact alike_none

/-- A function of the record is given the record alone. -/
theorem customFunction_alike :
    Related X Eq R Eq (customFunction config scope)
      (customFunction config { scope with validate }) := by
  cases config with
  | function hook => exact alike_write _
  | value v => exact alike_none
  | rules rules => exact alike_none

/-- The module for nested records asks for a run over the rules of its configuration alone. -/
theorem objectValidator_alike
    (h : ∀ inner, nestedRules scope.field config = .ok inner →
      Related X Eq R Eq (scope.validate inner false) (validate inner false)) :
    Related X Eq R Eq (objectValidator config scope)
      (objectValidator config { scope with validate }) := by
  have hvalue : ({ scope with validate } : Scope σ').value = scope.value := rfl
  have hfield : ({ scope with validate } : Scope σ').field = scope.field := rfl
  unfold objectValidator
  rw [hvalue, hfield]
  split
  · exact alike_none
  · refine (related_ofExcept (SameErrorOr.refl (R := Eq) fun _ _ => rfl).with_eq).bind ?_
    rintro inner _ ⟨hinner, rfl⟩
    refine ((h inner hinner).beside rfl).bind ?_
    rintro ⟨outcome, v⟩ ⟨_, _⟩ ⟨rfl, rfl⟩
    refine (related_setTarget rfl).bind fun _ _ _ => ?_
    cases outcome <;> exact related_pure rfl

end Scopes

/-- A name is no built-in module's for all callers, or what is registered under it is alike for all;
the module for nested records is if the runs are that it asks for, over the rules of its
configuration. -/
theorem builtin_alike (name : String) :
    Option.Rel (fun (module : Module σ) (module' : Module σ') =>
        ∀ (config : Configuration) (scope : Scope σ) (validate : NestedValidation σ'),
          (name = "objectValidator" → ∀ inner, nestedRules scope.field config = .ok inner →
            Related X Eq R Eq (scope.validate inner false) (validate inner false)) →
          Related X Eq R Eq (module config scope) (module' config { scope with validate }))
      ((KnownModules.builtin : KnownModules σ).get? name)
      ((KnownModules.builtin : KnownModules σ').get? name) := by
  by_cases hname : name ∈ Fields.keys (builtins : List (String × Module σ))
  · simp only [Fields.keys, builtins, List.map_cons, List.map_nil, List.mem_cons,
      List.not_mem_nil, or_false] at hname
    rcases hname with rfl | rfl | rfl | rfl | rfl | rfl | rfl | rfl
    · exact .some fun _ _ _ _ => trimValue_alike
    · exact .some fun _ _ _ _ => defaultValue_alike
    · exact .some fun _ _ _ _ => int_alike
    · exact .some fun _ _ _ _ => float_alike
    · exact .some fun _ _ _ _ => roundedFloat_alike
    · exact .some fun _ _ _ h => objectValidator_alike (h rfl)
    · exact .some fun _ _ _ _ => customFunction_alike
    · exact .some fun _ _ _ _ => related_pure rfl
  · have hnone : (KnownModules.builtin : KnownModules σ).get? name = none :=
      Fields.get?_eq_none hname
    have hnone' : (KnownModules.builtin : KnownModules σ').get? name = none :=
      Fields.get?_eq_none hname
    rw [hnone, hnone']
    exact .none

end Module

namespace Engine

variable {σ σ' : Type} {X : SetupError → Prop} {R : σ → σ' → Prop} {engine : Engine σ}
  {engine' : Engine σ'} {nested : NestedValidation σ} {nested' : NestedValidation σ'}

/-- Built-in modules of a field run in related ways in engines that keep step, if the nested runs do
that the module for nested records is configured with. -/
theorem runModules_builtin (hstep : InStep R engine engine') {field : String} {rule : CanonicalForm}
    {configs : Fields Configuration}
    (hmodules : ∀ entry ∈ configs, engine.modules.get? entry.1 = KnownModules.builtin.get? entry.1)
    (hmodules' : ∀ entry ∈ configs,
      engine'.modules.get? entry.1 = KnownModules.builtin.get? entry.1)
    (h : ∀ config, ("objectValidator", config) ∈ configs → ∀ inner,
      Module.nestedRules field config = .ok inner →
        Run.Related X Eq R Eq (nested inner false) (nested' inner false))
    (results : Contributions) :
    Run.Related X Eq R Eq (engine.runModules nested field rule configs results)
      (engine'.runModules nested' field rule configs results) := by
  refine runModules_related (C := Eq) ?_ (.refl fun entry hentry => ?_) rfl
  · rintro _ _ _ _ _ rfl rfl
    rfl
  · obtain ⟨name, config⟩ := entry
    rw [hmodules _ hentry, hmodules' _ hentry]
    have hboth := Module.builtin_alike (X := X) (R := R) name
    dsimp only
    generalize (KnownModules.builtin : KnownModules σ).get? name = module,
      (KnownModules.builtin : KnownModules σ').get? name = module' at hboth
    cases hboth with
    | none => exact .none
    | some hmodule =>
      refine .some (runModule_related (W := Eq) rfl ?_ ?_)
      · rintro _ _ _ _ rfl rfl
        rfl
      · rintro record _ rfl
        rw [← hstep.settings]
        refine hmodule config _ _ fun hname inner hinner => ?_
        refine Run.related_target fun v _ heq => heq ▸ ?_
        exact related_during (h config (hname ▸ hentry) inner hinner) (hstep.observe _)
          (hstep.observe _)

/-- Rules are carried out in related ways on equal values if their fields are judged in related
ways. -/
theorem validateBy_related (hstep : InStep R engine engine') {rules : Rules}
    (hjudge : ∀ field rule, (field, rule) ∈ rules.members →
      JudgeRelated X Eq R Eq Eq engine engine' nested nested' field rule rule) (force : Bool) :
    Run.Related X Eq R Eq (engine.validateBy nested rules force)
      (engine'.validateBy nested' rules force) := by
  have hread : ∀ d (r r' : Record), r = r' →
      Argument.value (r.read d) = .value (r'.read d) := by
    rintro d r _ rfl
    rfl
  cases rules with
  | fields rules =>
    exact validateFields_related hstep hread .eq (.refl fun entry hentry => hjudge _ _ hentry)
      (.eq _) force
  | whole descriptor =>
    exact validateWhole_related hstep hread .eq (hjudge _ _ List.mem_cons_self) (.eq _) force

/-- Two engines with the built-in modules, the same but for their observers, who keep states
together that belong together. -/
structure Alike (R : σ → σ' → Prop) (engine : Engine σ) (engine' : Engine σ') : Prop
    extends InStep R engine engine' where
  validators : engine.validators = engine'.validators
  modules : engine.modules = KnownModules.builtin
  modules' : engine'.modules = KnownModules.builtin

namespace Alike

variable (halike : engine.Alike R engine')

include halike

/-- Engines alike look up the same validators. -/
theorem findAll (specs : Fields Spec) : engine.findAll specs = engine'.findAll specs := by
  induction specs with
  | nil => rfl
  | cons entry rest ih => rw [Engine.findAll, Engine.findAll, halike.validators, ih]

/-- The modules of a field run alike if the nested runs do that they are configured with. -/
theorem runModules {field : String} {rule : CanonicalForm} (configs : Fields Configuration)
    (h : ∀ name config, (name, config) ∈ configs → ∀ inner,
      Module.nestedRules field config = .ok inner →
        Run.Alike R (nested inner false) (nested' inner false))
    (results : Contributions) :
    Run.Alike R (engine.runModules nested field rule configs results)
      (engine'.runModules nested' field rule configs results) :=
  runModules_builtin halike.toInStep (fun _ _ => by rw [halike.modules])
    (fun _ _ => by rw [halike.modules']) (h _) results

/-- A field is judged alike if the nested runs do that its modules are configured with. -/
theorem judge {rules : Fields Rule} (hnested : NestedAlike R rules nested nested') {field : String}
    {rule : Rule} (hrule : (field, rule) ∈ rules) :
    JudgeRelated noError Eq R Eq Eq engine engine' nested nested' field rule rule := by
  intro depends depends' force hdepends
  refine judge_related halike.toInStep ?_ ?_ hdepends force
  · rw [← halike.findAll]
    exact Run.related_ofExcept (SameErrorOr.refl fun _ _ => .refl fun _ _ => .refl field _).with_eq
  · refine (halike.runModules rule.canonical.modules (hnested field rule hrule) .empty).imp ?_
    rintro results _ rfl found verdicts - -
    exact ⟨rfl, rfl⟩

/-- Two engines that are alike, with nested validation alike over the rules that the modules are
configured with, validate alike. -/
theorem validateBy {rules : Rules} (hnested : NestedAlike R rules.members nested nested')
    (force : Bool) :
    Run.Alike R (engine.validateBy nested rules force)
      (engine'.validateBy nested' rules force) :=
  validateBy_related halike.toInStep (fun _ _ hrule => halike.judge hnested hrule) force

end Alike

end Engine

end Vetting
