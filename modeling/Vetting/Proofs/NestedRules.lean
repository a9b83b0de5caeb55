import Vetting.Proofs.Observers
import Vetting.Proofs.RuleDecoding

/-!
# Rules inside rules

Rules that a configuration holds, and rules that are read from its data while a run is under way,
are lighter than the rules that hold the configuration (`nestedRules_weight_lt`). The built-in
modules start nested runs over such rules only, so nested validation by lighter rules is all that
validation depends on (`validateBy_of_lighter`), and the limit on other nested runs never comes into
play: validation satisfies the equation of its own unbounded recursion (`validate_eq_validateBy`).
By induction on the weight of rules, engines that differ in their observers validate alike
(`Alike.validate`).
-/

set_option autoImplicit false

namespace Vetting

/-! ## A configuration is lighter than the rules that hold it -/

/-- A member of a list weighs no more than the list, whose weight is that of all its members. -/
theorem weight_le_total {α : Type} (weight : α → Nat) (total : List α → Nat)
    (hcons : ∀ a rest, total (a :: rest) = weight a + total rest) {as : List α} {a : α}
    (h : a ∈ as) : weight a ≤ total as := by
  induction as with
  | nil => cases h
  | cons first rest ih =>
    rw [hcons]
    rcases List.mem_cons.1 h with rfl | h
    · exact Nat.le_add_right _ _
    · have hle := ih h
      omega

/-- A configuration weighs no more than all of them. -/
theorem Configuration.weight_le_of_mem {configs : Fields Configuration}
    {entry : String × Configuration} (h : entry ∈ configs) :
    entry.2.weight ≤ Configuration.totalWeight configs :=
  weight_le_total (fun entry => entry.2.weight) _ (fun ⟨_, _⟩ _ => by rw [totalWeight]) h

/-- A rule weighs no more than all of them. -/
theorem Rule.weight_le_of_mem {rules : Fields Rule} {entry : String × Rule} (h : entry ∈ rules) :
    entry.2.weight ≤ Rule.totalWeight rules :=
  weight_le_total (fun entry => entry.2.weight) _ (fun ⟨_, _⟩ _ => by rw [totalWeight]) h

/-- A configuration weighs less than the rule that it belongs to. -/
theorem Rule.config_lt {rule : Rule} {entry : String × Configuration}
    (h : entry ∈ rule.canonical.modules) : entry.2.weight < rule.weight := by
  cases rule with
  | bare validators => cases h
  | descriptor descriptor =>
    obtain ⟨validators, modules⟩ := descriptor
    have hle : entry.2.weight ≤ Configuration.totalWeight modules :=
      Configuration.weight_le_of_mem h
    rw [Rule.weight, Descriptor.weight]
    omega

/-- A rule of a field weighs no more than the rules that declare it. -/
theorem Rules.rule_le {rules : Rules} {entry : String × Rule} (h : entry ∈ rules.members) :
    entry.2.weight ≤ rules.weight := by
  cases rules with
  | fields rules =>
    have hle : entry.2.weight ≤ Rule.totalWeight rules := Rule.weight_le_of_mem h
    rw [Rules.weight]
    omega
  | whole descriptor =>
    have heq : entry = (wholeField, .descriptor descriptor) := List.mem_singleton.1 h
    rw [heq, Rules.weight, Rule.weight]
    omega

/-- The rules for a nested record are lighter than the rules that configure it. -/
theorem nestedRules_weight_lt {rules inner : Rules} {field : String} {rule : Rule}
    {name : String} {config : Configuration} (hrule : (field, rule) ∈ rules.members)
    (hconfig : (name, config) ∈ rule.canonical.modules)
    (h : Module.nestedRules field config = .ok inner) : inner.weight < rules.weight := by
  have hle : inner.weight ≤ config.weight := nestedRules_weight_le h
  have hlt : config.weight < rule.weight := Rule.config_lt hconfig
  have hrules : rule.weight ≤ rules.weight := Rules.rule_le hrule
  omega

/-! ## The recursion of validation -/

namespace Engine

variable {σ σ' : Type} {R : σ → σ' → Prop} {engine : Engine σ} {engine' : Engine σ'}

/-- Validation by some rules with the built-in modules depends on nested validation by lighter
rules only. -/
theorem Alike.validateBy_of_lighter (halike : engine.Alike R engine') {rules : Rules}
    {nested : NestedValidation σ} {nested' : NestedValidation σ'}
    (h : ∀ inner force, inner.weight < rules.weight →
      Run.Alike R (nested inner force) (nested' inner force)) (force : Bool) :
    Run.Alike R (engine.validateBy nested rules force) (engine'.validateBy nested' rules force) :=
  halike.validateBy (fun _ _ hrule _ _ hconfig inner hinner =>
    h inner false (nestedRules_weight_lt hrule hconfig hinner)) force

/-- Lighter rules are validated within nested validation as they are on their own. -/
theorem nestedWithin_of_lt {rules : Rules} {bound : Nat} (h : rules.weight < bound)
    (force : Bool) :
    engine.nestedWithin engine.nestingLimit bound rules force = engine.validate rules force := by
  unfold validate
  cases engine.nestingLimit with
  | zero =>
    rw [nestedWithin, nestedWithin, nestedBelow, dif_pos h]
  | succ limit =>
    rw [nestedWithin, nestedWithin, nestedBelow, dif_pos h]

/-- With the built-in modules validation is its own nested validation: the limit on nested runs over
rules that are not lighter never comes into play. -/
theorem validate_eq_validateBy (hmodules : engine.modules = KnownModules.builtin) (rules : Rules)
    (force : Bool) :
    engine.validate rules force = engine.validateBy engine.validate rules force := by
  have hself : engine.Alike Eq engine :=
    ⟨⟨rfl, fun _ _ _ hcallers => congrArg _ hcallers⟩, rfl, hmodules, hmodules⟩
  rw [validate]
  refine Run.Related.eq (hself.validateBy_of_lighter (fun inner force hlt => ?_) force)
  rw [nestedWithin_of_lt hlt]
  exact .refl _

/-- Observers change nothing: two engines with the built-in modules, the same settings and the same
validators validate alike, whatever their callers keep. -/
theorem Alike.validate (halike : engine.Alike R engine') (rules : Rules) (force : Bool) :
    Run.Alike R (engine.validate rules force) (engine'.validate rules force) := by
  induction hweight : rules.weight using Nat.strong_induction_on generalizing rules force with
  | _ n ih =>
    subst hweight
    rw [validate_eq_validateBy halike.modules, validate_eq_validateBy halike.modules']
    exact halike.validateBy_of_lighter (fun inner force hlt => ih _ hlt inner force rfl) force

end Engine

end Vetting
