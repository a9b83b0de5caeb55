import Vetting.Rule.Basic

/-!
# The canonical form of a field rule

Every shape of a field rule comes down to one: a spec for each validator and a configuration for
each module, both in the order in which they take effect. A name without a spec expects true, and
a repeated name counts once, at its first place. A canonical rule is itself a field rule, and its
canonical form is itself (`canonical_toRule`).
-/

set_option autoImplicit false

namespace Vetting

/-- A field rule in canonical form. -/
structure CanonicalForm where
  validators : Fields Spec
  modules : Fields Configuration

namespace Validators

/-- Default specs for names; a repeated name keeps its first place. -/
def specsOfNames (names : List String) : Fields Spec :=
  Fields.ofPairs (names.map fun name => (name, Spec.ofExpected true))

/-- The specs that a set of validators stands for. -/
def toSpecs : Validators → Fields Spec
  | .name only => specsOfNames [only]
  | .list names => specsOfNames names
  | .specs entries => entries

end Validators

namespace Rule

/-- The canonical form of a field rule. -/
def canonical : Rule → CanonicalForm
  | .bare validators => ⟨validators.toSpecs, []⟩
  | .descriptor d => ⟨d.validators.toSpecs, d.modules⟩

end Rule

namespace CanonicalForm

/-- Whether a rule says nothing. -/
def isEmpty (rule : CanonicalForm) : Bool :=
  rule.validators.isEmpty && rule.modules.isEmpty

/-- A canonical rule as a field rule. -/
def toRule (rule : CanonicalForm) : Rule :=
  .descriptor ⟨.specs rule.validators, rule.modules⟩

/-- A canonical rule is its own canonical form. -/
@[simp] theorem canonical_toRule (rule : CanonicalForm) :
    rule.toRule.canonical = rule := rfl

end CanonicalForm

end Vetting
