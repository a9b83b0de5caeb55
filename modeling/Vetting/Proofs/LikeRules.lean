import Vetting.Proofs.LikeValidators
import Vetting.Proofs.MapsInOrder
import Vetting.Proofs.NestedRules
import Vetting.Proofs.RelatedRuns

/-!
# Rules that are written alike

Two rule maps are like under a likeness of values if they are written in the same order and differ
in plain values that are like at most, at every depth: also the rules for a nested record that are
read from plain data are like, or reading them meets the same error. A function stands in the place
of itself and does not tell like things apart. Like rules are equal (`Rules.Like.same`), but equal
rules need not be like: equality looks at no order, and takes the two zeros for one number.
-/

set_option autoImplicit false

namespace Vetting

/-- Two sets of validators are like: of one shape, with like specs for the same names in the same
order. -/
inductive Validators.Like (E : Value.Likeness) : Validators → Validators → Prop where
  | name (name : String) : Like E (.name name) (.name name)
  | list (names : List String) : Like E (.list names) (.list names)
  | specs {specs specs' : Fields Spec} (h : Fields.Paired (fun _ => Spec.Like E) specs specs') :
      Like E (.specs specs) (.specs specs')

mutual

/-- Two configurations of a module of a field are like: plain values that are, with like rules for a
nested record to be read from them; like rules; or one function that does not tell like records
apart. -/
inductive Configuration.Like (E : Value.Likeness) :
    String → String → Configuration → Configuration → Prop where
  | value {field name : String} {v v' : Value} (h : E.rel v v')
      (nested : name = "objectValidator" → SameErrorOr (Rules.Like E)
        (Module.nestedRules field (.value v)) (Module.nestedRules field (.value v'))) :
      Configuration.Like E field name (.value v) (.value v')
  | rules {field name : String} {inner inner' : Rules} (h : Rules.Like E inner inner') :
      Configuration.Like E field name (.rules inner) (.rules inner')
  | function {field name : String} {hook : Hook (Record → Value)}
      (h : ∀ r r', E.Records r r' → E.rel (hook.run r) (hook.run r')) :
      Configuration.Like E field name (.function hook) (.function hook)

/-- Two rules of a field are like: of one shape, with like validators, and with like configurations
for the same modules in the same order. -/
inductive Rule.Like (E : Value.Likeness) : String → Rule → Rule → Prop where
  | bare {field : String} {validators validators' : Validators}
      (h : validators.Like E validators') :
      Rule.Like E field (.bare validators) (.bare validators')
  | descriptor {field : String} {descriptor descriptor' : Descriptor}
      (validators : descriptor.validators.Like E descriptor'.validators)
      (names : Fields.keys descriptor.modules = Fields.keys descriptor'.modules)
      (distinct : Fields.Distinct descriptor.modules)
      (each : ∀ name config config', Fields.get? descriptor.modules name = some config →
        Fields.get? descriptor'.modules name = some config' →
          Configuration.Like E field name config config') :
      Rule.Like E field (.descriptor descriptor) (.descriptor descriptor')

/-- Two rule maps are like: with like rules for the same fields in the same order, or with like
descriptors for the record as a whole. -/
inductive Rules.Like (E : Value.Likeness) : Rules → Rules → Prop where
  | fields {fields fields' : Fields Rule} (h : Fields.Paired (Rule.Like E) fields fields') :
      Rules.Like E (.fields fields) (.fields fields')
  | whole {descriptor descriptor' : Descriptor}
      (h : Rule.Like E wholeField (.descriptor descriptor) (.descriptor descriptor')) :
      Rules.Like E (.whole descriptor) (.whole descriptor')

end

section Parts

variable {E : Value.Likeness}

/-! ## What like rules come down to -/

/-- Names stand for the same specs on both sides. -/
theorem paired_specsOfNames (names : List String) :
    Fields.Paired (fun _ => Spec.Like E) (Validators.specsOfNames names)
      (Validators.specsOfNames names) := by
  refine .of_get? rfl (Fields.distinct_ofPairs _) fun name spec spec' hspec hspec' => ?_
  rw [hspec] at hspec'
  cases hspec'
  rcases Fields.mem_merge (Fields.mem_of_get? hspec) with hnil | hmem
  · cases hnil
  · obtain ⟨other, -, hentry⟩ := List.mem_map.1 hmem
    cases hentry
    exact .ofExpected true

/-- Like validators are given like specs, in order. -/
theorem Validators.Like.toSpecs {validators validators' : Validators}
    (h : validators.Like E validators') :
    Fields.Paired (fun _ => Spec.Like E) validators.toSpecs validators'.toSpecs := by
  cases h with
  | name name => exact paired_specsOfNames [name]
  | list names => exact paired_specsOfNames names
  | specs h => exact h

namespace Rule.Like

variable {field : String} {rule rule' : Rule}

/-- Like rules have like validators in their canonical forms. -/
theorem validators (h : rule.Like E field rule') :
    Fields.Paired (fun _ => Spec.Like E) rule.canonical.validators rule'.canonical.validators := by
  cases h with
  | bare h => exact h.toSpecs
  | descriptor h => exact h.toSpecs

/-- Like rules have like modules in their canonical forms. -/
theorem modules (h : rule.Like E field rule') :
    Fields.Paired (Configuration.Like E field) rule.canonical.modules rule'.canonical.modules := by
  cases h with
  | bare => exact .nil
  | descriptor _ names distinct each => exact .of_get? names distinct each

/-- Descriptors are like if their validators and their configurations are. -/
theorem of_modules {descriptor descriptor' : Descriptor}
    (hvalidators : descriptor.validators.Like E descriptor'.validators)
    (hmodules : Fields.Paired (Configuration.Like E field) descriptor.modules
      descriptor'.modules) :
    Rule.Like E field (.descriptor descriptor) (.descriptor descriptor') := by
  refine .descriptor hvalidators hmodules.keys_eq hmodules.distinct ?_
  intro name config config' h h'
  have hboth := hmodules.get? name
  rw [h, h'] at hboth
  cases hboth with
  | some hlike => exact hlike

end Rule.Like

/-- Like rules declare the same fields in one order, with like rules. -/
theorem Rules.Like.members {rules rules' : Rules} (h : rules.Like E rules') :
    Fields.Paired (Rule.Like E) rules.members rules'.members := by
  cases h with
  | fields h => exact h
  | whole h => exact .cons List.not_mem_nil h .nil

namespace Configuration.Like

variable {field name : String} {config config' : Configuration}

/-- Of like configurations both are enabled or none. -/
theorem isEnabled_eq (h : config.Like E field name config') :
    config.isEnabled = config'.isEnabled := by
  cases h with
  | value h => exact (E.unordered h).isTruthy_eq
  | rules => rfl
  | function => rfl

/-- Of like configurations both are the plain value true or none. -/
theorem isPlainTrue_eq (h : config.Like E field name config') :
    Module.isPlainTrue config = Module.isPlainTrue config' := by
  cases h with
  | value h => cases E.unordered h <;> rfl
  | rules => rfl
  | function => rfl

/-- Like configurations hold or describe like rules for nested records, or fail alike. -/
theorem nestedRules (h : config.Like E field "objectValidator" config') :
    SameErrorOr (Rules.Like E) (Module.nestedRules field config)
      (Module.nestedRules field config') := by
  cases h with
  | value _ nested => exact nested rfl
  | rules h => exact .ok h
  | function => exact .error _

end Configuration.Like

/-! ## Like rules are equal -/

/-- Like validators are the same. -/
theorem Validators.Like.same {validators validators' : Validators}
    (h : validators.Like E validators') : validators.same validators' = true := by
  cases h with
  | name name => exact beq_self_eq_true name
  | list names => exact beq_self_eq_true names
  | specs h => exact (h.mono fun _ _ _ _ h => h.same).same

/-- Like rules of a field are equal if the like configurations in them are. -/
theorem Rule.Like.same_of {field : String} {rule rule' : Rule} (h : rule.Like E field rule')
    (hconfig : ∀ name config config', (name, config) ∈ rule.canonical.modules →
      config.Like E field name config' → config.same config' = true) :
    rule.same rule' = true := by
  have hmodules := h.modules
  cases h with
  | bare h =>
    rw [Rule.same]
    exact h.same
  | @descriptor _ descriptor descriptor' hvalidators =>
    have hlength := hmodules.length_eq
    have hall : Configuration.sameAll descriptor.modules descriptor'.modules = true := by
      refine (hmodules.mono hconfig).sameAll (fun _ => by rw [Configuration.sameAll]) ?_
      intro name config config' rest configs hget hsame hrest
      simp only [Configuration.sameAll, hget, hsame, hrest, Bool.and_self]
    obtain ⟨validators, modules⟩ := descriptor
    simp only [Rule.same, Descriptor.same, hvalidators.same, hall, Bool.and_true, Bool.true_and]
    exact beq_iff_eq.2 hlength

/-- Like rules are equal, by induction on their weight. -/
theorem Rules.Like.same {rules rules' : Rules} (h : rules.Like E rules') :
    rules.same rules' = true := by
  induction hweight : rules.weight using Nat.strong_induction_on generalizing rules rules' with
  | _ n ih =>
    subst hweight
    have hrule : ∀ field rule rule', (field, rule) ∈ rules.members → rule.Like E field rule' →
        rule.same rule' = true := by
      intro field rule rule' hmem hlike
      refine hlike.same_of fun name config config' hconfig halike => ?_
      cases halike with
      | value h =>
        rw [Configuration.same]
        exact (E.unordered h).same
      | rules h =>
        rw [Configuration.same]
        exact ih _ (nestedRules_weight_lt hmem hconfig rfl) h rfl
      | function =>
        rw [Configuration.same]
        exact beq_self_eq_true _
    cases h with
    | @fields fields fields' h =>
      have hall : Rule.sameAll fields fields' = true := by
        refine (h.mono hrule).sameAll (fun _ => by rw [Rule.sameAll]) ?_
        intro field rule rule' rest rules hget hsame hrest
        simp only [Rule.sameAll, hget, hsame, hrest, Bool.and_self]
      rw [Rules.same, hall, Bool.and_true]
      exact beq_iff_eq.2 h.length_eq
    | whole h =>
      have hdescriptor := hrule wholeField _ _ (List.mem_singleton.2 rfl) h
      rwa [Rules.same, ← Rule.same]

end Parts

end Vetting
