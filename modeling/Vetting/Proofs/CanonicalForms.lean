import Vetting.Proofs.RelatedEvaluations
import Vetting.Proofs.RuleShapes

/-!
# Rules with one canonical form

An author may write a rule in any shape. Validators mean the same on their own and as the only
member of a descriptor, and a list of names means the options true for each name that it has, at
the first place of the name (`Validators.specsOfNames_eq`). A run looks at the canonical form of a
rule only, wherever the rule is looked up: two rule maps with the same names and the same canonical
forms are validated alike, with one result, one record and one state of the caller
(`Engine.validate_sameForms`). In particular any rule may be written in its canonical form
(`Engine.validate_anyShape`).
-/

set_option autoImplicit false

namespace Vetting

/-! ## Shapes with one canonical form -/

/-- The descriptor that declares validators and configures nothing. -/
def Value.asDescriptor (v : Value) : Value := .object [(validatorsMember, v)]

/-- The options true under each name of a list, at its first place. -/
def Value.allTrue (names : List String) : Value :=
  .object (names.eraseDups.map fun name => (name, .bool true))

/-- A rule that is no descriptor can be read exactly when the descriptor of its validators can. -/
theorem Rule.exists_asDescriptor_iff {field : String} {v : Value} (h : v.isDescriptor = false) :
    (∃ rule, Rule.ofValue field v = .ok rule) ↔
      ∃ rule, Rule.ofValue field v.asDescriptor = .ok rule := by
  have hdeclared : v.asDescriptor.declared = v := rfl
  rw [Rule.exists_ofValue_iff, Rule.exists_ofValue_iff, Value.declared_of_bare h, hdeclared]

/-- A rule that is no descriptor has the canonical form of the descriptor of its validators. -/
theorem Rule.canonical_asDescriptor {field : String} {v : Value} (h : v.isDescriptor = false)
    {rule described : Rule} (hrule : Rule.ofValue field v = .ok rule)
    (hdescribed : Rule.ofValue field v.asDescriptor = .ok described) :
    rule.canonical = described.canonical := by
  obtain ⟨validators, hread, hcanonical⟩ := Rule.canonical_ofValue hrule
  obtain ⟨validators', hread', hcanonical'⟩ := Rule.canonical_ofValue hdescribed
  have hdeclared : v.asDescriptor.declared = v := rfl
  have hconfigured : v.asDescriptor.configured = [] := rfl
  rw [Value.declared_of_bare h] at hread
  rw [hdeclared, hread, Except.ok.injEq] at hread'
  rw [hcanonical, hcanonical', hread', Value.configured_of_bare h, hconfigured]

/-- Writing a value under a name, where all names have this value, only adds the name if it is
new. -/
theorem Fields.put_same {α : Type} (x : α) (names : List String) (name : String) :
    Fields.put (names.map fun name => (name, x)) name x =
      (if name ∈ names then names else names ++ [name]).map fun name => (name, x) := by
  induction names with
  | nil => rfl
  | cons first rest ih =>
    rw [List.map_cons, Fields.put]
    by_cases hfirst : first = name
    · rw [if_pos hfirst, if_pos (List.mem_cons.2 (Or.inl hfirst.symm)), List.map_cons]
    · rw [if_neg hfirst, ih]
      by_cases hrest : name ∈ rest
      · rw [if_pos hrest, if_pos (List.mem_cons_of_mem _ hrest), List.map_cons]
      · have hnew : name ∉ first :: rest := by
          rw [List.mem_cons, not_or]
          exact ⟨Ne.symm hfirst, hrest⟩
        rw [if_neg hrest, if_neg hnew, List.cons_append, List.map_cons]

/-- Merging names into names, all with one value, appends the new ones, each once. -/
theorem Fields.merge_same {α : Type} (x : α) (seen names : List String) :
    Fields.merge (seen.map fun name => (name, x)) (names.map fun name => (name, x)) =
      (seen ++ (names.filter fun name => !seen.contains name).eraseDups).map
        fun name => (name, x) := by
  induction names generalizing seen with
  | nil => simp [Fields.merge]
  | cons name rest ih =>
    have hstep : Fields.merge (seen.map fun name => (name, x))
        ((name :: rest).map fun name => (name, x)) =
          Fields.merge (Fields.put (seen.map fun name => (name, x)) name x)
            (rest.map fun name => (name, x)) := rfl
    rw [hstep, Fields.put_same, ih]
    by_cases hseen : name ∈ seen
    · simp [hseen]
    · have hfilter : (rest.filter fun other => !(seen ++ [name]).contains other) =
          (rest.filter fun other => !seen.contains other).filter fun other => !other == name := by
        rw [List.filter_filter]
        refine List.filter_congr fun other _ => ?_
        by_cases hother : other = name <;> simp [hother]
      rw [if_neg hseen, hfilter, List.filter_cons_of_pos (by simpa using hseen),
        List.eraseDups_cons, List.append_assoc, List.singleton_append]

/-- The specs that a list of names stands for: the result true for each name, at its first
place. -/
theorem Validators.specsOfNames_eq (names : List String) :
    Validators.specsOfNames names =
      names.eraseDups.map fun name => (name, Spec.ofExpected true) := by
  have hall : (names.filter fun name => !([] : List String).contains name) = names :=
    List.filter_eq_self.2 fun _ _ => rfl
  have hmerge := Fields.merge_same (Spec.ofExpected true) [] names
  rw [hall, List.nil_append] at hmerge
  exact hmerge

/-- A list of texts is read as the names that it holds. -/
theorem Validators.namesOfItems_strings (field : String) (names : List String) :
    Validators.namesOfItems field (names.map .string) = .ok names := by
  induction names with
  | nil => rfl
  | cons name rest ih =>
    rw [List.map_cons, Validators.namesOfItems, ih]
    rfl

/-- An object of names that are all true is read as validators that are expected to pass, each name
once. -/
theorem Validators.ofValue_allTrue (field : String) (names : List String) :
    Validators.ofValue field (Value.allTrue names) =
      .ok (.specs (names.eraseDups.map fun name => (name, Spec.ofExpected true))) := by
  have hread : Spec.mapOfFields field (names.eraseDups.map fun name => (name, .bool true)) =
      .ok (names.eraseDups.map fun name => (name, Spec.ofExpected true)) := by
    refine Fields.mapMembers_eq_ok_iff.2 ?_
    rw [List.forall₂_map_left_iff, List.forall₂_map_right_iff, List.forall₂_same]
    exact fun name _ => ⟨rfl, rfl⟩
  rw [Value.allTrue, Validators.ofValue, hread]
  rfl

/-- An object of names that are all true is no descriptor, unless a name is that of the member for
validators. -/
theorem Value.isDescriptor_allTrue {names : List String} (h : validatorsMember ∉ names) :
    (Value.allTrue names).isDescriptor = false := by
  refine Bool.eq_false_iff.2 fun hhas => h ?_
  have hkeys := (Fields.get?_isSome_iff _ _).1 hhas
  rw [Fields.keys, List.map_map] at hkeys
  simpa using hkeys

/-- A list of names has the canonical form of the options true under each of them. -/
theorem Rule.canonical_names (field : String) (names : List String) :
    ∃ listed mapped, Rule.ofValue field (.array (names.map .string)) = .ok listed ∧
      Rule.ofValue field (Value.allTrue names).asDescriptor = .ok mapped ∧
      listed.canonical = mapped.canonical ∧
      listed.canonical = ⟨names.eraseDups.map fun name => (name, Spec.ofExpected true), []⟩ := by
  have hcanonical : (Rule.bare (.list names)).canonical =
      ⟨names.eraseDups.map fun name => (name, Spec.ofExpected true), []⟩ := by
    rw [Rule.canonical, Validators.toSpecs, Validators.specsOfNames_eq]
  refine ⟨.bare (.list names),
    .descriptor ⟨.specs (names.eraseDups.map fun name => (name, Spec.ofExpected true)), []⟩,
    ?_, ?_, hcanonical, hcanonical⟩
  · rw [Rule.ofValue, Validators.namesOfItems_strings]
    rfl
  · have hdeclared : (Value.allTrue names).asDescriptor.declared = Value.allTrue names := rfl
    rw [Rule.ofValue_descriptor field rfl, hdeclared, Validators.ofValue_allTrue]
    rfl

/-! ## A run looks at canonical forms -/

/-- Two rule maps with the same names and, under each, rules with one canonical form. -/
abbrev SameForms : Fields Rule → Fields Rule → Prop :=
  Fields.Parallel fun _ rule rule' => rule.canonical = rule'.canonical

/-- The weight of a rule is that of its modules, which the canonical form keeps. -/
theorem Rule.weight_eq {rule rule' : Rule} (h : rule.canonical = rule'.canonical) :
    rule.weight = rule'.weight := by
  have hweight : ∀ rule : Rule,
      rule.weight = 1 + Configuration.totalWeight rule.canonical.modules := by
    intro rule
    rcases rule with validators | ⟨validators, modules⟩
    · rfl
    · rw [Rule.weight, Descriptor.weight]
      rfl
  rw [hweight, hweight, h]

/-- Rule maps with the same canonical forms have one weight. -/
theorem SameForms.totalWeight_eq {rules rules' : Fields Rule} (h : SameForms rules rules') :
    Rule.totalWeight rules = Rule.totalWeight rules' := by
  induction h with
  | nil => rfl
  | @cons entry entry' rest rest' hentry _ ih =>
    rw [show Rule.totalWeight (entry :: rest) = entry.2.weight + Rule.totalWeight rest from rfl,
      show Rule.totalWeight (entry' :: rest') = entry'.2.weight + Rule.totalWeight rest' from rfl,
      Rule.weight_eq hentry.2, ih]

/-- The rules of the chosen fields in canonical form, and all others as they are. -/
def restated (chosen : String → Bool) (rules : Fields Rule) : Fields Rule :=
  rules.map fun entry =>
    (entry.1, if chosen entry.1 then entry.2.canonical.toRule else entry.2)

/-- Restating some of the rules leaves the canonical form of every field. -/
theorem restated_sameForms (chosen : String → Bool) (rules : Fields Rule) :
    SameForms (restated chosen rules) rules := by
  refine List.forall₂_map_left_iff.2 (List.forall₂_same.2 fun entry _ => ⟨rfl, ?_⟩)
  dsimp only
  split
  · exact entry.2.canonical.canonical_toRule
  · rfl

namespace Engine

variable {σ : Type} {engine : Engine σ} {nested : NestedValidation σ} {rules rules' : Fields Rule}

/-- Field rules with the same canonical forms are carried out alike. -/
theorem validateFields_sameForms (h : SameForms rules rules') (force : Bool) :
    engine.validateFields nested rules force = engine.validateFields nested rules' force := by
  refine (validateFields_related (G := Eq) ⟨rfl, fun _ _ _ => congrArg _⟩ ?_ .eq ?_ (.eq _)
    force).eq
  · rintro d r _ rfl
    rfl
  · exact h.imp fun _ _ hentry => ⟨hentry.1, judgeRelated_of_canonical hentry.2⟩

/-- Rule maps with the same canonical forms are validated alike. -/
theorem validate_sameForms (h : SameForms rules rules') (force : Bool) :
    engine.validate (.fields rules) force = engine.validate (.fields rules') force := by
  have hweight : (Rules.fields rules).weight = (Rules.fields rules').weight := by
    rw [Rules.weight, Rules.weight, h.totalWeight_eq]
  rw [validate, validate, hweight]
  exact validateFields_sameForms h force

/-- All shapes of a rule mean the same. Validators can be read on their own exactly when they can
as a descriptor, to the same canonical form; a list of names has the canonical form of the options
true under each name, at its first place; and validation does not tell a rule from its canonical
form: the results are the same, and so are the records and what the callers keep. -/
theorem validate_anyShape (engine : Engine σ) :
    (∀ (field : String) (v : Value), v.isDescriptor = false →
      ((∃ rule, Rule.ofValue field v = .ok rule) ↔
        ∃ rule, Rule.ofValue field v.asDescriptor = .ok rule) ∧
      ∀ rule described, Rule.ofValue field v = .ok rule →
        Rule.ofValue field v.asDescriptor = .ok described →
          rule.canonical = described.canonical) ∧
    (∀ (field : String) (names : List String), ∃ listed mapped,
      Rule.ofValue field (.array (names.map .string)) = .ok listed ∧
      Rule.ofValue field (Value.allTrue names).asDescriptor = .ok mapped ∧
      listed.canonical = mapped.canonical ∧
      listed.canonical = ⟨names.eraseDups.map fun name => (name, Spec.ofExpected true), []⟩ ∧
      (validatorsMember ∉ names → ∃ bare, Rule.ofValue field (Value.allTrue names) = .ok bare ∧
        listed.canonical = bare.canonical)) ∧
    ∀ (rules : Fields Rule) (chosen : String → Bool) (force : Bool),
      engine.validate (.fields (restated chosen rules)) force =
        engine.validate (.fields rules) force := by
  refine ⟨fun field v h => ⟨Rule.exists_asDescriptor_iff h, ?_⟩, fun field names => ?_, ?_⟩
  · exact fun rule described => Rule.canonical_asDescriptor h
  · obtain ⟨listed, mapped, hlisted, hmapped, hsame, hform⟩ := Rule.canonical_names field names
    refine ⟨listed, mapped, hlisted, hmapped, hsame, hform, fun hnames => ?_⟩
    have hbare := Value.isDescriptor_allTrue hnames
    obtain ⟨bare, hread⟩ := (Rule.exists_asDescriptor_iff hbare).2 ⟨mapped, hmapped⟩
    exact ⟨bare, hread, hsame.trans (Rule.canonical_asDescriptor hbare hread hmapped).symm⟩
  · exact fun rules chosen force => validate_sameForms (restated_sameForms chosen rules) force

/-- Three names, of which two are the same. -/
def mailNames : List String := ["email", "required", "email"]

/-- A list of two validators, the descriptor with that list and the object of both names give one
canonical form, and run alike. -/
theorem validate_anyShape_mail :
    (Value.array (mailNames.map .string)).isDescriptor = false ∧ validatorsMember ∉ mailNames ∧
      ∃ listed described bare,
        Rule.ofValue "mail" (.array (mailNames.map .string)) = .ok listed ∧
        Rule.ofValue "mail" (Value.array (mailNames.map .string)).asDescriptor = .ok described ∧
        Rule.ofValue "mail" (Value.allTrue mailNames) = .ok bare ∧
        listed.canonical = described.canonical ∧ listed.canonical = bare.canonical ∧
        (standard : Engine Unit).validate (.fields [("mail", listed.canonical.toRule)]) false =
          (standard : Engine Unit).validate (.fields [("mail", listed)]) false := by
  have hshape : (Value.array (mailNames.map .string)).isDescriptor = false := rfl
  have hnew : validatorsMember ∉ mailNames := by decide
  obtain ⟨hshapes, hnames, hruns⟩ := validate_anyShape (standard : Engine Unit)
  obtain ⟨hreadable, hcanonical⟩ := hshapes "mail" _ hshape
  obtain ⟨listed, -, hlisted, -, -, -, hbare⟩ := hnames "mail" mailNames
  obtain ⟨described, hdescribed⟩ := hreadable.1 ⟨listed, hlisted⟩
  obtain ⟨bare, hread, hform⟩ := hbare hnew
  exact ⟨hshape, hnew, listed, described, bare, hlisted, hdescribed, hread,
    hcanonical listed described hlisted hdescribed, hform,
    hruns [("mail", listed)] (fun _ => true) false⟩

end Engine

end Vetting
