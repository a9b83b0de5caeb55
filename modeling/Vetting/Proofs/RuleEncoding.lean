import Vetting.Proofs.RulesFromData

/-!
# Writing rules as data

A canonical rule without functions can be written as data again, in one form: a descriptor with the
options of every validator spelled out. `CanonicalForm.toValue` writes it, and leaves out whatever
is a function. What is written is read as the rule that it was written from (`ofValue_toValue`), and
any rule that is read from data has a canonical form that can be written (`Rule.isData_ofValue`), so
that writing and reading it once more changes nothing (`Rule.canonical_ofValue_toValue`).

A plain value that has the form of a dependency is the one thing besides functions that cannot be
written: it would be read as the dependency (`Value.dependency?`).
-/

set_option autoImplicit false

namespace Vetting

/-! ## The data of a rule -/

/-- The field that a value names as a dependency: the text under `dependsField` in an object. -/
def Value.dependency? : Value → Option String
  | .object members =>
    match Fields.get? members "dependsField" with
    | some (.string field) => some field
    | _ => none
  | _ => none

/-- A member that an object has only if it has a value for it. -/
def Fields.optional {α : Type} (name : String) (v : Option α) : Fields α :=
  v.toList.map fun v => (name, v)

/-- The data of a parameter. -/
def Param.toValue? : Param → Option Value
  | .literal v => some v
  | .dependsOn field => some (.object [("dependsField", .string field)])
  | .computed _ => none
  | .predicate _ => none

/-- The data of a message. -/
def Message.toValue? : Message → Option Value
  | .text s => some (.string s)
  | .computed _ => none

/-- The data of an expected result. -/
def Expectation.toValue? : Expectation → Option Value
  | .literal b => some (.bool b)
  | .computed _ => none

/-- The options of a spec: its parameters as a list, and the message and the expected result if it
sets them. -/
def Spec.toValue (spec : Spec) : Value :=
  .object (("values", .array (spec.values.filterMap Param.toValue?)) ::
    (Fields.optional "message" (spec.message.bind Message.toValue?) ++
      Fields.optional "expectedResult" (spec.expected.bind Expectation.toValue?)))

/-- The configurations of modules as members of an object. -/
def Configuration.toMembers (modules : Fields Configuration) : Fields Value :=
  modules.filterMap fun entry => entry.2.value?.map fun v => (entry.1, v)

/-- A canonical rule as a descriptor. -/
def CanonicalForm.toValue (rule : CanonicalForm) : Value :=
  .object ((validatorsMember, .object (rule.validators.mapValues Spec.toValue)) ::
    Configuration.toMembers rule.modules)

/-- A parameter that can be written: a plain value that is not taken for a dependency, or a
dependency. Plain values are as a reader makes them, so no object has a name twice. -/
inductive Param.IsData : Param → Prop
  | literal {v : Value} (hnames : v.distinctNames = true) (h : v.dependency? = none) :
      IsData (.literal v)
  | dependsOn (field : String) : IsData (.dependsOn field)

/-- A spec that can be written. -/
structure Spec.IsData (spec : Spec) : Prop where
  values : ∀ param ∈ spec.values, param.IsData
  message : ∀ hook, spec.message ≠ some (.computed hook)
  expected : ∀ hook, spec.expected ≠ some (.computed hook)

/-- A canonical rule that can be written: every spec can, and every module is configured with a
plain value and is not called like the member for the validators. -/
structure CanonicalForm.IsData (rule : CanonicalForm) : Prop where
  validators : rule.validators.Distinct
  specs : ∀ name spec, (name, spec) ∈ rule.validators → spec.IsData
  modules : rule.modules.Distinct
  configs : ∀ name config, (name, config) ∈ rule.modules →
    name ≠ validatorsMember ∧ ∃ v : Value, v.distinctNames = true ∧ config = .value v

/-! ## What is written is read as it was -/

/-- A parameter is read as the field that it depends on, or as a literal. -/
theorem Param.ofValue_eq (v : Value) :
    Param.ofValue v = (v.dependency?.map Param.dependsOn).getD (.literal v) := by
  cases v with
  | object members =>
    rw [Param.ofValue, Value.dependency?]
    cases Fields.get? members "dependsField" with
    | none => rfl
    | some w => cases w <;> rfl
  | _ => rfl

/-- A parameter that is data is written as data that read as it again. -/
theorem Param.IsData.ofValue_toValue {param : Param} (h : param.IsData) :
    ∃ v, param.toValue? = some v ∧ v.distinctNames = true ∧ Param.ofValue v = param := by
  cases h with
  | literal hnames h => exact ⟨_, rfl, hnames, by rw [Param.ofValue_eq, h]; rfl⟩
  | dependsOn field => exact ⟨_, rfl, rfl, rfl⟩

/-- Parameters that are data are written as data that read as them again, in order. -/
theorem Param.map_ofValue_toValue {params : List Param} (h : ∀ param ∈ params, param.IsData) :
    (params.filterMap Param.toValue?).map Param.ofValue = params := by
  induction params with
  | nil => rfl
  | cons param rest ih =>
    rw [List.forall_mem_cons] at h
    obtain ⟨v, hv, -, hread⟩ := h.1.ofValue_toValue
    rw [List.filterMap_cons, hv, List.map_cons, hread, ih h.2]

/-- What is asked of a validator, if it is data, is written as data that read as it again. -/
theorem Spec.IsData.ofValue_toValue {spec : Spec} (h : spec.IsData) (field : String) :
    Spec.ofValue field spec.toValue = .ok spec := by
  obtain ⟨values, message, expected⟩ := spec
  have hvalues := Param.map_ofValue_toValue h.values
  rcases message with _ | ⟨s⟩ | ⟨hook⟩
  · rcases expected with _ | ⟨b⟩ | ⟨hook⟩
    · show Except.ok (Spec.mk (List.map Param.ofValue _) none none) = _
      rw [hvalues]
    · show Except.ok (Spec.mk (List.map Param.ofValue _) none (some (.literal b))) = _
      rw [hvalues]
    · exact absurd rfl (h.expected hook)
  · rcases expected with _ | ⟨b⟩ | ⟨hook⟩
    · show Except.ok (Spec.mk (List.map Param.ofValue _) (some (.text s)) none) = _
      rw [hvalues]
    · show Except.ok (Spec.mk (List.map Param.ofValue _) (some (.text s)) (some (.literal b))) = _
      rw [hvalues]
    · exact absurd rfl (h.expected hook)
  · exact absurd rfl (h.message hook)

/-- The validators of a field, if they are data, are written as data that read as them again, by
name. -/
theorem Spec.mapOfFields_toValue {specs : Fields Spec}
    (h : ∀ name spec, (name, spec) ∈ specs → spec.IsData) (field : String) :
    Spec.mapOfFields field (specs.mapValues Spec.toValue) = .ok specs := by
  refine Fields.mapMembers_eq_ok_iff.2 ?_
  induction specs with
  | nil => exact .nil
  | cons entry rest ih =>
    obtain ⟨name, spec⟩ := entry
    refine .cons ⟨rfl, (h name spec List.mem_cons_self).ofValue_toValue field⟩ ?_
    exact ih fun name spec hmem => h name spec (List.mem_cons_of_mem _ hmem)

/-- Configurations that are data are written as members that are taken as them again. -/
theorem Configuration.toMembers_eq {modules : Fields Configuration}
    (h : ∀ name config, (name, config) ∈ modules →
      name ≠ validatorsMember ∧ ∃ v : Value, v.distinctNames = true ∧ config = .value v) :
    (Configuration.toMembers modules).map (fun member => (member.1, Configuration.value member.2)) =
        modules ∧
      ∀ member ∈ Configuration.toMembers modules,
        member.1 ≠ validatorsMember ∧ member.2.distinctNames = true := by
  induction modules with
  | nil => exact ⟨rfl, fun _ hmem => (List.not_mem_nil hmem).elim⟩
  | cons entry rest ih =>
    obtain ⟨name, config⟩ := entry
    obtain ⟨hname, v, hnames, rfl⟩ := h name config List.mem_cons_self
    obtain ⟨hmap, hmembers⟩ := ih fun name config hmem =>
      h name config (List.mem_cons_of_mem _ hmem)
    exact ⟨congrArg _ hmap, List.forall_mem_cons.2 ⟨⟨hname, hnames⟩, hmembers⟩⟩

/-- A canonical form is written as data that configure the same modules. -/
theorem CanonicalForm.IsData.configured_toValue {rule : CanonicalForm} (h : rule.IsData) :
    rule.toValue.configured = rule.modules := by
  obtain ⟨hmap, hmembers⟩ := Configuration.toMembers_eq h.configs
  have hfilter : (Configuration.toMembers rule.modules).filter
      (fun member => member.1 != validatorsMember) = Configuration.toMembers rule.modules :=
    List.filter_eq_self.2 fun member hmem => bne_iff_ne.2 (hmembers member hmem).1
  show ((Configuration.toMembers rule.modules).filter
    (fun member => member.1 != validatorsMember)).map _ = rule.modules
  rw [hfilter, hmap]

/-- A canonical rule that can be written is read as it was written. -/
theorem CanonicalForm.IsData.ofValue_toValue {rule : CanonicalForm} (h : rule.IsData)
    (field : String) :
    Rule.ofValue field rule.toValue = .ok rule.toRule := by
  have hdeclared : rule.toValue.declared = .object (rule.validators.mapValues Spec.toValue) := rfl
  have hspecs := Spec.mapOfFields_toValue h.specs field
  rw [Rule.ofValue_descriptor field rfl, hdeclared, h.configured_toValue, Validators.ofValue,
    hspecs]
  rfl

/-! ## What is written has no name twice -/

/-- What is asked of a validator is written with distinct names. -/
theorem Spec.IsData.distinctNames_toValue {spec : Spec} (h : spec.IsData) :
    spec.toValue.distinctNames = true := by
  obtain ⟨values, message, expected⟩ := spec
  have hvalues : Value.itemsDistinctNames (values.filterMap Param.toValue?) = true := by
    refine Value.itemsDistinctNames_iff.2 fun item hitem => ?_
    obtain ⟨param, hparam, hvalue⟩ := List.mem_filterMap.1 hitem
    obtain ⟨v, hv, hnames, -⟩ := (h.values param hparam).ofValue_toValue
    rw [hvalue, Option.some.injEq] at hv
    rwa [hv]
  rcases message with _ | ⟨s⟩ | ⟨hook⟩ <;> rcases expected with _ | ⟨b⟩ | ⟨hook⟩ <;>
    simp [Spec.toValue, Fields.optional, Message.toValue?, Expectation.toValue?,
      Value.distinctNames, Value.membersDistinctNames, Fields.Distinct, Fields.keys, hvalues]

/-- A canonical form is written with distinct names. -/
theorem CanonicalForm.IsData.distinctNames_toValue {rule : CanonicalForm} (h : rule.IsData) :
    rule.toValue.distinctNames = true := by
  obtain ⟨hmap, hmembers⟩ := Configuration.toMembers_eq h.configs
  have hkeys : Fields.keys (Configuration.toMembers rule.modules) = rule.modules.keys := by
    conv_rhs => rw [← hmap]
    rw [Fields.keys, Fields.keys, List.map_map]
    rfl
  have hnames : Fields.keys (rule.validators.mapValues Spec.toValue) = rule.validators.keys := by
    rw [Fields.keys, Fields.mapValues, List.map_map]
    rfl
  have hspecs : (Value.object (rule.validators.mapValues Spec.toValue)).distinctNames = true := by
    rw [Value.distinctNames, Bool.and_eq_true, decide_eq_true_eq, Value.membersDistinctNames_iff]
    refine ⟨?_, fun entry hentry => ?_⟩
    · rw [Fields.Distinct, hnames]
      exact h.validators
    · obtain ⟨⟨name, spec⟩, hspec, rfl⟩ := List.mem_map.1 hentry
      exact (h.specs name spec hspec).distinctNames_toValue
  rw [CanonicalForm.toValue, Value.distinctNames, Bool.and_eq_true, decide_eq_true_eq,
    Value.membersDistinctNames_iff]
  constructor
  · refine List.nodup_cons.2 ⟨fun hmem => ?_, ?_⟩
    · obtain ⟨member, hmember, hname⟩ := List.mem_map.1 hmem
      exact (hmembers member hmember).1 hname
    · have hmodules : (Fields.keys (Configuration.toMembers rule.modules)).Nodup := by
        rw [hkeys]
        exact h.modules
      exact hmodules
  · exact List.forall_mem_cons.2 ⟨hspecs, fun member hmember => (hmembers member hmember).2⟩

/-! ## What is read can be written -/

/-- A parameter that is read from data is data. -/
theorem Param.isData_ofValue {v : Value} (hnames : v.distinctNames = true) :
    (Param.ofValue v).IsData := by
  rw [Param.ofValue_eq]
  cases h : v.dependency? with
  | none => exact .literal hnames h
  | some field => exact .dependsOn field

/-- Parameters in a list that is read from data are data. -/
theorem Param.isData_listOfValue {v : Value} (hnames : v.distinctNames = true) :
    ∀ param ∈ Param.listOfValue v, param.IsData := by
  unfold Param.listOfValue
  split
  · next items =>
    intro param hparam
    obtain ⟨item, hitem, rfl⟩ := List.mem_map.1 hparam
    exact Param.isData_ofValue (Value.itemsDistinctNames_iff.1 hnames item hitem)
  · exact List.forall_mem_singleton.2 (Param.isData_ofValue hnames)

/-- The members of data with distinct names have distinct names. -/
theorem Value.distinctNames_member {members : Fields Value}
    (hnames : (Value.object members).distinctNames = true) {name : String} {v : Value}
    (hmem : (name, v) ∈ members) : v.distinctNames = true := by
  rw [Value.distinctNames, Bool.and_eq_true] at hnames
  exact Value.distinctNames_of_mem hnames.2 hmem

/-- What is asked of a validator in data is data. -/
theorem Spec.isData_ofValue {field : String} {v : Value} {spec : Spec}
    (hnames : v.distinctNames = true) (h : Spec.ofValue field v = .ok spec) : spec.IsData := by
  obtain ⟨hvalues, hmessage, hexpected⟩ := Spec.parts_ofValue h
  refine ⟨?_, hmessage, hexpected⟩
  rcases hvalues with hnone | ⟨w, hlist, rfl | ⟨options, rfl, hmem⟩⟩
  · rw [hnone]
    exact fun _ hmem => (List.not_mem_nil hmem).elim
  · rw [hlist]
    exact Param.isData_listOfValue hnames
  · rw [hlist]
    exact Param.isData_listOfValue (Value.distinctNames_member hnames hmem)

/-- Validators that are read from data with distinct names have distinct names. -/
theorem Validators.distinct_ofValue {field : String} {v : Value} {validators : Validators}
    (hnames : v.distinctNames = true) (h : Validators.ofValue field v = .ok validators) :
    validators.toSpecs.Distinct := by
  unfold Validators.ofValue at h
  split at h
  · cases h
    exact Fields.distinct_ofPairs _
  · obtain ⟨names, -, rfl⟩ := except_map_eq_ok.1 h
    exact Fields.distinct_ofPairs _
  · next members =>
    obtain ⟨specs, hread, rfl⟩ := except_map_eq_ok.1 h
    rw [Value.distinctNames, Bool.and_eq_true, decide_eq_true_eq] at hnames
    have hkeys : specs.keys = Fields.keys members := Fields.keys_mapMembers hread
    show specs.keys.Nodup
    rw [hkeys]
    exact hnames.1
  · cases h
    exact List.nodup_nil
  · cases h

/-- The part of a rule that declares validators has distinct names if the rule has. -/
theorem Value.distinctNames_declared {v : Value} (hnames : v.distinctNames = true) :
    v.declared.distinctNames = true := by
  cases hshape : v.isDescriptor with
  | false => rwa [Value.declared_of_bare hshape]
  | true =>
    obtain ⟨members, w, rfl, hget⟩ := Value.isDescriptor_iff.1 hshape
    rw [Value.declared, hget, Option.getD_some]
    exact Value.distinctNames_member hnames (Fields.mem_of_get? hget)

/-- The modules of a rule that is read are configured with the members of a descriptor but its
validators. -/
theorem Value.configured_isData {v : Value} (hnames : v.distinctNames = true) :
    v.configured.Distinct ∧ ∀ name config, (name, config) ∈ v.configured →
      name ≠ validatorsMember ∧ ∃ w : Value, w.distinctNames = true ∧ config = .value w := by
  cases hshape : v.isDescriptor with
  | false =>
    rw [Value.configured_of_bare hshape]
    exact ⟨List.nodup_nil, fun _ _ hmem => (List.not_mem_nil hmem).elim⟩
  | true =>
    obtain ⟨members, -, rfl, -⟩ := Value.isDescriptor_iff.1 hshape
    have hhas : Fields.has members validatorsMember = true := hshape
    rw [Value.configured, if_pos hhas]
    constructor
    · rw [Value.distinctNames, Bool.and_eq_true, decide_eq_true_eq] at hnames
      rw [Fields.Distinct, Fields.keys, List.map_map]
      exact hnames.1.sublist (List.filter_sublist.map _)
    · intro name config hmem
      obtain ⟨member, hmember, heq⟩ := List.mem_map.1 hmem
      obtain ⟨hmember, hname⟩ := List.mem_filter.1 hmember
      cases heq
      exact ⟨bne_iff_ne.1 hname, member.2, Value.distinctNames_member hnames hmember, rfl⟩

/-- The canonical form of a rule that is read from data can be written. -/
theorem Rule.isData_ofValue {field : String} {v : Value} {rule : Rule}
    (hnames : v.distinctNames = true) (h : Rule.ofValue field v = .ok rule) :
    rule.canonical.IsData := by
  obtain ⟨validators, hread, hcanonical⟩ := Rule.canonical_ofValue h
  have hdeclared := Value.distinctNames_declared hnames
  obtain ⟨hmodules, hconfigs⟩ := Value.configured_isData hnames
  rw [hcanonical]
  refine ⟨Validators.distinct_ofValue hdeclared hread, ?_, hmodules, hconfigs⟩
  intro name spec hspec
  obtain ⟨options, hoptions, rfl | ⟨members, heq, hmem⟩⟩ := Validators.mem_ofValue hread hspec
  · exact Spec.isData_ofValue rfl hoptions
  · rw [heq] at hdeclared
    exact Spec.isData_ofValue (Value.distinctNames_member hdeclared hmem) hoptions

/-- A canonical rule that holds no function is written as data without a repeated name, and these
data are read, for any field, as a rule with that canonical form. The canonical form of a rule that
is read from data holds no function, so that it is what its own data are read as. -/
theorem Rule.canonical_ofValue_toValue :
    (∀ (rule : CanonicalForm) (field : String), rule.IsData →
      rule.toValue.distinctNames = true ∧
        ∃ read, Rule.ofValue field rule.toValue = .ok read ∧ read.canonical = rule) ∧
    ∀ (v : Value) (field : String) (rule : Rule), v.distinctNames = true →
      Rule.ofValue field v = .ok rule →
        rule.canonical.IsData ∧
          ∃ read, Rule.ofValue field rule.canonical.toValue = .ok read ∧
            read.canonical = rule.canonical := by
  refine ⟨fun rule field h => ⟨h.distinctNames_toValue, ?_⟩, fun v field rule hnames hread => ?_⟩
  · exact ⟨rule.toRule, h.ofValue_toValue field, rfl⟩
  · have hdata := Rule.isData_ofValue hnames hread
    exact ⟨hdata, rule.canonical.toRule, hdata.ofValue_toValue field, rfl⟩

/-- A descriptor with a dependency, a bare payload that only looks like one, a message and an
expected result, given in shorthand. -/
def confirmData : Value :=
  .object
    [("trimValue", .bool true),
     (validatorsMember, .object
       [("equalsTo", .object [("values", .object [("dependsField", .string "password")]),
          ("message", .string "Repeat it.")]),
        ("equalsToOneOf", .array [.object [("dependsField", .ofInt 1)], .null]),
        ("empty", .bool false)]),
     ("title", .object [("text", .string "Confirmation")])]

/-- The rule that `confirmData` is read as. -/
def confirmRule : Rule :=
  .descriptor
    ⟨.specs
      [("equalsTo", ⟨[.dependsOn "password"], some (.text "Repeat it."), none⟩),
       ("equalsToOneOf",
         .ofValues [.literal (.object [("dependsField", .ofInt 1)]), .literal .null]),
       ("empty", .ofExpected false)],
     [("trimValue", .value (.bool true)),
      ("title", .value (.object [("text", .string "Confirmation")]))]⟩

/-- The rule of a field that repeats a password is read from its data, written in canonical form and
read again, and keeps that form. -/
theorem Rule.canonical_ofValue_toValue_confirm :
    confirmData.distinctNames = true ∧ Rule.ofValue "confirm" confirmData = .ok confirmRule ∧
      confirmRule.canonical.IsData ∧ confirmRule.canonical.toValue.distinctNames = true ∧
      ∃ read, Rule.ofValue "confirm" confirmRule.canonical.toValue = .ok read ∧
        read.canonical = confirmRule.canonical := by
  have hnames : confirmData.distinctNames = true := by decide
  have hread : Rule.ofValue "confirm" confirmData = .ok confirmRule := rfl
  obtain ⟨hwritten, hreads⟩ := Rule.canonical_ofValue_toValue
  obtain ⟨hdata, -⟩ := hreads confirmData "confirm" confirmRule hnames hread
  exact ⟨hnames, hread, hdata, hwritten confirmRule.canonical "confirm" hdata⟩

end Vetting
