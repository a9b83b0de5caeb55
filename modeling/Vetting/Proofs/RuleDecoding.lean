import Vetting.Module.Builtin
import Vetting.Proofs.RuleShapes

/-!
# Reading rules from data

Three facts about rules that are read from data, each by one lemma for each kind of declaration.
They weigh no more than the data (`Rules.weight_ofValue_le`), so that rules found inside the
configuration of a module are lighter than the configuration. Data that cannot be read gives no
error but that of an invalid rule (`Rules.readable_ofValue`). And rules that are read from data
compute nothing from a record: their fields are the names in the data, and their specs are plain
(`Rules.plain_ofValue`).
-/

set_option autoImplicit false

namespace Vetting

/-! ## What is read from data weighs no more than the data -/

/-- Every value weighs something. -/
theorem Value.weight_pos (v : Value) : 0 < v.weight := by
  cases v with
  | array items =>
    rw [Value.weight]
    omega
  | object members =>
    rw [Value.weight]
    omega
  | _ => simp [Value.weight]

/-- Leaving out members takes weight away. -/
theorem Value.fieldsWeight_filter_le (keep : String × Value → Bool) (members : Fields Value) :
    Value.fieldsWeight (members.filter keep) ≤ Value.fieldsWeight members := by
  induction members with
  | nil => simp
  | cons entry rest ih =>
    obtain ⟨name, v⟩ := entry
    rw [List.filter_cons]
    split
    · rw [Value.fieldsWeight, Value.fieldsWeight]
      omega
    · rw [Value.fieldsWeight]
      omega

/-- A member that is present adds to the weight of the members: without those of its name they
weigh less. -/
theorem Value.fieldsWeight_filter_lt {members : Fields Value} {name : String}
    (h : name ∈ members.keys) :
    Value.fieldsWeight (members.filter fun member => member.1 != name) <
      Value.fieldsWeight members := by
  induction members with
  | nil => cases h
  | cons entry rest ih =>
    obtain ⟨key, v⟩ := entry
    rw [List.filter_cons, Value.fieldsWeight]
    by_cases hkey : key = name
    · have hle := Value.fieldsWeight_filter_le (fun member => member.1 != name) rest
      have hpos := Value.weight_pos v
      rw [if_neg (by simp [hkey])]
      omega
    · have hlt := ih ((List.mem_cons.1 h).resolve_left (Ne.symm hkey))
      rw [if_pos (by simp [hkey]), Value.fieldsWeight]
      omega

/-- Members that are taken as configurations weigh what they did. -/
theorem Configuration.totalWeight_values (members : Fields Value) :
    Configuration.totalWeight (members.map fun member => (member.1, .value member.2)) =
      Value.fieldsWeight members := by
  induction members with
  | nil => rfl
  | cons entry rest ih =>
    obtain ⟨name, v⟩ := entry
    rw [List.map_cons, Configuration.totalWeight, Configuration.weight, Value.fieldsWeight, ih]

/-- A descriptor is lighter than the object that it is read from by the weight of the member that
marks it. -/
theorem Descriptor.weight_ofFields_le {field : String} {members : Fields Value}
    {descriptor : Descriptor} (hmarked : Fields.has members validatorsMember = true)
    (h : Descriptor.ofFields field members = .ok descriptor) :
    1 + descriptor.weight ≤ 1 + Value.fieldsWeight members := by
  obtain ⟨validators, -, h⟩ := except_bind_eq_ok.1 h
  cases h
  rw [Descriptor.weight, Configuration.totalWeight_values]
  have hlt := Value.fieldsWeight_filter_lt ((Fields.get?_isSome_iff members _).1 hmarked)
  omega

/-- A rule weighs no more than the data that it is read from. -/
theorem Rule.weight_ofValue_le {field : String} {v : Value} {rule : Rule}
    (h : Rule.ofValue field v = .ok rule) : rule.weight ≤ v.weight := by
  have hpos := Value.weight_pos v
  cases v with
  | object members =>
    rw [Rule.ofValue] at h
    split at h
    · next hmarked =>
      obtain ⟨descriptor, hread, rfl⟩ := except_map_eq_ok.1 h
      rw [Rule.weight, Value.weight]
      have hle := Descriptor.weight_ofFields_le hmarked hread
      omega
    · obtain ⟨specs, -, rfl⟩ := except_map_eq_ok.1 h
      exact hpos
  | array items =>
    obtain ⟨names, -, rfl⟩ := except_map_eq_ok.1 h
    exact hpos
  | string name =>
    cases h
    exact hpos
  | null =>
    cases h
    exact hpos
  | bool b => cases h
  | number n => cases h

/-- Rules weigh no more than the members that they are read from. -/
theorem Rule.totalWeight_mapMembers_le {members : Fields Value} {rules : Fields Rule}
    (h : Fields.mapMembers Rule.ofValue members = .ok rules) :
    Rule.totalWeight rules ≤ Value.fieldsWeight members := by
  induction members generalizing rules with
  | nil =>
    cases h
    exact Nat.le_refl 0
  | cons entry rest ih =>
    obtain ⟨name, v⟩ := entry
    obtain ⟨rule, hrule, h⟩ := except_bind_eq_ok.1 h
    obtain ⟨others, hothers, h⟩ := except_bind_eq_ok.1 h
    cases h
    have hfirst := Rule.weight_ofValue_le hrule
    have hrest := ih hothers
    rw [Rule.totalWeight, Value.fieldsWeight]
    omega

/-- Rules that are read from a value weigh no more than the value. -/
theorem Rules.weight_ofValue_le {v : Value} {rules : Rules} (h : Rules.ofValue v = .ok rules) :
    rules.weight ≤ v.weight := by
  cases v with
  | object members =>
    rw [Rules.ofValue] at h
    rw [Value.weight]
    split at h
    · next hmarked =>
      obtain ⟨descriptor, hread, rfl⟩ := except_map_eq_ok.1 h
      exact Descriptor.weight_ofFields_le hmarked hread
    · obtain ⟨rules, hread, rfl⟩ := except_map_eq_ok.1 h
      have hle := Rule.totalWeight_mapMembers_le hread
      rw [Rules.weight]
      omega
  | null => cases h
  | bool b => cases h
  | number n => cases h
  | string s => cases h
  | array items => cases h

/-- The rules for a nested record weigh no more than their configuration. -/
theorem nestedRules_weight_le {field : String} {config : Configuration} {inner : Rules}
    (h : Module.nestedRules field config = .ok inner) : inner.weight ≤ config.weight := by
  cases config with
  | rules rules =>
    cases h
    exact Nat.le_refl _
  | function hook => cases h
  | value v =>
    rw [Module.nestedRules] at h
    split at h
    · next rules hread =>
      cases h
      exact Rules.weight_ofValue_le hread
    · cases h
    · cases h

/-! ## Data that cannot be read is an invalid rule -/

/-- A reading that fails, if at all, with the error of an invalid rule. -/
def Readable {α : Type} (r : Except SetupError α) : Prop :=
  ∀ e, r = .error e → ∃ field fault, e = .invalidRule field fault

namespace Readable

variable {α β : Type}

/-- A result can be read. -/
theorem ok (a : α) : Readable (.ok a : Except SetupError α) := by
  intro e he
  cases he

/-- An invalid rule can be read. -/
theorem invalid (field : String) (fault : RuleFault) :
    Readable (.error (.invalidRule field fault) : Except SetupError α) := by
  intro e he
  cases he
  exact ⟨field, fault, rfl⟩

/-- Mapping a result leaves it readable. -/
theorem map {x : Except SetupError α} (f : α → β) (hx : Readable x) : Readable (f <$> x) := by
  intro e he
  cases x with
  | ok a => cases he
  | error e' =>
    cases he
    exact hx e rfl

/-- Decoding members can be read if decoding each of them can. -/
theorem mapMembers {decode : String → α → Except SetupError β}
    (h : ∀ name a, Readable (decode name a)) (members : Fields α) :
    Readable (Fields.mapMembers decode members) := by
  intro e he
  obtain ⟨-, name, a, -, -, -, herror⟩ := Fields.mapMembers_eq_error he
  exact h name a e herror

end Readable

/-- What is invalid at a field can be read. -/
theorem InvalidAt.readable {α : Type} {field : String} {r : Except SetupError α}
    (h : InvalidAt field r) : Readable r :=
  fun e he => ⟨field, h e he⟩

/-- Data that cannot be read as rules is reported as an invalid rule. -/
theorem Rules.readable_ofValue (v : Value) : Readable (Rules.ofValue v) := by
  unfold Rules.ofValue
  split
  · split
    · exact ((Descriptor.invalidAt_ofFields wholeField _).map _).readable
    · exact (Readable.mapMembers (fun name v => (Rule.invalidAt_ofValue name v).readable) _).map _
  · exact .invalid _ _

/-- A configuration that holds no rules for a nested record is reported as an invalid rule. -/
theorem readable_nestedRules (field : String) (config : Configuration) :
    Readable (Module.nestedRules field config) := by
  unfold Module.nestedRules
  split
  · exact .ok _
  · next v =>
    split
    · exact .ok _
    · exact .invalid _ _
    · next other hnot hread =>
      obtain ⟨field', fault, rfl⟩ := Rules.readable_ofValue v other hread
      exact absurd rfl (hnot field' fault)
  · exact .invalid _ _

/-! ## Rules that are read hold no functions -/

/-- A spec with neither a parameter nor an expected result that is computed from the record. -/
structure Spec.Plain (spec : Spec) : Prop where
  values : ∀ hook, Param.computed hook ∉ spec.values
  expected : ∀ hook, spec.expected ≠ some (.computed hook)

/-- A field rule whose specs are plain. -/
def Rule.Plain (rule : Rule) : Prop :=
  ∀ name spec, (name, spec) ∈ rule.canonical.validators → spec.Plain

/-- No parameter that is read from data is computed. -/
theorem Param.listOfValue_plain (v : Value) (hook : Hook (Record → Value)) :
    Param.computed hook ∉ Param.listOfValue v := by
  have hone : ∀ v, Param.ofValue v ≠ .computed hook := by
    intro v h
    unfold Param.ofValue at h
    split at h
    · split at h <;> cases h
    · cases h
  intro h
  unfold Param.listOfValue at h
  split at h
  · obtain ⟨item, -, hitem⟩ := List.mem_map.1 h
    exact hone item hitem
  · exact hone _ (List.mem_singleton.1 h).symm

/-- No expectation that is read from data is computed. -/
theorem Spec.expectationOf_plain {field : String} {v : Option Value} {expected : Option Expectation}
    (h : Spec.expectationOf field v = .ok expected) (hook : Hook (Record → Arguments → Bool)) :
    expected ≠ some (.computed hook) := by
  unfold Spec.expectationOf at h
  split at h <;> cases h <;> simp

/-- No message that is read from data is computed. -/
theorem Spec.messageOf_plain {field : String} {v : Option Value} {message : Option Message}
    (h : Spec.messageOf field v = .ok message) (hook : Hook (Record → Arguments → String)) :
    message ≠ some (.computed hook) := by
  unfold Spec.messageOf at h
  split at h <;> cases h <;> simp

/-- The parts of a spec that is read: parameters are read from the options or from their member
`values`, and neither the message nor the expected result is a function. -/
theorem Spec.parts_ofValue {field : String} {v : Value} {spec : Spec}
    (h : Spec.ofValue field v = .ok spec) :
    (spec.values = [] ∨ ∃ w, spec.values = Param.listOfValue w ∧
      (w = v ∨ ∃ options, v = .object options ∧ ("values", w) ∈ options)) ∧
    (∀ hook, spec.message ≠ some (.computed hook)) ∧
    ∀ hook, spec.expected ≠ some (.computed hook) := by
  unfold Spec.ofValue at h
  split at h
  · cases h
    exact ⟨Or.inl rfl, nofun, nofun⟩
  · cases h
    exact ⟨Or.inl rfl, nofun, nofun⟩
  · next options =>
    obtain ⟨message, hmessage, h⟩ := except_bind_eq_ok.1 h
    obtain ⟨expected, hexpected, h⟩ := except_bind_eq_ok.1 h
    cases h
    refine ⟨?_, Spec.messageOf_plain hmessage, Spec.expectationOf_plain hexpected⟩
    cases hvalues : Fields.get? options "values" with
    | none => exact Or.inl rfl
    | some w => exact Or.inr ⟨w, rfl, Or.inr ⟨options, rfl, Fields.mem_of_get? hvalues⟩⟩
  · cases h
    exact ⟨Or.inr ⟨_, rfl, Or.inl rfl⟩, nofun, nofun⟩

/-- What is asked of a validator in data is plain. -/
theorem Spec.plain_ofValue {field : String} {v : Value} {spec : Spec}
    (h : Spec.ofValue field v = .ok spec) : spec.Plain := by
  obtain ⟨hvalues, -, hexpected⟩ := Spec.parts_ofValue h
  refine ⟨fun hook hmem => ?_, hexpected⟩
  rcases hvalues with hnone | ⟨w, hlist, -⟩
  · rw [hnone] at hmem
    cases hmem
  · rw [hlist] at hmem
    exact Param.listOfValue_plain w hook hmem

/-- The specs of validators that are read are read from options: a name without a spec has the
option true. -/
theorem Validators.mem_ofValue {field : String} {v : Value} {validators : Validators}
    (h : Validators.ofValue field v = .ok validators) {name : String} {spec : Spec}
    (hmem : (name, spec) ∈ validators.toSpecs) :
    ∃ options, Spec.ofValue field options = .ok spec ∧
      (options = .bool true ∨ ∃ members, v = .object members ∧ (name, options) ∈ members) := by
  have hnames : ∀ names, (name, spec) ∈ Validators.specsOfNames names →
      ∃ options, Spec.ofValue field options = .ok spec ∧
        (options = .bool true ∨ ∃ members, v = .object members ∧ (name, options) ∈ members) := by
    intro names hnames
    rcases Fields.mem_merge hnames with hnil | hpairs
    · cases hnil
    · obtain ⟨_, -, heq⟩ := List.mem_map.1 hpairs
      cases heq
      exact ⟨.bool true, rfl, Or.inl rfl⟩
  unfold Validators.ofValue at h
  split at h
  · cases h
    exact hnames _ hmem
  · obtain ⟨names, -, rfl⟩ := except_map_eq_ok.1 h
    exact hnames _ hmem
  · next members =>
    obtain ⟨specs, hread, rfl⟩ := except_map_eq_ok.1 h
    obtain ⟨options, hoptions, hspec⟩ := Fields.mem_mapMembers hread hmem
    exact ⟨options, hspec, Or.inr ⟨members, rfl, hoptions⟩⟩
  · cases h
    cases hmem
  · cases h

/-- Validators all of whose specs are plain. -/
def Validators.Plain (validators : Validators) : Prop :=
  ∀ name spec, (name, spec) ∈ validators.toSpecs → spec.Plain

/-- Validators that are read from data are plain. -/
theorem Validators.plain_ofValue {field : String} {v : Value} {validators : Validators}
    (h : Validators.ofValue field v = .ok validators) : validators.Plain := by
  intro name spec hmem
  obtain ⟨options, hread, -⟩ := Validators.mem_ofValue h hmem
  exact Spec.plain_ofValue hread

/-- A rule that is read from data is plain. -/
theorem Rule.plain_ofValue {field : String} {v : Value} {rule : Rule}
    (h : Rule.ofValue field v = .ok rule) : rule.Plain := by
  obtain ⟨validators, hread, hcanonical⟩ := Rule.canonical_ofValue h
  intro name spec hmem
  rw [hcanonical] at hmem
  exact Validators.plain_ofValue hread name spec hmem

/-- Field rules that are read from an object are rules for its names, and plain. -/
theorem Rules.plain_ofValue {members : Fields Value} {rules : Fields Rule}
    (h : Rules.ofValue (.object members) = .ok (.fields rules)) :
    rules.keys = members.keys ∧ ∀ field rule, (field, rule) ∈ rules → rule.Plain := by
  rw [Rules.ofValue] at h
  split at h
  · obtain ⟨descriptor, -, heq⟩ := except_map_eq_ok.1 h
    cases heq
  · obtain ⟨fields, hread, heq⟩ := except_map_eq_ok.1 h
    cases heq
    refine ⟨Fields.keys_mapMembers hread, fun field rule hmem => ?_⟩
    obtain ⟨v, -, hrule⟩ := Fields.mem_mapMembers hread hmem
    exact Rule.plain_ofValue hrule

end Vetting
