import Vetting.Proofs.RuleShapes

/-!
# The grammar of rules as data

Which data are rules, said without the reader: options of a validator (`Value.IsOptions`),
validators (`Value.IsValidators`), the rule of one field (`Value.IsRule`) and the rules of a record
(`Value.IsRules`), each by the forms that it may take. The reader accepts exactly these, one lemma
for each kind of declaration, and what it reports is an invalid rule of the first field that is
outside the grammar (`Rules.ofValue_accepts_iff`).
-/

set_option autoImplicit false

namespace Vetting

namespace Value

/-- A member of options that may be left out: it is absent, null, or of its kind. -/
inductive Optional (kind : Kind) : Option Value → Prop
  | absent : Optional kind none
  | null : Optional kind (some .null)
  | given {v : Value} (h : v.kind = kind) : Optional kind (some v)

/-- The options of one validator: anything, but an object has to give a text for the message and a
truth value for the expected result, if it gives them. -/
def IsOptions : Value → Prop
  | .object options =>
    Optional .string (Fields.get? options "message") ∧
      Optional .boolean (Fields.get? options "expectedResult")
  | _ => True

/-- Validators: a name, a list of names, nothing, or options under the names of validators. -/
inductive IsValidators : Value → Prop
  | name (name : String) : IsValidators (.string name)
  | names {items : List Value} (h : ∀ item ∈ items, item.kind = .string) :
      IsValidators (.array items)
  | nothing : IsValidators .null
  | specs {members : Fields Value} (h : ∀ entry ∈ members, entry.2.IsOptions) :
      IsValidators (.object members)

/-- The rule of a field: a descriptor of validators, or validators alone. -/
inductive IsRule : Value → Prop
  | descriptor {members : Fields Value} {v : Value}
      (hget : Fields.get? members validatorsMember = some v) (h : v.IsValidators) :
      IsRule (.object members)
  | bare {v : Value} (hbare : v.isDescriptor = false) (h : v.IsValidators) : IsRule v

/-- The rules of a record: a descriptor of the record as a whole, or an object with the rules of its
fields. -/
inductive IsRules : Value → Prop
  | whole {members : Fields Value} {v : Value}
      (hget : Fields.get? members validatorsMember = some v) (h : v.IsValidators) :
      IsRules (.object members)
  | fields {members : Fields Value} (hbare : (Value.object members).isDescriptor = false)
      (h : ∀ entry ∈ members, entry.2.IsRule) : IsRules (.object members)

/-- The field that data outside the grammar are an invalid rule of: the record as a whole for
anything but an object and for a descriptor, and otherwise the first member that is no rule. -/
inductive Blames : Value → String → Prop
  | noObject {v : Value} (h : v.kind ≠ .object) : Blames v wholeField
  | whole {v : Value} (h : v.isDescriptor = true) : Blames v wholeField
  | member {before after : Fields Value} {name : String} {v : Value}
      (hbare : (Value.object (before ++ (name, v) :: after)).isDescriptor = false)
      (hbefore : ∀ entry ∈ before, entry.2.IsRule) (h : ¬ v.IsRule) :
      Blames (.object (before ++ (name, v) :: after)) name

/-- Data are a rule exactly if what they declare are validators. -/
theorem isRule_iff {v : Value} : v.IsRule ↔ v.declared.IsValidators := by
  constructor
  · rintro (⟨hget, h⟩ | ⟨hbare, h⟩)
    · rwa [declared, hget]
    · rwa [declared_of_bare hbare]
  · intro h
    cases hshape : v.isDescriptor with
    | true =>
      obtain ⟨members, w, rfl, hget⟩ := isDescriptor_iff.1 hshape
      rw [declared, hget, Option.getD_some] at h
      exact .descriptor hget h
    | false =>
      rw [declared_of_bare hshape] at h
      exact .bare hshape h

end Value

/-! ## What is read -/

/-- A message is read exactly if it is text, or absent. -/
theorem Spec.exists_messageOf_iff (field : String) {given : Option Value} :
    (∃ message, Spec.messageOf field given = .ok message) ↔ Value.Optional .string given := by
  constructor
  · rintro ⟨message, h⟩
    unfold Spec.messageOf at h
    split at h
    · exact .absent
    · exact .null
    · exact .given rfl
    · cases h
  · rintro (_ | _ | h)
    · exact ⟨none, rfl⟩
    · exact ⟨none, rfl⟩
    · next v =>
      cases v with
      | string s => exact ⟨some (.text s), rfl⟩
      | _ => cases h

/-- An expectation is read exactly if it is a truth value, or absent. -/
theorem Spec.exists_expectationOf_iff (field : String) {given : Option Value} :
    (∃ expected, Spec.expectationOf field given = .ok expected) ↔
      Value.Optional .boolean given := by
  constructor
  · rintro ⟨expected, h⟩
    unfold Spec.expectationOf at h
    split at h
    · exact .absent
    · exact .null
    · exact .given rfl
    · cases h
  · rintro (_ | _ | h)
    · exact ⟨none, rfl⟩
    · exact ⟨none, rfl⟩
    · next v =>
      cases v with
      | bool b => exact ⟨some (.literal b), rfl⟩
      | _ => cases h

/-- What is asked of a validator is read exactly if it is in form. -/
theorem Spec.exists_ofValue_iff {field : String} {v : Value} :
    (∃ spec, Spec.ofValue field v = .ok spec) ↔ v.IsOptions := by
  cases v with
  | object options =>
    rw [Value.IsOptions, ← Spec.exists_messageOf_iff field,
      ← Spec.exists_expectationOf_iff field]
    constructor
    · rintro ⟨spec, h⟩
      obtain ⟨message, hmessage, h⟩ := except_bind_eq_ok.1 h
      obtain ⟨expected, hexpected, -⟩ := except_bind_eq_ok.1 h
      exact ⟨⟨message, hmessage⟩, expected, hexpected⟩
    · rintro ⟨⟨message, hmessage⟩, expected, hexpected⟩
      exact ⟨_, except_bind_eq_ok.2 ⟨message, hmessage,
        except_bind_eq_ok.2 ⟨expected, hexpected, rfl⟩⟩⟩
  | _ => simp [Spec.ofValue, Value.IsOptions]

/-- A list of names is read exactly if all items are texts. -/
theorem Validators.exists_namesOfItems_iff {field : String} {items : List Value} :
    (∃ names, Validators.namesOfItems field items = .ok names) ↔
      ∀ item ∈ items, item.kind = .string := by
  induction items with
  | nil => simp [Validators.namesOfItems]
  | cons item rest ih =>
    rw [List.forall_mem_cons, ← ih]
    cases item with
    | string name =>
      constructor
      · rintro ⟨names, h⟩
        obtain ⟨others, hothers, -⟩ := except_bind_eq_ok.1 h
        exact ⟨rfl, others, hothers⟩
      · rintro ⟨-, others, hothers⟩
        exact ⟨_, except_bind_eq_ok.2 ⟨others, hothers, rfl⟩⟩
    | _ => simp [Validators.namesOfItems, Value.kind]

/-- Validators are read exactly if they are in form. -/
theorem Validators.exists_ofValue_iff (field : String) {v : Value} :
    (∃ validators, Validators.ofValue field v = .ok validators) ↔ v.IsValidators := by
  cases v with
  | string name => exact ⟨fun _ => .name name, fun _ => ⟨_, rfl⟩⟩
  | null => exact ⟨fun _ => .nothing, fun _ => ⟨_, rfl⟩⟩
  | array items =>
    rw [Validators.ofValue, except_exists_map_iff, Validators.exists_namesOfItems_iff]
    constructor
    · exact .names
    · intro h
      cases h with
      | names h => exact h
  | object members =>
    rw [Validators.ofValue, except_exists_map_iff, Spec.mapOfFields, Fields.exists_mapMembers_iff]
    simp only [Spec.exists_ofValue_iff]
    constructor
    · exact .specs
    · intro h
      cases h with
      | specs h => exact h
  | bool _ | number _ =>
    constructor
    · rintro ⟨validators, h⟩
      cases h
    · intro h
      cases h

/-- A rule is read exactly if it is in form. -/
theorem Rule.exists_ofValue_iff_isRule (field : String) {v : Value} :
    (∃ rule, Rule.ofValue field v = .ok rule) ↔ v.IsRule := by
  rw [Rule.exists_ofValue_iff, Validators.exists_ofValue_iff, Value.isRule_iff]

/-- A descriptor is read exactly if its validators are in form. -/
theorem Descriptor.exists_ofFields_iff {field : String} {members : Fields Value} {v : Value}
    (hget : Fields.get? members validatorsMember = some v) :
    (∃ descriptor, Descriptor.ofFields field members = .ok descriptor) ↔ v.IsValidators := by
  have hread : Fields.read members validatorsMember = v := by rw [Fields.read, hget]; rfl
  rw [← Validators.exists_ofValue_iff field, Descriptor.ofFields, hread]
  constructor
  · rintro ⟨descriptor, h⟩
    obtain ⟨validators, hvalidators, -⟩ := except_bind_eq_ok.1 h
    exact ⟨validators, hvalidators⟩
  · rintro ⟨validators, hvalidators⟩
    exact ⟨_, except_bind_eq_ok.2 ⟨validators, hvalidators, rfl⟩⟩

/-- Rules are read exactly if they are in form. -/
theorem Rules.exists_ofValue_iff {v : Value} :
    (∃ rules, Rules.ofValue v = .ok rules) ↔ v.IsRules := by
  cases v with
  | object members =>
    cases hshape : (Value.object members).isDescriptor with
    | true =>
      obtain ⟨_, w, heq, hget⟩ := Value.isDescriptor_iff.1 hshape
      cases heq
      have hhas : Fields.has members validatorsMember = true := hshape
      rw [Rules.ofValue, if_pos hhas, except_exists_map_iff, Descriptor.exists_ofFields_iff hget]
      constructor
      · exact .whole hget
      · rintro (⟨hget', h⟩ | ⟨hbare, -⟩)
        · rw [hget, Option.some.injEq] at hget'
          rwa [hget']
        · rw [hshape] at hbare
          cases hbare
    | false =>
      have hhas : ¬ Fields.has members validatorsMember = true := Bool.eq_false_iff.1 hshape
      rw [Rules.ofValue, if_neg hhas, except_exists_map_iff, Fields.exists_mapMembers_iff]
      simp only [Rule.exists_ofValue_iff_isRule]
      constructor
      · exact .fields hshape
      · rintro (⟨hget, -⟩ | ⟨-, h⟩)
        · have hdescriptor := Value.isDescriptor_iff.2 ⟨members, _, rfl, hget⟩
          rw [hshape] at hdescriptor
          cases hdescriptor
        · exact h
  | _ => exact ⟨nofun, nofun⟩

/-! ## What is reported -/

/-- Data that cannot be read as rules are an invalid rule of the field that they are blamed on. -/
theorem Rules.blames_of_error {v : Value} {e : SetupError} (h : Rules.ofValue v = .error e) :
    ∃ field fault, e = .invalidRule field fault ∧ v.Blames field := by
  cases v with
  | object members =>
    cases hshape : (Value.object members).isDescriptor with
    | true =>
      have hhas : Fields.has members validatorsMember = true := hshape
      rw [Rules.ofValue, if_pos hhas] at h
      obtain ⟨fault, rfl⟩ := (Descriptor.invalidAt_ofFields wholeField members).map _ e h
      exact ⟨wholeField, fault, rfl, .whole hshape⟩
    | false =>
      have hhas : ¬ Fields.has members validatorsMember = true := Bool.eq_false_iff.1 hshape
      rw [Rules.ofValue, if_neg hhas] at h
      cases hread : Fields.mapMembers Rule.ofValue members with
      | ok rules =>
        rw [hread] at h
        cases h
      | error e' =>
        rw [hread] at h
        cases h
        obtain ⟨before, name, w, after, rfl, hbefore, herror⟩ := Fields.mapMembers_eq_error hread
        obtain ⟨fault, rfl⟩ := Rule.invalidAt_ofValue name w e herror
        refine ⟨name, fault, rfl, .member hshape (fun entry hentry => ?_) fun hrule => ?_⟩
        · exact (Rule.exists_ofValue_iff_isRule entry.1).1 (hbefore entry hentry)
        · obtain ⟨rule, hread⟩ := (Rule.exists_ofValue_iff_isRule name).2 hrule
          rw [herror] at hread
          cases hread
  | _ =>
    cases h
    exact ⟨_, _, rfl, .noObject nofun⟩

/-- Data are read as rules exactly when they are within the grammar of rules, and otherwise are
reported as an invalid rule of the field that they are blamed on. -/
theorem Rules.ofValue_accepts_iff (v : Value) :
    ((∃ rules, Rules.ofValue v = .ok rules) ↔ v.IsRules) ∧
      ∀ e, Rules.ofValue v = .error e →
        ∃ field fault, e = .invalidRule field fault ∧ v.Blames field :=
  ⟨Rules.exists_ofValue_iff, fun _ => Rules.blames_of_error⟩

/-- Rules for three fields, of which the second gives a number for a message and the third is a
number. -/
def misspelledRules : Value :=
  .object
    [("name", .array [.string "required", .string "validTextString"]),
     ("age", .object [("minValue", .object [("values", .ofInt 18), ("message", .ofInt 5)])]),
     ("city", .ofInt 3)]

/-- Rules with a message that is a number are refused, and the field is blamed. -/
theorem Rules.ofValue_accepts_iff_misspelled :
    Rules.ofValue misspelledRules = .error (.invalidRule "age" (.messageKind .number)) ∧
      misspelledRules.Blames "age" ∧ ¬ misspelledRules.IsRules := by
  have herror :
      Rules.ofValue misspelledRules = .error (.invalidRule "age" (.messageKind .number)) := rfl
  obtain ⟨haccepts, hblames⟩ := Rules.ofValue_accepts_iff misspelledRules
  obtain ⟨field, fault, heq, hfield⟩ := hblames _ herror
  cases heq
  refine ⟨herror, hfield, fun hrules => ?_⟩
  obtain ⟨rules, hread⟩ := haccepts.2 hrules
  rw [herror] at hread
  cases hread

end Vetting
