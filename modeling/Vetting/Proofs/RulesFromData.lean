import Vetting.Proofs.NestedRules

/-!
# Rules that come from data

In data that has been parsed no object has a name twice (`Value.distinctNames`). Rules that are read
from such data declare every field once, hold no functions, neither in their validators nor in the
configurations of their modules, and the same goes for the rules that they configure for nested
records.
-/

set_option autoImplicit false

namespace Vetting

mutual

/-- Whether no object of a value, at any depth, has a name twice. -/
def Value.distinctNames : Value → Bool
  | .array items => Value.itemsDistinctNames items
  | .object members => decide (Fields.Distinct members) && Value.membersDistinctNames members
  | _ => true

/-- Whether this holds of all items of a list. -/
def Value.itemsDistinctNames : List Value → Bool
  | [] => true
  | item :: rest => item.distinctNames && Value.itemsDistinctNames rest

/-- Whether this holds of the values of all members. -/
def Value.membersDistinctNames : List (String × Value) → Bool
  | [] => true
  | (_, v) :: rest => v.distinctNames && Value.membersDistinctNames rest

end

/-- Items have distinct names if each of them has. -/
theorem Value.itemsDistinctNames_iff {items : List Value} :
    Value.itemsDistinctNames items = true ↔ ∀ item ∈ items, item.distinctNames = true := by
  induction items with
  | nil => simp [Value.itemsDistinctNames]
  | cons item rest ih => simp [Value.itemsDistinctNames, ih]

/-- Members have distinct names if each of them has. -/
theorem Value.membersDistinctNames_iff {members : Fields Value} :
    Value.membersDistinctNames members = true ↔
      ∀ entry ∈ members, entry.2.distinctNames = true := by
  induction members with
  | nil => simp [Value.membersDistinctNames]
  | cons entry rest ih => simp [Value.membersDistinctNames, ih]

/-- Each member has distinct names if all members have. -/
theorem Value.distinctNames_of_mem {members : Fields Value}
    (h : Value.membersDistinctNames members = true) {name : String} {v : Value}
    (hmem : (name, v) ∈ members) : v.distinctNames = true :=
  Value.membersDistinctNames_iff.1 h _ hmem

/-- The modules of a descriptor that is read are configured with members of it. -/
theorem Descriptor.config_ofFields {field : String} {members : Fields Value}
    {descriptor : Descriptor} (h : Descriptor.ofFields field members = .ok descriptor)
    {name : String} {config : Configuration} (hmem : (name, config) ∈ descriptor.modules) :
    ∃ v, (name, v) ∈ members ∧ config = .value v := by
  obtain ⟨validators, -, h⟩ := except_bind_eq_ok.1 h
  cases h
  obtain ⟨member, hmember, heq⟩ := List.mem_map.1 hmem
  cases heq
  exact ⟨member.2, (List.mem_filter.1 hmember).1, rfl⟩

/-- The configuration of a module is a member of the data that the rule is read from. -/
theorem Rule.config_ofValue {field : String} {v : Value} {rule : Rule}
    (h : Rule.ofValue field v = .ok rule) {name : String} {config : Configuration}
    (hmem : (name, config) ∈ rule.canonical.modules) :
    ∃ members w, v = .object members ∧ (name, w) ∈ members ∧ config = .value w := by
  unfold Rule.ofValue at h
  split at h
  · cases h
    cases hmem
  · obtain ⟨names, -, rfl⟩ := except_map_eq_ok.1 h
    cases hmem
  · next members =>
    split at h
    · obtain ⟨descriptor, hread, rfl⟩ := except_map_eq_ok.1 h
      obtain ⟨w, hw, hconfig⟩ := Descriptor.config_ofFields hread hmem
      exact ⟨members, w, rfl, hw, hconfig⟩
    · obtain ⟨specs, -, rfl⟩ := except_map_eq_ok.1 h
      cases hmem
  · cases h
    cases hmem
  · cases h

/-- Rules that can be read from data in which no object has a name twice. -/
def Rules.FromData (rules : Rules) : Prop :=
  ∃ data : Value, data.distinctNames = true ∧ Rules.ofValue data = .ok rules

namespace Rules.FromData

variable {rules : Rules} {field : String} {rule : Rule}

/-- The rule of a field is read from a value, or is the descriptor that all the data describe. -/
theorem member (h : rules.FromData) (hmem : (field, rule) ∈ rules.members) :
    rule.Plain ∧ ∀ name config, (name, config) ∈ rule.canonical.modules →
      ∃ v : Value, v.distinctNames = true ∧ config = .value v := by
  obtain ⟨data, hnames, hread⟩ := h
  unfold Rules.ofValue at hread
  split at hread
  · next members =>
    rw [Value.distinctNames, Bool.and_eq_true] at hnames
    split at hread
    · obtain ⟨descriptor, hdescriptor, rfl⟩ := except_map_eq_ok.1 hread
      cases List.mem_singleton.1 hmem
      refine ⟨?_, fun name config hconfig => ?_⟩
      · obtain ⟨validators, hvalidators, hdescriptor⟩ := except_bind_eq_ok.1 hdescriptor
        cases hdescriptor
        exact Validators.plain_ofValue hvalidators
      · obtain ⟨v, hv, rfl⟩ := Descriptor.config_ofFields hdescriptor hconfig
        exact ⟨v, Value.distinctNames_of_mem hnames.2 hv, rfl⟩
    · obtain ⟨fields, hfields, rfl⟩ := except_map_eq_ok.1 hread
      obtain ⟨v, hv, hrule⟩ := Fields.mem_mapMembers hfields hmem
      refine ⟨Rule.plain_ofValue hrule, fun name config hconfig => ?_⟩
      obtain ⟨inside, w, rfl, hw, rfl⟩ := Rule.config_ofValue hrule hconfig
      have hinside := Value.distinctNames_of_mem hnames.2 hv
      rw [Value.distinctNames, Bool.and_eq_true] at hinside
      exact ⟨w, Value.distinctNames_of_mem hinside.2 hw, rfl⟩
  · cases hread

/-- Rules from data are plain. -/
theorem plain (h : rules.FromData) (field : String) (rule : Rule)
    (hmem : (field, rule) ∈ rules.members) : rule.Plain :=
  (h.member hmem).1

/-- Rules from data configure no module with a function. -/
theorem noFunctions (h : rules.FromData) (hmem : (field, rule) ∈ rules.members) :
    ∀ entry ∈ rule.canonical.modules, ∀ hook, entry.2 ≠ .function hook := by
  intro entry hentry hook hfunction
  obtain ⟨v, -, hvalue⟩ := (h.member hmem).2 entry.1 entry.2 hentry
  rw [hvalue] at hfunction
  cases hfunction

/-- Rules from data declare fields with distinct names. -/
theorem distinct (h : rules.FromData) : rules.members.Distinct := by
  obtain ⟨data, hnames, hread⟩ := h
  cases rules with
  | whole descriptor => exact List.nodup_singleton wholeField
  | fields fields =>
    cases data with
    | object members =>
      rw [Value.distinctNames, Bool.and_eq_true, decide_eq_true_eq] at hnames
      have hkeys : Fields.keys fields = Fields.keys members := (Rules.plain_ofValue hread).1
      show (Fields.keys fields).Nodup
      rw [hkeys]
      exact hnames.1
    | _ => cases hread

/-- The rules that are configured for a nested record come from data too. -/
theorem nested (h : rules.FromData) (hmem : (field, rule) ∈ rules.members) {name : String}
    {config : Configuration} (hconfig : (name, config) ∈ rule.canonical.modules) {inner : Rules}
    (hinner : Module.nestedRules field config = .ok inner) : inner.FromData := by
  obtain ⟨v, hnames, rfl⟩ := (h.member hmem).2 name config hconfig
  refine ⟨v, hnames, ?_⟩
  rw [Module.nestedRules] at hinner
  split at hinner
  · next rules hread =>
    cases hinner
    exact hread
  · cases hinner
  · cases hinner

end Rules.FromData

end Vetting
