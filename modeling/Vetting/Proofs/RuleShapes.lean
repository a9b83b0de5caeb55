import Vetting.Rule.Canonical
import Vetting.Rule.Decode
import Vetting.Proofs.RunConduct
import Mathlib.Data.List.Forall2

/-!
# The shapes of a rule as data

A rule is given as a name, a list of names, an object of options, or a descriptor. Whatever the
shape, reading the rule comes down to reading validators: those of a descriptor are its member
`validators`, and any other rule is all validators (`Value.declared`). A rule can be read exactly
when its validators can (`Rule.exists_ofValue_iff`), and its canonical form is made of them and of
what is configured beside them (`Rule.canonical_ofValue`).

Objects are read member by member, in order, and the first member that cannot be read ends it
(`Fields.mapMembers_eq_ok_iff`, `Fields.mapMembers_eq_error`). A rule that cannot be read is an
invalid rule of the field that it is for (`InvalidAt`).
-/

set_option autoImplicit false

namespace Vetting

/-- Mapping a result leaves whether there is one. -/
theorem except_exists_map_iff {ε α β : Type} {x : Except ε α} {f : α → β} :
    (∃ b, f <$> x = .ok b) ↔ ∃ a, x = .ok a := by
  cases x with
  | ok a => exact ⟨fun _ => ⟨a, rfl⟩, fun _ => ⟨f a, rfl⟩⟩
  | error e => simp [Functor.map, Except.map]

/-! ## Objects are read member by member -/

namespace Fields

variable {α β : Type} {decode : String → α → Except SetupError β} {members : Fields α}
  {decoded : Fields β}

/-- Members are decoded if each of them is, in order and under its name. -/
theorem mapMembers_eq_ok_iff :
    mapMembers decode members = .ok decoded ↔
      List.Forall₂ (fun given read => given.1 = read.1 ∧ decode given.1 given.2 = .ok read.2)
        members decoded := by
  induction members generalizing decoded with
  | nil =>
    rw [mapMembers, List.forall₂_nil_left_iff, Except.ok.injEq]
    exact eq_comm
  | cons entry rest ih =>
    obtain ⟨name, a⟩ := entry
    rw [mapMembers, except_bind_eq_ok, List.forall₂_cons_left_iff]
    constructor
    · rintro ⟨first, hfirst, h⟩
      obtain ⟨others, hothers, h⟩ := except_bind_eq_ok.1 h
      cases h
      exact ⟨(name, first), others, ⟨rfl, hfirst⟩, ih.1 hothers, rfl⟩
    · rintro ⟨⟨_, first⟩, others, ⟨rfl, hfirst⟩, hothers, rfl⟩
      exact ⟨first, hfirst, except_bind_eq_ok.2 ⟨others, ih.2 hothers, rfl⟩⟩

/-- Decoded members keep their names. -/
theorem keys_mapMembers (h : mapMembers decode members = .ok decoded) :
    decoded.keys = members.keys := by
  have hall := mapMembers_eq_ok_iff.1 h
  clear h
  induction hall with
  | nil => rfl
  | cons hentry _ ih =>
    rw [keys, List.map_cons, keys, List.map_cons, hentry.1]
    exact congrArg _ ih

/-- A decoded member comes from the member of its name. -/
theorem mem_mapMembers (h : mapMembers decode members = .ok decoded) {name : String} {b : β}
    (hmem : (name, b) ∈ decoded) : ∃ a, (name, a) ∈ members ∧ decode name a = .ok b := by
  have hall := mapMembers_eq_ok_iff.1 h
  clear h
  induction hall with
  | nil => cases hmem
  | @cons given read _ _ hentry _ ih =>
    rcases List.mem_cons.1 hmem with heq | hmem
    · refine ⟨given.2, List.mem_cons.2 (Or.inl ?_), ?_⟩
      · rw [show name = given.1 from (congrArg Prod.fst heq).trans hentry.1.symm]
      · rw [show name = given.1 from (congrArg Prod.fst heq).trans hentry.1.symm,
          show b = read.2 from congrArg Prod.snd heq]
        exact hentry.2
    · obtain ⟨a, ha, hdecode⟩ := ih hmem
      exact ⟨a, List.mem_cons_of_mem _ ha, hdecode⟩

/-- An object can be read when all its members can. -/
theorem exists_mapMembers_iff :
    (∃ decoded, mapMembers decode members = .ok decoded) ↔
      ∀ entry ∈ members, ∃ b, decode entry.1 entry.2 = .ok b := by
  induction members with
  | nil => simp [mapMembers]
  | cons entry rest ih =>
    obtain ⟨name, a⟩ := entry
    rw [List.forall_mem_cons, ← ih]
    constructor
    · rintro ⟨decoded, h⟩
      obtain ⟨first, hfirst, h⟩ := except_bind_eq_ok.1 h
      obtain ⟨others, hothers, -⟩ := except_bind_eq_ok.1 h
      exact ⟨⟨first, hfirst⟩, others, hothers⟩
    · rintro ⟨⟨first, hfirst⟩, others, hothers⟩
      exact ⟨(name, first) :: others,
        except_bind_eq_ok.2 ⟨first, hfirst, except_bind_eq_ok.2 ⟨others, hothers, rfl⟩⟩⟩

/-- An object that cannot be read has a first member that cannot, and the error is that member's. -/
theorem mapMembers_eq_error {e : SetupError} (h : mapMembers decode members = .error e) :
    ∃ before name a after, members = before ++ (name, a) :: after ∧
      (∀ entry ∈ before, ∃ b, decode entry.1 entry.2 = .ok b) ∧ decode name a = .error e := by
  induction members with
  | nil => cases h
  | cons entry rest ih =>
    obtain ⟨name, a⟩ := entry
    rw [mapMembers] at h
    cases hfirst : decode name a with
    | error e' =>
      rw [hfirst] at h
      cases h
      exact ⟨[], name, a, rest, rfl, fun _ hentry => (List.not_mem_nil hentry).elim, hfirst⟩
    | ok b =>
      rw [hfirst] at h
      cases hrest : mapMembers decode rest with
      | ok others =>
        rw [hrest] at h
        cases h
      | error e' =>
        rw [hrest] at h
        cases h
        obtain ⟨before, name', a', after, rfl, hbefore, herror⟩ := ih hrest
        exact ⟨(name, a) :: before, name', a', after, rfl,
          List.forall_mem_cons.2 ⟨⟨b, hfirst⟩, hbefore⟩, herror⟩

/-- What an object that is read has under a name is what the name's member is read as. -/
theorem get?_mapMembers (h : mapMembers decode members = .ok decoded) (name : String) :
    match members.get? name with
    | some a => ∃ b, decode name a = .ok b ∧ decoded.get? name = some b
    | none => decoded.get? name = none := by
  have hall := mapMembers_eq_ok_iff.1 h
  clear h
  induction hall with
  | nil => rfl
  | @cons given read _ _ hentry _ ih =>
    obtain ⟨key, a⟩ := given
    obtain ⟨_, b⟩ := read
    obtain ⟨rfl, hread⟩ := hentry
    rw [get?_cons, get?_cons]
    by_cases hname : name = key
    · rw [if_pos hname, if_pos hname, hname]
      exact ⟨b, hread, rfl⟩
    · rw [if_neg hname, if_neg hname]
      exact ih

/-- Writing a member that can be read writes what it is read as. -/
theorem mapMembers_put (h : mapMembers decode members = .ok decoded) {name : String} {a : α} {b : β}
    (hread : decode name a = .ok b) :
    mapMembers decode (members.put name a) = .ok (decoded.put name b) := by
  rw [mapMembers_eq_ok_iff] at h ⊢
  induction h with
  | nil => exact .cons ⟨rfl, hread⟩ .nil
  | @cons given read _ _ hentry hrest ih =>
    obtain ⟨key, a'⟩ := given
    obtain ⟨_, b'⟩ := read
    obtain ⟨rfl, hread'⟩ := hentry
    rw [put, put]
    by_cases hkey : key = name
    · rw [if_pos hkey, if_pos hkey]
      rw [← hkey] at hread
      exact .cons ⟨rfl, hread⟩ hrest
    · rw [if_neg hkey, if_neg hkey]
      exact .cons ⟨rfl, hread'⟩ ih

end Fields

/-! ## Errors of reading -/

/-- A reading that fails, if at all, with the error of an invalid rule of a field. -/
def InvalidAt {α : Type} (field : String) (r : Except SetupError α) : Prop :=
  ∀ e, r = .error e → ∃ fault, e = .invalidRule field fault

namespace InvalidAt

variable {α β : Type} {field : String}

/-- A result is invalid nowhere. -/
theorem ok (a : α) : InvalidAt field (.ok a : Except SetupError α) := by
  intro e he
  cases he

/-- An invalid rule is invalid at its field. -/
theorem invalid (fault : RuleFault) :
    InvalidAt field (.error (.invalidRule field fault) : Except SetupError α) := by
  intro e he
  cases he
  exact ⟨fault, rfl⟩

/-- One reading after another is invalid at a field only, if both are. -/
theorem bind {x : Except SetupError α} {f : α → Except SetupError β} (hx : InvalidAt field x)
    (hf : ∀ a, InvalidAt field (f a)) : InvalidAt field (x >>= f) := by
  intro e he
  cases x with
  | ok a => exact hf a e he
  | error e' =>
    cases he
    exact hx e rfl

/-- Mapping a result leaves where it is invalid. -/
theorem map {x : Except SetupError α} (f : α → β) (hx : InvalidAt field x) :
    InvalidAt field (f <$> x) := by
  intro e he
  cases x with
  | ok a => cases he
  | error e' =>
    cases he
    exact hx e rfl

/-- Decoding members is invalid at a field only, if decoding each of them is. -/
theorem mapMembers {decode : String → α → Except SetupError β}
    (h : ∀ name a, InvalidAt field (decode name a)) (members : Fields α) :
    InvalidAt field (Fields.mapMembers decode members) := by
  intro e he
  obtain ⟨-, name, a, -, -, -, herror⟩ := Fields.mapMembers_eq_error he
  exact h name a e herror

end InvalidAt

/-- A message that cannot be read is reported for its field. -/
theorem Spec.invalidAt_messageOf (field : String) (v : Option Value) :
    InvalidAt field (Spec.messageOf field v) := by
  unfold Spec.messageOf
  split
  · exact .ok _
  · exact .ok _
  · exact .ok _
  · exact .invalid _

/-- An expectation that cannot be read is reported for its field. -/
theorem Spec.invalidAt_expectationOf (field : String) (v : Option Value) :
    InvalidAt field (Spec.expectationOf field v) := by
  unfold Spec.expectationOf
  split
  · exact .ok _
  · exact .ok _
  · exact .ok _
  · exact .invalid _

/-- Options of a validator that cannot be read are reported for their field. -/
theorem Spec.invalidAt_ofValue (field : String) (v : Value) :
    InvalidAt field (Spec.ofValue field v) := by
  unfold Spec.ofValue
  split
  · exact .ok _
  · exact .ok _
  · refine (Spec.invalidAt_messageOf field _).bind fun message => ?_
    exact (Spec.invalidAt_expectationOf field _).bind fun expected => .ok _
  · exact .ok _

/-- A list of names that cannot be read is reported for its field. -/
theorem Validators.invalidAt_namesOfItems (field : String) (items : List Value) :
    InvalidAt field (Validators.namesOfItems field items) := by
  induction items with
  | nil => exact .ok []
  | cons item rest ih =>
    unfold Validators.namesOfItems
    split
    · exact .ok _
    · next heq =>
      cases heq
      exact ih.bind fun _ => .ok _
    · exact .invalid _

/-- Validators that cannot be read are reported for their field. -/
theorem Validators.invalidAt_ofValue (field : String) (v : Value) :
    InvalidAt field (Validators.ofValue field v) := by
  unfold Validators.ofValue
  split
  · exact .ok _
  · exact (Validators.invalidAt_namesOfItems field _).map _
  · exact (InvalidAt.mapMembers (fun _ => Spec.invalidAt_ofValue field) _).map _
  · exact .ok _
  · exact .invalid _

/-- A descriptor that cannot be read is reported for its field. -/
theorem Descriptor.invalidAt_ofFields (field : String) (members : Fields Value) :
    InvalidAt field (Descriptor.ofFields field members) :=
  (Validators.invalidAt_ofValue field _).bind fun _ => .ok _

/-- A rule that cannot be read is reported for its field. -/
theorem Rule.invalidAt_ofValue (field : String) (v : Value) :
    InvalidAt field (Rule.ofValue field v) := by
  unfold Rule.ofValue
  split
  · exact .ok _
  · exact (Validators.invalidAt_namesOfItems field _).map _
  · split
    · exact (Descriptor.invalidAt_ofFields field _).map _
    · exact (InvalidAt.mapMembers (fun _ => Spec.invalidAt_ofValue field) _).map _
  · exact .ok _
  · exact .invalid _

/-! ## A rule is read by its validators -/

namespace Value

/-- Whether a value is an object with the member that marks a descriptor. -/
def isDescriptor : Value → Bool
  | .object members => Fields.has members validatorsMember
  | _ => false

/-- The validators that a rule declares: the member `validators` of a descriptor, and all of any
other rule. -/
def declared (v : Value) : Value :=
  match v with
  | .object members => (Fields.get? members validatorsMember).getD v
  | _ => v

/-- What a rule configures beside its validators: all other members of a descriptor. -/
def configured (v : Value) : Fields Configuration :=
  match v with
  | .object members =>
    if Fields.has members validatorsMember then
      (members.filter fun member => member.1 != validatorsMember).map
        fun member => (member.1, .value member.2)
    else []
  | _ => []

/-- Data are a descriptor exactly if they have the member for validators. -/
theorem isDescriptor_iff {v : Value} :
    v.isDescriptor = true ↔
      ∃ members w, v = .object members ∧ Fields.get? members validatorsMember = some w := by
  cases v with
  | object members => simp [isDescriptor, Fields.has, Option.isSome_iff_exists]
  | _ => simp [isDescriptor]

/-- Data that are no descriptor declare validators as a whole. -/
theorem declared_of_bare {v : Value} (h : v.isDescriptor = false) : v.declared = v := by
  cases v with
  | object members =>
    rw [isDescriptor, Fields.has, Option.isSome_eq_false_iff, Option.isNone_iff_eq_none] at h
    rw [declared, h, Option.getD_none]
  | _ => rfl

/-- Data that are no descriptor configure no modules. -/
theorem configured_of_bare {v : Value} (h : v.isDescriptor = false) : v.configured = [] := by
  cases v with
  | object members =>
    rw [isDescriptor] at h
    simp [configured, h]
  | _ => rfl

end Value

/-- A descriptor is read as its validators and the configurations beside them. -/
theorem Rule.ofValue_descriptor (field : String) {v : Value} (h : v.isDescriptor = true) :
    Rule.ofValue field v =
      (fun validators => .descriptor ⟨validators, v.configured⟩) <$>
        Validators.ofValue field v.declared := by
  obtain ⟨members, w, rfl, hget⟩ := Value.isDescriptor_iff.1 h
  have hhas : Fields.has members validatorsMember = true := h
  have hread : Fields.read members validatorsMember = w := by rw [Fields.read, hget]; rfl
  rw [Rule.ofValue, if_pos hhas, Value.declared, hget, Option.getD_some, Value.configured,
    if_pos hhas, Descriptor.ofFields, hread]
  cases Validators.ofValue field w <;> rfl

/-- Any other rule is read as its validators, up to the words for what cannot be read. -/
theorem Rule.ofValue_bare_eq_ok_iff {field : String} {v : Value} (h : v.isDescriptor = false)
    {rule : Rule} :
    Rule.ofValue field v = .ok rule ↔
      ∃ validators, Validators.ofValue field v = .ok validators ∧ rule = .bare validators := by
  cases v with
  | object members =>
    have hhas : ¬ Fields.has members validatorsMember = true := Bool.eq_false_iff.1 h
    rw [Rule.ofValue, if_neg hhas, Validators.ofValue]
    simp only [except_map_eq_ok]
    constructor
    · rintro ⟨specs, hspecs, rfl⟩
      exact ⟨.specs specs, ⟨specs, hspecs, rfl⟩, rfl⟩
    · rintro ⟨_, ⟨specs, hspecs, rfl⟩, rfl⟩
      exact ⟨specs, hspecs, rfl⟩
  | array items =>
    rw [Rule.ofValue, Validators.ofValue]
    simp only [except_map_eq_ok]
    constructor
    · rintro ⟨names, hnames, rfl⟩
      exact ⟨.list names, ⟨names, hnames, rfl⟩, rfl⟩
    · rintro ⟨_, ⟨names, hnames, rfl⟩, rfl⟩
      exact ⟨names, hnames, rfl⟩
  | string name => simp [Rule.ofValue, Validators.ofValue, eq_comm]
  | null => simp [Rule.ofValue, Validators.ofValue, Rule.empty, eq_comm]
  | bool b => simp [Rule.ofValue, Validators.ofValue]
  | number n => simp [Rule.ofValue, Validators.ofValue]

/-- A rule can be read exactly when the validators can that it declares. -/
theorem Rule.exists_ofValue_iff {field : String} {v : Value} :
    (∃ rule, Rule.ofValue field v = .ok rule) ↔
      ∃ validators, Validators.ofValue field v.declared = .ok validators := by
  cases hshape : v.isDescriptor with
  | true => rw [Rule.ofValue_descriptor field hshape, except_exists_map_iff]
  | false =>
    simp only [Rule.ofValue_bare_eq_ok_iff hshape, Value.declared_of_bare hshape]
    constructor
    · rintro ⟨-, validators, hread, -⟩
      exact ⟨validators, hread⟩
    · rintro ⟨validators, hread⟩
      exact ⟨_, validators, hread, rfl⟩

/-- The canonical form of a rule that is read: the specs of the validators that it declares, and
what it configures beside them. -/
theorem Rule.canonical_ofValue {field : String} {v : Value} {rule : Rule}
    (h : Rule.ofValue field v = .ok rule) :
    ∃ validators, Validators.ofValue field v.declared = .ok validators ∧
      rule.canonical = ⟨validators.toSpecs, v.configured⟩ := by
  cases hshape : v.isDescriptor with
  | true =>
    rw [Rule.ofValue_descriptor field hshape, except_map_eq_ok] at h
    obtain ⟨validators, hread, rfl⟩ := h
    exact ⟨validators, hread, rfl⟩
  | false =>
    obtain ⟨validators, hread, rfl⟩ := (Rule.ofValue_bare_eq_ok_iff hshape).1 h
    rw [Value.declared_of_bare hshape, Value.configured_of_bare hshape]
    exact ⟨validators, hread, rfl⟩

end Vetting
