import Vetting.Rule.FormOptions
import Vetting.Proofs.RuleShapes

/-!
# Options of a form plugin as rules written as data

The options of a form plugin are turned into field rules in two ways: directly, and by way of a
descriptor written in the language of rules (`descriptorOf`), which is then read like any other
rule. The two agree. A descriptor is made of options for the validators that the rules of a field
stand for: their values first (`valuesOf`), the messages of declared rules after (`setMessage`).
Both loops of the translation keep that their specs are what the options are read as (`Reads`), and
the second one finds options for every declared rule (`Covers`), so that no message of one is lost.

Which options can be translated is said without the translation (`Translatable`), one condition for
each place where it can fail; whatever fails is an invalid rule.
-/

set_option autoImplicit false

namespace Vetting

namespace Fields

variable {α β γ : Type}

/-- Changes the value of a name in place, if it has one. -/
def modify (fields : Fields α) (name : String) (f : α → α) : Fields α :=
  match fields.get? name with
  | some a => fields.put name (f a)
  | none => fields

/-- Changing the value under a name leaves the names. -/
theorem keys_modify (fields : Fields α) (name : String) (f : α → α) :
    (fields.modify name f).keys = fields.keys := by
  unfold modify
  cases hget : fields.get? name with
  | none => rfl
  | some a =>
    have hmem : name ∈ fields.keys := (get?_isSome_iff fields name).1 (by rw [hget]; rfl)
    exact (keys_put fields name (f a)).trans (if_pos hmem)

/-- Putting a value under a name adds that name only. -/
theorem mem_keys_put {fields : Fields α} {name other : String} {a : α} :
    other ∈ (fields.put name a).keys ↔ other ∈ fields.keys ∨ other = name := by
  rw [keys_put]
  split
  · next hmem =>
    refine (or_iff_left_of_imp ?_).symm
    rintro rfl
    exact hmem
  · rw [List.mem_append, List.mem_singleton]

/-- Merged fields have the names of both. -/
theorem mem_keys_merge {fields news : Fields α} {name : String} :
    name ∈ (fields.merge news).keys ↔ name ∈ fields.keys ∨ name ∈ news.keys := by
  induction news generalizing fields with
  | nil => exact (or_iff_left List.not_mem_nil).symm
  | cons entry rest ih =>
    have hcons : name ∈ keys (entry :: rest) ↔ name = entry.1 ∨ name ∈ keys rest := List.mem_cons
    calc name ∈ (fields.merge (entry :: rest)).keys
      _ ↔ name ∈ (fields.put entry.1 entry.2).keys ∨ name ∈ keys rest := ih
      _ ↔ name ∈ fields.keys ∨ name ∈ keys (entry :: rest) := by
        rw [mem_keys_put, hcons, or_assoc]

/-- Objects are read alike after a change that their members are read alike after. -/
theorem mapMembers_modify {decode : String → α → Except SetupError β} {members : Fields α}
    {decoded : Fields β} (h : mapMembers decode members = .ok decoded) {name : String}
    {f : α → α} {g : β → β}
    (hchange : ∀ a b, decode name a = .ok b → decode name (f a) = .ok (g b)) :
    mapMembers decode (members.modify name f) = .ok (decoded.modify name g) := by
  have hmember := get?_mapMembers h name
  unfold modify
  cases hget : members.get? name with
  | none =>
    rw [hget] at hmember
    rw [show decoded.get? name = none from hmember]
    exact h
  | some a =>
    rw [hget] at hmember
    obtain ⟨b, hread, hget'⟩ := hmember
    rw [hget']
    exact mapMembers_put h (hchange a b hread)

/-- Members may be changed before they are decoded, or as part of it. -/
theorem mapMembers_mapValues (f : α → β) (decode : String → β → Except SetupError γ)
    (members : Fields α) :
    mapMembers decode (members.mapValues f) =
      mapMembers (fun name a => decode name (f a)) members := by
  induction members with
  | nil => rfl
  | cons entry rest ih =>
    obtain ⟨name, a⟩ := entry
    rw [mapValues] at ih
    rw [mapValues, List.map_cons, mapMembers, mapMembers, ih]

end Fields

/-- Options that gain a text for the message are read as the spec that gains it. -/
theorem Spec.ofValue_put_message {field : String} {options : Fields Value} {spec : Spec}
    (h : Spec.ofValue field (.object options) = .ok spec) (s : String) :
    Spec.ofValue field (.object (options.put "message" (.string s))) =
      .ok (spec.withMessage (.text s)) := by
  obtain ⟨message, -, h⟩ := except_bind_eq_ok.1 h
  obtain ⟨expected, hexpected, h⟩ := except_bind_eq_ok.1 h
  cases h
  rw [Spec.ofValue, Fields.get?_put_of_ne options (.string s) (by decide : "values" ≠ "message"),
    Fields.get?_put_self,
    Fields.get?_put_of_ne options (.string s) (by decide : "expectedResult" ≠ "message"), hexpected]
  rfl

namespace FormOptions

/-! ## The descriptor of a field -/

/-- The selector that a value gives: a text, or the first item of a list if that is a text. -/
def selector? : Value → Option String
  | .string selector => some selector
  | .array (.string selector :: _) => some selector
  | _ => none

/-- The value of a rule in the language of rules: for `equalTo` the dependency on the field that its
selector names, and the value itself for any other rule. -/
def valueOf (rule : String) (v : Value) : Value :=
  if rule = "equalTo" then
    .object [("dependsField", .string (selected ((selector? v).getD "")))]
  else v

/-- The validator that a rule stands for and its options, without a message. -/
def validatorOf (entry : String × Value) : String × Fields Value :=
  (validatorName entry.1, [("values", valueOf entry.1 entry.2)])

/-- The validators that rules stand for and their options: two rules for one validator give it the
place of the first and the options of the last. -/
def valuesOf (rules : Fields Value) : Fields (Fields Value) :=
  Fields.ofPairs (rules.map validatorOf)

/-- Sets the message of the validator that a rule stands for, if the rule is declared. -/
def setMessage (rules : Fields Value) (options : Fields (Fields Value)) (entry : String × Value) :
    Fields (Fields Value) :=
  if rules.has entry.1 then
    let members := (options.get? (validatorName entry.1)).getD []
    options.put (validatorName entry.1) (members.put "message" entry.2)
  else options

/-- The descriptor that the rules of a field and their messages stand for. -/
def descriptorOf (rules texts : Fields Value) : Value :=
  let options := texts.foldl (setMessage rules) (valuesOf rules)
  .object [(validatorsMember, .object (options.mapValues .object))]

/-! ## Which options can be translated -/

/-- A section of the options, which is empty if it is absent or null. -/
inductive IsSection (options : Value) (name : String) : Fields Value → Prop
  | absent (h : Fields.get? (options.fields?.getD []) name = none) : IsSection options name []
  | null (h : Fields.get? (options.fields?.getD []) name = some .null) : IsSection options name []
  | members {members : Fields Value}
      (h : Fields.get? (options.fields?.getD []) name = some (.object members)) :
      IsSection options name members

/-- The messages of one field, which are none if the field has no entry. -/
inductive IsTexts (messages : Fields Value) (field : String) : Fields Value → Prop
  | absent (h : messages.get? field = none) : IsTexts messages field []
  | members {texts : Fields Value} (h : messages.get? field = some (.object texts)) :
      IsTexts messages field texts

/-- The rules of a field and its messages, as they can be translated: every `equalTo` has a
selector, and the messages of declared rules are texts. -/
structure Declares (messages : Fields Value) (field : String) (v : Value)
    (rules texts : Fields Value) : Prop where
  rules_eq : v = .object rules
  isTexts : IsTexts messages field texts
  selectors : ∀ entry ∈ rules, entry.1 = "equalTo" → (selector? entry.2).isSome
  strings : ∀ entry ∈ texts, rules.has entry.1 → entry.2.kind = .string

/-- Options that can be translated, with the rules and the messages in them. -/
structure Translatable (options : Value) (rules messages : Fields Value) : Prop where
  isRules : IsSection options "rules" rules
  isMessages : IsSection options "messages" messages
  fields : ∀ entry ∈ rules, ∃ declared texts, Declares messages entry.1 entry.2 declared texts

/-! ## What can be translated -/

/-- The members of a value are read if it is an object. -/
theorem objectOf_eq_ok_iff {field name : String} {v : Value} {members : Fields Value} :
    objectOf field name v = .ok members ↔ v = .object members := by
  cases v <;> simp [objectOf]

/-- A section is read if it is one. -/
theorem sectionOf_eq_ok_iff {options : Value} {name : String} {members : Fields Value} :
    sectionOf options name = .ok members ↔ IsSection options name members := by
  unfold sectionOf
  constructor
  · intro h
    split at h
    · next hget =>
      cases h
      exact .absent hget
    · next hget =>
      cases h
      exact .null hget
    · next hget =>
      rw [objectOf_eq_ok_iff.1 h] at hget
      exact .members hget
  · rintro (h | h | h)
    all_goals rw [h]
    rfl

/-- The messages of one field; there are none if the field has no entry. -/
def textsOf (messages : Fields Value) (field : String) : Except SetupError (Fields Value) :=
  match messages.get? field with
  | none => .ok []
  | some texts => objectOf field "messages" texts

/-- The messages of a field are read if they are such. -/
theorem textsOf_eq_ok_iff {messages : Fields Value} {field : String} {texts : Fields Value} :
    textsOf messages field = .ok texts ↔ IsTexts messages field texts := by
  unfold textsOf
  constructor
  · intro h
    split at h
    · next hget =>
      cases h
      exact .absent hget
    · next hget =>
      rw [objectOf_eq_ok_iff.1 h] at hget
      exact .members hget
  · rintro (h | h)
    all_goals rw [h]
    rfl

/-- The rule of a field in four steps: its rules, their specs, its messages, the specs with them. -/
theorem fieldRule_eq (messages : Fields Value) (field : String) (v : Value) :
    fieldRule messages field v =
      (objectOf field "rules" v >>= fun rules =>
        addSpecs field rules [] >>= fun specs =>
        textsOf messages field >>= fun texts =>
        addMessages field rules texts specs >>= fun specs =>
        return .descriptor ⟨.specs specs, []⟩) := by
  unfold fieldRule textsOf
  cases messages.get? field <;> rfl

/-- The value of an `equalTo` names the field that a selector stands for, and must be one. -/
theorem paramsOf_equalTo (field : String) (v : Value) :
    paramsOf field "equalTo" v =
      match selector? v with
      | some selector => .ok [.dependsOn (selected selector)]
      | none => .error (.invalidRule field .missingSelector) := by
  cases v with
  | string selector => rfl
  | array items =>
    cases items with
    | nil => rfl
    | cons item rest => cases item <;> rfl
  | _ => rfl

/-- A rule has the parameters of its value in the language of rules, if it has the selector that it
needs. -/
theorem paramsOf_eq_ok_iff {field rule : String} {v : Value} {params : List Param} :
    paramsOf field rule v = .ok params ↔
      (rule = "equalTo" → (selector? v).isSome) ∧ Param.listOfValue (valueOf rule v) = params := by
  by_cases hrule : rule = "equalTo"
  · subst hrule
    rw [paramsOf_equalTo, valueOf, if_pos rfl]
    cases selector? v with
    | some selector =>
      rw [Except.ok.injEq]
      exact (and_iff_right fun _ => rfl).symm
    | none => simp
  · unfold paramsOf valueOf
    rw [if_neg hrule, if_neg hrule, Except.ok.injEq]
    exact (and_iff_right fun h => absurd h hrule).symm

/-- The specs of a field are added when its rules have the selectors that they need. -/
theorem exists_addSpecs_iff {field : String} {rules : Fields Value} {specs : Fields Spec} :
    (∃ specs', addSpecs field rules specs = .ok specs') ↔
      ∀ entry ∈ rules, entry.1 = "equalTo" → (selector? entry.2).isSome := by
  induction rules generalizing specs with
  | nil => simp [addSpecs]
  | cons entry rest ih =>
    obtain ⟨rule, v⟩ := entry
    rw [List.forall_mem_cons]
    constructor
    · rintro ⟨specs', h⟩
      obtain ⟨params, hparams, h⟩ := except_bind_eq_ok.1 h
      exact ⟨(paramsOf_eq_ok_iff.1 hparams).1, ih.1 ⟨specs', h⟩⟩
    · rintro ⟨hselector, hrest⟩
      obtain ⟨specs', h⟩ := ih.2 hrest
      exact ⟨specs', except_bind_eq_ok.2 ⟨_, paramsOf_eq_ok_iff.2 ⟨hselector, rfl⟩, h⟩⟩

section Messages

variable {field rule : String} {rules : Fields Value}

/-- The message of a rule that is not declared is left alone. -/
theorem addMessages_undeclared (h : rules.has rule = false) (text : Value)
    (rest : Fields Value) (specs : Fields Spec) :
    addMessages field rules ((rule, text) :: rest) specs = addMessages field rules rest specs := by
  conv_lhs => unfold addMessages
  exact if_pos (by rw [h]; rfl)

/-- The message of a declared rule is set when it is a text. -/
theorem addMessages_string (h : rules.has rule = true) (s : String) (rest : Fields Value)
    (specs : Fields Spec) :
    addMessages field rules ((rule, .string s) :: rest) specs =
      addMessages field rules rest
        (specs.modify (validatorName rule) fun spec => spec.withMessage (.text s)) := by
  rw [addMessages, if_neg (by rw [h]; decide)]
  unfold Fields.modify
  cases hget : specs.get? (validatorName rule) <;> simp only [hget]

/-- The message of a declared rule has to be a text. -/
theorem addMessages_other (h : rules.has rule = true) {text : Value} (htext : text.kind ≠ .string)
    (rest : Fields Value) (specs : Fields Spec) :
    addMessages field rules ((rule, text) :: rest) specs =
      .error (.invalidRule field (.messageTextKind rule)) := by
  cases text with
  | string s => exact absurd rfl htext
  | _ =>
    rw [addMessages, if_neg (by rw [h]; decide)]
    all_goals nofun

/-- The three kinds of entries among the messages of a field. -/
theorem message_cases (rules : Fields Value) (rule : String) (text : Value) :
    rules.has rule = false ∨ (rules.has rule = true ∧ ∃ s, text = .string s) ∨
      (rules.has rule = true ∧ text.kind ≠ .string) := by
  cases rules.has rule with
  | false => exact .inl rfl
  | true =>
    cases text with
    | string s => exact .inr (.inl ⟨rfl, s, rfl⟩)
    | _ => exact .inr (.inr ⟨rfl, nofun⟩)

/-- The messages of a field are set when those of declared rules are texts. -/
theorem exists_addMessages_iff {texts : Fields Value} {specs : Fields Spec} :
    (∃ specs', addMessages field rules texts specs = .ok specs') ↔
      ∀ entry ∈ texts, rules.has entry.1 → entry.2.kind = .string := by
  induction texts generalizing specs with
  | nil => simp [addMessages]
  | cons entry rest ih =>
    obtain ⟨rule, text⟩ := entry
    rw [List.forall_mem_cons]
    obtain hhas | ⟨hhas, s, rfl⟩ | ⟨hhas, htext⟩ := message_cases rules rule text
    · rw [addMessages_undeclared hhas, ih]
      exact (and_iff_right fun h => absurd h (Bool.eq_false_iff.1 hhas)).symm
    · rw [addMessages_string hhas, ih]
      exact (and_iff_right fun _ => rfl).symm
    · rw [addMessages_other hhas htext]
      exact ⟨nofun, fun h => absurd (h.1 hhas) htext⟩

end Messages

/-! ## What the translation means -/

/-- Options with a place for the message of every declared rule. -/
def Covers (options : Fields (Fields Value)) (rules : Fields Value) : Prop :=
  ∀ rule ∈ rules.keys, validatorName rule ∈ options.keys

/-- The options that the values of rules are turned into have a place for every message. -/
theorem covers_valuesOf (rules : Fields Value) : Covers (valuesOf rules) rules := by
  intro rule hrule
  obtain ⟨entry, hentry, rfl⟩ := List.mem_map.1 hrule
  refine Fields.mem_keys_merge.2 (Or.inr (List.mem_map.2 ⟨validatorOf entry, ?_, rfl⟩))
  exact List.mem_map_of_mem hentry

/-- Changing the options of one validator leaves a place for every message. -/
theorem Covers.modify {options : Fields (Fields Value)} {rules : Fields Value}
    (h : Covers options rules) (name : String) (f : Fields Value → Fields Value) :
    Covers (options.modify name f) rules := by
  intro rule hrule
  rw [Fields.keys_modify]
  exact h rule hrule

/-- The message of a declared rule is set in options that the rule has already. -/
theorem Covers.setMessage {options : Fields (Fields Value)} {rules : Fields Value}
    (h : Covers options rules) {rule : String} (hhas : rules.has rule = true) (text : Value) :
    FormOptions.setMessage rules options (rule, text) =
      options.modify (validatorName rule) fun members => members.put "message" text := by
  have hmem := h rule ((Fields.get?_isSome_iff rules rule).1 hhas)
  obtain ⟨members, hget⟩ :=
    Option.isSome_iff_exists.1 ((Fields.get?_isSome_iff options (validatorName rule)).2 hmem)
  rw [FormOptions.setMessage, if_pos hhas, Fields.modify, hget]
  rfl

/-- Specs that options of validators are read as. -/
def Reads (field : String) (options : Fields (Fields Value)) (specs : Fields Spec) : Prop :=
  Fields.mapMembers (fun _ members => Spec.ofValue field (.object members)) options = .ok specs

namespace Reads

variable {field : String} {options : Fields (Fields Value)} {specs specs' : Fields Spec}
  {rules texts : Fields Value}

/-- The descriptor with such options is read as the descriptor with their specs. -/
theorem rule (h : Reads field options specs) :
    Rule.ofValue field (.object [(validatorsMember, .object (options.mapValues .object))]) =
      .ok (.descriptor ⟨.specs specs, []⟩) := by
  have hread : Validators.ofValue field (.object (options.mapValues .object)) =
      .ok (.specs specs) := by
    rw [Validators.ofValue, Spec.mapOfFields, Fields.mapMembers_mapValues, show _ = _ from h]
    rfl
  rw [Rule.ofValue_descriptor field rfl]
  exact except_map_eq_ok.2 ⟨_, hread, rfl⟩

/-- One rule: its options are read as a spec with its parameters. -/
theorem put (h : Reads field options specs) (name : String) (v : Value) :
    Reads field (options.put name [("values", v)])
      (specs.put name (.ofValues (Param.listOfValue v))) :=
  Fields.mapMembers_put h rfl

/-- Adding the rules of a field to specs adds their options to those that are read. -/
theorem addSpecs (h : Reads field options specs)
    (hadd : FormOptions.addSpecs field rules specs = .ok specs') :
    Reads field (options.merge (rules.map validatorOf)) specs' := by
  induction rules generalizing options specs with
  | nil =>
    cases hadd
    exact h
  | cons entry rest ih =>
    obtain ⟨rule, v⟩ := entry
    obtain ⟨params, hparams, hadd⟩ := except_bind_eq_ok.1 hadd
    obtain ⟨-, rfl⟩ := paramsOf_eq_ok_iff.1 hparams
    exact ih (h.put (validatorName rule) (valueOf rule v)) hadd

/-- One message: the options that gain it are read as the specs that gain it. -/
theorem modify (h : Reads field options specs) (name s : String) :
    Reads field (options.modify name fun members => members.put "message" (.string s))
      (specs.modify name fun spec => spec.withMessage (.text s)) :=
  Fields.mapMembers_modify h fun _ _ hread => Spec.ofValue_put_message hread s

/-- Adding the messages of a field to specs puts them into the options that are read. -/
theorem addMessages (h : Reads field options specs) (hcovers : Covers options rules)
    (hadd : FormOptions.addMessages field rules texts specs = .ok specs') :
    Reads field (texts.foldl (setMessage rules) options) specs' := by
  induction texts generalizing options specs with
  | nil =>
    cases hadd
    exact h
  | cons entry rest ih =>
    obtain ⟨rule, text⟩ := entry
    rw [List.foldl_cons]
    obtain hhas | ⟨hhas, s, rfl⟩ | ⟨hhas, htext⟩ := message_cases rules rule text
    · rw [addMessages_undeclared hhas] at hadd
      rw [setMessage, if_neg (Bool.eq_false_iff.1 hhas)]
      exact ih h hcovers hadd
    · rw [addMessages_string hhas] at hadd
      rw [hcovers.setMessage hhas]
      exact ih (h.modify (validatorName rule) s) (hcovers.modify _ _) hadd
    · rw [addMessages_other hhas htext] at hadd
      cases hadd

end Reads

section Fields

variable {messages : Fields Value} {field : String} {v : Value} {rule : Rule}

/-- The rule of a field is a descriptor with the specs of its rules and messages. -/
theorem fieldRule_eq_ok_iff :
    fieldRule messages field v = .ok rule ↔
      ∃ rules texts specs specs', v = .object rules ∧ IsTexts messages field texts ∧
        addSpecs field rules [] = .ok specs ∧ addMessages field rules texts specs = .ok specs' ∧
        rule = .descriptor ⟨.specs specs', []⟩ := by
  simp only [fieldRule_eq, except_bind_eq_ok, objectOf_eq_ok_iff, textsOf_eq_ok_iff]
  constructor
  · rintro ⟨rules, hrules, specs, hspecs, texts, htexts, specs', hspecs', h⟩
    cases h
    exact ⟨rules, texts, specs, specs', hrules, htexts, hspecs, hspecs', rfl⟩
  · rintro ⟨rules, texts, specs, specs', hrules, htexts, hspecs, hspecs', rfl⟩
    exact ⟨rules, hrules, specs, hspecs, texts, htexts, specs', hspecs', rfl⟩

/-- The rule of a field can be translated exactly when it declares rules and messages that can. -/
theorem exists_fieldRule_iff :
    (∃ rule, fieldRule messages field v = .ok rule) ↔
      ∃ rules texts, Declares messages field v rules texts := by
  simp only [fieldRule_eq_ok_iff]
  constructor
  · rintro ⟨-, rules, texts, specs, specs', hrules, htexts, hspecs, hspecs', -⟩
    exact ⟨rules, texts, hrules, htexts, exists_addSpecs_iff.1 ⟨specs, hspecs⟩,
      exists_addMessages_iff.1 ⟨specs', hspecs'⟩⟩
  · rintro ⟨rules, texts, h⟩
    obtain ⟨specs, hspecs⟩ := exists_addSpecs_iff.2 h.selectors
    obtain ⟨specs', hspecs'⟩ := exists_addMessages_iff.2 h.strings
    exact ⟨_, rules, texts, specs, specs', h.rules_eq, h.isTexts, hspecs, hspecs', rfl⟩

/-- The rule of a field is what the descriptor of its rules and messages is read as. -/
theorem ofValue_descriptorOf (h : fieldRule messages field v = .ok rule) :
    ∃ rules texts, Declares messages field v rules texts ∧
      Rule.ofValue field (descriptorOf rules texts) = .ok rule := by
  obtain ⟨rules, texts, specs, specs', hrules, htexts, hspecs, hspecs', rfl⟩ :=
    fieldRule_eq_ok_iff.1 h
  have hstart : Reads field [] [] := rfl
  have hvalues : Reads field (valuesOf rules) specs := hstart.addSpecs hspecs
  have hoptions := hvalues.addMessages (covers_valuesOf rules) hspecs'
  exact ⟨rules, texts, ⟨hrules, htexts, exists_addSpecs_iff.1 ⟨specs, hspecs⟩,
    exists_addMessages_iff.1 ⟨specs', hspecs'⟩⟩, hoptions.rule⟩

end Fields

/-- Options that can be translated are, field by field. -/
theorem Translatable.ruleMap {options : Value} {rules messages : Fields Value}
    (h : Translatable options rules messages) :
    ∃ map, FormOptions.ruleMap options = .ok map ∧
      Fields.mapMembers (fieldRule messages) rules = .ok map := by
  obtain ⟨map, hmap⟩ := Fields.exists_mapMembers_iff.2 fun entry hentry =>
    exists_fieldRule_iff.2 (h.fields entry hentry)
  refine ⟨map, except_bind_eq_ok.2 ⟨rules, sectionOf_eq_ok_iff.2 h.isRules, ?_⟩, hmap⟩
  exact except_bind_eq_ok.2 ⟨messages, sectionOf_eq_ok_iff.2 h.isMessages, hmap⟩

/-- Options that are translated can be. -/
theorem translatable_of_ok {options : Value} {map : Fields Rule} (h : ruleMap options = .ok map) :
    ∃ rules messages, Translatable options rules messages := by
  obtain ⟨rules, hrules, h⟩ := except_bind_eq_ok.1 h
  obtain ⟨messages, hmessages, h⟩ := except_bind_eq_ok.1 h
  refine ⟨rules, messages, sectionOf_eq_ok_iff.1 hrules, sectionOf_eq_ok_iff.1 hmessages, ?_⟩
  intro entry hentry
  exact exists_fieldRule_iff.1 (Fields.exists_mapMembers_iff.1 ⟨map, h⟩ entry hentry)

/-! ## What is reported -/

/-- A value that is no object is reported for its field. -/
theorem invalidAt_objectOf (field name : String) (v : Value) :
    InvalidAt field (objectOf field name v) := by
  cases v with
  | object members => exact .ok members
  | _ => exact .invalid _

/-- A section that is none is reported by its name. -/
theorem invalidAt_sectionOf (options : Value) (name : String) :
    InvalidAt name (sectionOf options name) := by
  unfold sectionOf
  split
  · exact .ok []
  · exact .ok []
  · exact invalidAt_objectOf name name _

/-- A value of a rule that cannot be read is reported for the field. -/
theorem invalidAt_paramsOf (field rule : String) (v : Value) :
    InvalidAt field (paramsOf field rule v) := by
  unfold paramsOf
  split
  · split
    · exact .ok _
    · exact .ok _
    · exact .invalid _
  · exact .ok _

/-- A rule that cannot be read is reported for its field. -/
theorem invalidAt_addSpecs (field : String) (rules : Fields Value) (specs : Fields Spec) :
    InvalidAt field (addSpecs field rules specs) := by
  induction rules generalizing specs with
  | nil => exact .ok specs
  | cons entry rest ih => exact (invalidAt_paramsOf field entry.1 entry.2).bind fun _ => ih _

/-- A message that cannot be read is reported for its field. -/
theorem invalidAt_addMessages (field : String) (rules texts : Fields Value)
    (specs : Fields Spec) : InvalidAt field (addMessages field rules texts specs) := by
  induction texts generalizing specs with
  | nil => exact .ok specs
  | cons entry rest ih =>
    obtain ⟨rule, text⟩ := entry
    obtain hhas | ⟨hhas, s, rfl⟩ | ⟨hhas, htext⟩ := message_cases rules rule text
    · rw [addMessages_undeclared hhas]
      exact ih specs
    · rw [addMessages_string hhas]
      exact ih _
    · rw [addMessages_other hhas htext]
      exact .invalid _

/-- Messages of a field that are no object are reported for the field. -/
theorem invalidAt_textsOf (messages : Fields Value) (field : String) :
    InvalidAt field (textsOf messages field) := by
  unfold textsOf
  split
  · exact .ok []
  · exact invalidAt_objectOf field "messages" _

/-- Whatever cannot be read about the rules and the messages of a field is reported for the field.
-/
theorem invalidAt_fieldRule (messages : Fields Value) (field : String) (v : Value) :
    InvalidAt field (fieldRule messages field v) := by
  rw [fieldRule_eq]
  refine (invalidAt_objectOf field "rules" v).bind fun rules => ?_
  refine (invalidAt_addSpecs field rules []).bind fun specs => ?_
  refine (invalidAt_textsOf messages field).bind fun texts => ?_
  exact (invalidAt_addMessages field rules texts specs).bind fun specs' => .ok _

/-- Options that cannot be translated are an invalid rule. -/
theorem invalidRule_of_error {options : Value} {e : SetupError} (h : ruleMap options = .error e) :
    ∃ field fault, e = .invalidRule field fault := by
  cases hrules : sectionOf options "rules" with
  | error e' =>
    rw [ruleMap, hrules] at h
    cases h
    exact ⟨"rules", invalidAt_sectionOf options "rules" e hrules⟩
  | ok rules =>
    cases hmessages : sectionOf options "messages" with
    | error e' =>
      rw [ruleMap, hrules, hmessages] at h
      cases h
      exact ⟨"messages", invalidAt_sectionOf options "messages" e hmessages⟩
    | ok messages =>
      have hread : Fields.mapMembers (fieldRule messages) rules = .error e := by
        rw [ruleMap, hrules, hmessages] at h
        exact h
      obtain ⟨-, field, v, -, -, -, herror⟩ := Fields.mapMembers_eq_error hread
      exact ⟨field, invalidAt_fieldRule messages field v e herror⟩

/-- Options are translated when they can be, into a rule for each field in order, which is what the
descriptor of the field's rules and messages is read as; all other options are an invalid rule. -/
theorem ruleMap_agrees (options : Value) :
    (∀ rules messages, Translatable options rules messages →
      ∃ map, ruleMap options = .ok map ∧
        List.Forall₂ (fun given translated => given.1 = translated.1 ∧
          ∃ declared texts, Declares messages given.1 given.2 declared texts ∧
            Rule.ofValue given.1 (descriptorOf declared texts) = .ok translated.2) rules map) ∧
      ((¬ ∃ rules messages, Translatable options rules messages) →
        ∃ field fault, ruleMap options = .error (.invalidRule field fault)) := by
  constructor
  · intro rules messages h
    obtain ⟨map, hmap, hfields⟩ := h.ruleMap
    refine ⟨map, hmap, (Fields.mapMembers_eq_ok_iff.1 hfields).imp ?_⟩
    intro given translated hentry
    exact ⟨hentry.1, ofValue_descriptorOf hentry.2⟩
  · intro h
    cases hmap : ruleMap options with
    | ok map => exact absurd (translatable_of_ok hmap) h
    | error e =>
      obtain ⟨field, fault, rfl⟩ := invalidRule_of_error hmap
      exact ⟨field, fault, rfl⟩

/-- Two rules of the age stand for one validator, and the messages of an undeclared rule and of an
undeclared field are no texts. -/
def signupRules : Fields Value :=
  [("age", .object [("min", .ofInt 18), ("required", .bool true), ("minValue", .ofInt 21)]),
   ("confirm", .object [("equalTo", .array [.string "##password", .null])])]

/-- The messages that go with `signupRules`. -/
def signupMessages : Fields Value :=
  [("age", .object [("min", .string "Adults only"), ("max", .ofInt 99)]), ("city", .ofInt 3)]

/-- A form with `signupRules` and `signupMessages`. -/
def signupOptions : Value :=
  .object [("messages", .object signupMessages), ("rules", .object signupRules)]

/-- The options of a form with an age and a confirmed password are translated into two rules, and
options whose rules are a list are refused. -/
theorem ruleMap_agrees_signup :
    Translatable signupOptions signupRules signupMessages ∧
      (∃ age confirm, ruleMap signupOptions = .ok [("age", age), ("confirm", confirm)] ∧
        Rule.ofValue "age" (.object [(validatorsMember, .object
          [("minValue", .object [("values", .ofInt 21), ("message", .string "Adults only")]),
           ("required", .object [("values", .bool true)])])]) = .ok age ∧
        Rule.ofValue "confirm" (.object [(validatorsMember, .object
          [("equalsTo", .object
            [("values", .object [("dependsField", .string "password")])])])]) = .ok confirm) ∧
      ∃ field fault,
        ruleMap (.object [("rules", .array [.ofInt 1])]) = .error (.invalidRule field fault) := by
  have hsignup : Translatable signupOptions signupRules signupMessages := by
    refine ⟨.members rfl, .members rfl, ?_⟩
    rintro entry (_ | ⟨_, _ | ⟨_, ⟨⟩⟩⟩)
    · exact ⟨_, _, rfl, .members rfl, by decide, by decide⟩
    · exact ⟨_, _, rfl, .absent rfl, by decide, by decide⟩
  refine ⟨hsignup, ?_, ?_⟩
  · obtain ⟨map, hmap, hfields⟩ := (ruleMap_agrees signupOptions).1 _ _ hsignup
    obtain ⟨⟨_, age⟩, _, ⟨rfl, _, _, hage, hreadAge⟩, hrest, rfl⟩ :=
      List.forall₂_cons_left_iff.1 hfields
    obtain ⟨⟨_, confirm⟩, _, ⟨rfl, _, _, hconfirm, hreadConfirm⟩, hnil, rfl⟩ :=
      List.forall₂_cons_left_iff.1 hrest
    cases hnil
    cases hage.rules_eq
    cases textsOf_eq_ok_iff.2 hage.isTexts
    cases hconfirm.rules_eq
    cases textsOf_eq_ok_iff.2 hconfirm.isTexts
    exact ⟨age, confirm, hmap, hreadAge, hreadConfirm⟩
  · refine (ruleMap_agrees (.object [("rules", .array [.ofInt 1])])).2 ?_
    rintro ⟨rules, messages, h⟩
    have hrules := sectionOf_eq_ok_iff.2 h.isRules
    cases hrules

end FormOptions

end Vetting
