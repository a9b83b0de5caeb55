import Vetting.Proofs.ModuleLocality
import Vetting.Proofs.RelatedEvaluations

/-!
# What the evaluation of a field looks at

Rules without functions name the fields that they look at: the field itself, the fields that its
validators depend on, those that the rules of these depend on, and so on. These fields, the closure
of the field, are all that its evaluation looks at and all that it changes. Two records that agree
on the closure are evaluated to the same end, and agree on it afterwards (`judgeField_local`). Only
the default message of a validator can look elsewhere, if it is computed from the record and no
other message takes its place; the theorem asks that it does not, and `judgeField_elsewhere` shows
an evaluation in which it does.

The two evaluations are related runs. The relation of their records (`Paired`) says that the records
agree within the closure and are what they were outside of it; callers and results are equal.
-/

set_option autoImplicit false

namespace Vetting

/-- Two records that may be changed within some fields: they agree there, and outside they are what
they were at the start. -/
structure Paired (inside : String → Prop) (start start' r r' : Record) : Prop where
  agree : ∀ name, inside name → r.get? name = r'.get? name
  left : ∀ name, ¬ inside name → r.get? name = start.get? name
  right : ∀ name, ¬ inside name → r'.get? name = start'.get? name

namespace Paired

variable {inside : String → Prop} {start start' r r' : Record}

/-- Records that agree within some fields may be changed there. -/
theorem refl (h : ∀ name, inside name → start.get? name = start'.get? name) :
    Paired inside start start' start start' :=
  ⟨h, fun _ _ => rfl, fun _ _ => rfl⟩

/-- Records that agree within some fields hold the same value in each of them. -/
theorem read_eq (h : Paired inside start start' r r') {name : String} (hname : inside name) :
    r.read name = r'.read name := by
  rw [Fields.read, h.agree name hname, Fields.read]

/-- Records that agree within some fields still do when the same is written into one of them. -/
theorem putIf (h : Paired inside start start' r r') {name : String} (hname : inside name)
    (written : Option Value) :
    Paired inside start start' (r.putIf name written) (r'.putIf name written) := by
  cases written with
  | none => exact h
  | some v =>
    have hapart : ∀ other, ¬ inside other → other ≠ name := by
      intro other hother hsame
      rw [hsame] at hother
      exact hother hname
    refine ⟨fun other hother => ?_, fun other hother => ?_, fun other hother => ?_⟩
    · by_cases hsame : other = name
      · simp only [hsame, Fields.putIf, Fields.get?_put_self]
      · simp only [Fields.putIf, Fields.get?_put_of_ne _ v hsame]
        exact h.agree other hother
    · simp only [Fields.putIf, Fields.get?_put_of_ne _ v (hapart other hother)]
      exact h.left other hother
    · simp only [Fields.putIf, Fields.get?_put_of_ne _ v (hapart other hother)]
      exact h.right other hother

end Paired

/-- A message goes by some fields of the record only. -/
def Message.Within (inside : String → Prop) (message : Message) : Prop :=
  ∀ record record' : Record, (∀ name, inside name → record.get? name = record'.get? name) →
    ∀ arguments, message.template record arguments = message.template record' arguments

/-- Whether a message is a text, and not computed. -/
def Message.isText : Message → Bool
  | .text _ => true
  | .computed _ => false

/-- A fixed text goes by no field at all. -/
theorem Message.within_of_isText (inside : String → Prop) {message : Message}
    (h : message.isText = true) : message.Within inside := by
  cases message with
  | text s => exact fun _ _ _ _ => rfl
  | computed hook => cases h

/-- A field rule that spells its validators out: parameters, messages and expected results are not
computed from the record. -/
structure Rule.Explicit (rule : Rule) : Prop where
  plain : rule.Plain
  messages : ∀ name spec, (name, spec) ∈ rule.canonical.validators →
    ∀ message, spec.message = some message → message.isText = true

/-- A field rule that holds no function at its own level but predicates. Rules for a nested record
may hold functions. -/
structure Rule.FunctionFree (rule : Rule) : Prop extends rule.Explicit where
  configs : ∀ entry ∈ rule.canonical.modules, ∀ hook, entry.2 ≠ .function hook

/-- Whether the values, the message and the expected result of a spec are spelled out. -/
def Spec.isExplicit (spec : Spec) : Bool :=
  (spec.values.all fun | .computed _ => false | _ => true) &&
    (spec.expected.all fun | .computed _ => false | .literal _ => true) &&
    spec.message.all Message.isText

/-- A validator is explicit if it is plain, and so is its message, if it has one. -/
theorem Spec.isExplicit_iff (spec : Spec) :
    spec.isExplicit = true ↔
      spec.Plain ∧ ∀ message, spec.message = some message → message.isText = true := by
  rw [isExplicit, Bool.and_eq_true, Bool.and_eq_true, List.all_eq_true, Option.all_eq_true,
    Option.all_eq_true]
  constructor
  · rintro ⟨⟨hvalues, hexpected⟩, hmessage⟩
    refine ⟨⟨fun hook hmem => ?_, fun hook hsome => ?_⟩, hmessage⟩
    · exact absurd (hvalues _ hmem) Bool.false_ne_true
    · exact absurd (hexpected _ hsome) Bool.false_ne_true
  · rintro ⟨hplain, hmessage⟩
    refine ⟨⟨fun param hmem => ?_, fun expected hsome => ?_⟩, hmessage⟩
    · cases param with
      | computed hook => exact absurd hmem (hplain.values hook)
      | _ => rfl
    · cases expected with
      | computed hook => exact absurd hsome (hplain.expected hook)
      | literal b => rfl

/-- Whether a rule is explicit can be read off its validators. -/
theorem Rule.explicit_iff (rule : Rule) :
    rule.Explicit ↔ ∀ entry ∈ rule.canonical.validators, entry.2.isExplicit = true := by
  constructor
  · rintro ⟨hplain, hmessages⟩ ⟨name, spec⟩ hspec
    exact spec.isExplicit_iff.2 ⟨hplain name spec hspec, hmessages name spec hspec⟩
  · intro h
    constructor
    · exact fun name spec hspec => (spec.isExplicit_iff.1 (h _ hspec)).1
    · exact fun name spec hspec => (spec.isExplicit_iff.1 (h _ hspec)).2

instance (rule : Rule) : Decidable rule.Explicit :=
  decidable_of_iff _ rule.explicit_iff.symm

/-- Whether a configuration is a function. -/
def Configuration.isFunction : Configuration → Bool
  | .function _ => true
  | _ => false

/-- Whether a rule is free of functions can be read off its validators and modules. -/
theorem Rule.functionFree_iff (rule : Rule) :
    rule.FunctionFree ↔
      rule.Explicit ∧ ∀ entry ∈ rule.canonical.modules, entry.2.isFunction = false := by
  constructor
  · rintro ⟨hexplicit, hconfigs⟩
    refine ⟨hexplicit, fun entry hentry => ?_⟩
    cases hconfig : entry.2 with
    | function hook => exact absurd hconfig (hconfigs entry hentry hook)
    | _ => rfl
  · rintro ⟨hexplicit, hconfigs⟩
    refine ⟨hexplicit, fun entry hentry hook hconfig => ?_⟩
    have hfunction := hconfigs entry hentry
    rw [hconfig] at hfunction
    cases hfunction

instance (rule : Rule) : Decidable rule.FunctionFree :=
  decidable_of_iff _ rule.functionFree_iff.symm

/-- The rule that a field has while some field is evaluated by a rule of its own. -/
def ruleOf (rules : Fields Rule) (field : String) (rule : Rule) (name : String) : Option Rule :=
  if name = field then some rule else rules.get? name

/-- The fields that the evaluation of a field by a rule comes to: the field itself, and with every
field those that its rule depends on. -/
inductive Closure (rules : Fields Rule) (field : String) (rule : Rule) : String → Prop where
  | self : Closure rules field rule field
  | step {name other : String} {consulted : Rule} : Closure rules field rule name →
      ruleOf rules field rule name = some consulted →
      other ∈ consulted.canonical.dependencies → Closure rules field rule other

namespace Engine

/-- The default messages that a rule does not replace go by some fields only. -/
def DefaultsWithin {σ : Type} (engine : Engine σ) (inside : String → Prop) (rule : Rule) : Prop :=
  ∀ name spec, (name, spec) ∈ rule.canonical.validators → spec.message = none →
    ∀ validator, engine.validators.get? name = some validator → validator.message.Within inside

end Engine

/-- The message that a validator fails with is a text of the spec or the default message. -/
theorem Spec.message_within {inside : String → Prop} {spec : Spec} {validator : Validator}
    (htexts : ∀ message, spec.message = some message → message.isText = true)
    (hdefault : spec.message = none → validator.message.Within inside) :
    (spec.message.getD validator.message).Within inside := by
  cases hmessage : spec.message with
  | none => exact hdefault hmessage
  | some message => exact Message.within_of_isText inside (htexts message hmessage)

namespace Engine

variable {σ : Type} {engine : Engine σ} {nested : NestedValidation σ} {rules : Fields Rule}
  {inside : String → Prop} {start start' : Record}

/-- A module that goes by its own field does the same to both records. -/
theorem runModule_paired {name : String} {module : Module σ}
    (hmem : (name, module) ∈ (Module.builtins : List (String × Module σ)))
    {config : Configuration} (hconfig : ∀ hook, config ≠ .function hook) {field : String}
    (hfield : inside field) (form : CanonicalForm) :
    Run.Related noError (Paired inside start start') Eq Eq
      (engine.runModule nested field form config module)
      (engine.runModule nested field form config module) := by
  refine runModule_related (W := Eq) rfl ?_ fun r r' hr => ?_
  · rintro r r' written _ hr rfl
    exact hr.putIf hfield written
  · rw [Module.builtin_local hmem hconfig
      ⟨field, form, engine.settings.strict, r, engine.announced nested⟩ (hr.read_eq hfield).symm]
    exact .refl _

/-- A validator goes by the fields within if its parameters, its message and its expected result
do. -/
theorem checkRelated_paired {field : String} {validator : Validator} {spec : Spec}
    (hplain : spec.Plain) (hmessage : (spec.message.getD validator.message).Within inside)
    (hfield : inside field) :
    CheckRelated (Paired inside start start') Eq field (validator, spec) (validator, spec) where
  presence := rfl
  blank r r' hr := by rw [hr.read_eq hfield]
  params r r' _ := by
    rw [hplain.bind_eq r r']
    exact BoundParam.Related.refl _
  passes r r' args args' hr hargs := by
    rw [List.forall₂_eq_eq_eq] at hargs
    rw [hr.read_eq hfield, hplain.expectedResult_eq r r', hargs]
  message r r' args args' hr hargs := by
    rw [List.forall₂_eq_eq_eq] at hargs
    rw [hmessage r r' hr.agree, hargs]

/-- A field within is judged by the fields within if its rule looks at no others. -/
theorem judge_paired (hmodules : engine.modules = KnownModules.builtin) {field : String}
    {rule : Rule} (hfree : rule.FunctionFree) (hdefaults : engine.DefaultsWithin inside rule)
    (hfield : inside field) :
    JudgeRelated noError (Paired inside start start') Eq Eq Eq engine engine nested nested field
      rule rule := by
  intro depends depends' force hdepends
  refine judge_related ⟨rfl, fun _ _ _ => congrArg _⟩ ?_ ?_ hdepends force
  · refine Run.related_ofExcept (SameErrorOr.refl fun found hfound => ?_).with_eq
    refine .refl fun entry hentry => ?_
    have hspec : (entry.1, entry.2.2) ∈ rule.canonical.validators := mem_of_findAll hfound hentry
    refine checkRelated_paired (hfree.plain _ _ hspec) ?_ hfield
    apply Spec.message_within (hfree.messages _ _ hspec)
    exact fun hnone => hdefaults _ _ hspec hnone _ (get?_of_findAll hfound hentry)
  · refine Run.Related.imp (A := Eq) (runModules_related (C := Eq) ?_ ?_ rfl) ?_
    · rintro results _ name output _ rfl rfl
      rfl
    · refine .refl fun entry hentry => ?_
      rw [hmodules]
      cases hget : (KnownModules.builtin : KnownModules σ).get? entry.1 with
      | none => exact .none
      | some module =>
        exact .some (runModule_paired (KnownModules.mem_of_builtin_get? hget)
          (hfree.configs entry hentry) hfield _)
    · rintro results _ rfl found verdicts - -
      exact ⟨rfl, rfl⟩

section Evaluation

variable {field : String} {rule : Rule}

/-- The rules that an evaluation comes to hold no functions, and the default messages that they do
not replace go by the closure. -/
structure Regular (engine : Engine σ) (rules : Fields Rule) (field : String) (rule : Rule) :
    Prop where
  free : ∀ name consulted, Closure rules field rule name →
    ruleOf rules field rule name = some consulted → consulted.FunctionFree
  defaults : ∀ name consulted, Closure rules field rule name →
    ruleOf rules field rule name = some consulted →
      engine.DefaultsWithin (Closure rules field rule) consulted

/-- Default messages that are texts go by no field at all. -/
theorem defaultsWithin_of_texts
    (htexts : ∀ name validator, engine.validators.get? name = some validator →
      validator.message.isText = true) (inside : String → Prop) (rule : Rule) :
    engine.DefaultsWithin inside rule := by
  intro name spec _ _ validator hvalidator
  apply Message.within_of_isText
  exact htexts name validator hvalidator

/-- Rules without functions are regular where all default messages are texts. -/
theorem regular_of_texts
    (htexts : ∀ name validator, engine.validators.get? name = some validator →
      validator.message.isText = true)
    (hfree : rule.FunctionFree) (hrules : ∀ entry ∈ rules, entry.2.FunctionFree) :
    engine.Regular rules field rule where
  free := by
    intro name consulted _ hget
    unfold ruleOf at hget
    split at hget
    · cases hget
      exact hfree
    · exact hrules _ (Fields.mem_of_get? hget)
  defaults _ consulted _ _ := defaultsWithin_of_texts htexts _ consulted

/-- The fields of the closure are judged by the closure. -/
theorem Regular.rulesRelated (h : engine.Regular rules field rule)
    (hmodules : engine.modules = KnownModules.builtin) :
    RulesRelated noError (Paired (Closure rules field rule) start start') Eq Eq Eq engine engine
      nested nested (Closure rules field rule) [field] rules rules where
  step := ⟨rfl, fun _ _ _ => congrArg _⟩
  keys := rfl
  read d hd r r' hr := by rw [hr.read_eq hd]
  judge d hd hnew := by
    cases hget : rules.get? d with
    | none => exact .none
    | some next =>
      have hrule : ruleOf rules field rule d = some next := by
        rwa [ruleOf, if_neg fun hsame => hnew (List.mem_singleton.2 hsame)]
      exact .some ⟨fun e he => hd.step hrule he,
        judge_paired hmodules (h.free d next hd hrule) (h.defaults d next hd hrule) hd⟩

/-- What the evaluation of a field by a rule goes by. Where the rules that it comes to hold no
functions and the default messages that they leave in place go by the closure of the field, two
records that agree on the closure are evaluated to the same result or to the same error; either way
the records agree on the closure afterwards and are what they were outside of it. -/
theorem judgeField_local (hmodules : engine.modules = KnownModules.builtin)
    (hregular : engine.Regular rules field rule)
    (hagree : ∀ name, Closure rules field rule name → start.get? name = start'.get? name)
    (force : Bool) (c : σ) :
    Run.Matched noError (Paired (Closure rules field rule) start start') Eq Eq
      (engine.judgeField rules field rule force) (engine.judgeField rules field rule force)
      ⟨start, c⟩ ⟨start', c⟩ := by
  unfold judgeField
  generalize engine.nestedWithin engine.nestingLimit _ = nested
  have hself : ruleOf rules field rule field = some rule := if_pos rfl
  have hjudge : JudgeRelated noError (Paired (Closure rules field rule) start start') Eq Eq Eq
      engine engine nested nested field rule rule :=
    judge_paired hmodules (hregular.free field rule .self hself)
      (hregular.defaults field rule .self hself) .self
  have hrun := (hregular.rulesRelated hmodules).judgeWithin [] (fun _ => id)
    (fun d hd => Closure.self.step hself hd) hjudge force
  exact (hrun.imp fun _ _ hresult => hresult.eq) ⟨start, c⟩ ⟨start', c⟩ ⟨.refl hagree, rfl⟩

end Evaluation

end Engine

/-- A set of fields that has the field evaluated, and with every field those that its rule depends
on, holds the closure. -/
theorem Closure.mem_of_closed {rules : Fields Rule} {field : String} {rule : Rule}
    {names : List String} (hself : field ∈ names)
    (hstep : ∀ name ∈ names, ∀ d ∈ ((ruleOf rules field rule name).map fun consulted =>
      consulted.canonical.dependencies).getD [], d ∈ names)
    {name : String} (h : Closure rules field rule name) : name ∈ names := by
  induction h with
  | self => exact hself
  | step _ hget hdep ih =>
    apply hstep _ ih
    rwa [hget]

/-- The default messages of the built-in validators are texts. -/
theorem KnownValidators.isText_of_builtin_get? {name : String} {validator : Validator}
    (h : builtin.get? name = some validator) : validator.message.isText = true := by
  have htexts : ∀ entry ∈ Validator.builtins, entry.2.message.isText = true := by decide
  exact htexts _ (Registry.mem_of_get?_ofPairs h)

namespace Engine

/-- The rule of a field that is trimmed and has to equal a second one. -/
def repeatRule : Rule :=
  .descriptor ⟨.specs [("equalsTo", .ofValues [.dependsOn "second"])],
    [("trimValue", .value (.bool true))]⟩

/-- The rule of the second field, which is trimmed too and has to be there. -/
def secondRules : Fields Rule :=
  [("second", .descriptor ⟨.list ["required"], [("trimValue", .value (.bool true))]⟩)]

/-- Trimmed to the same text, the two fields of a record pass, and so they do in a record that
differs from it in fields that no rule leads to. -/
theorem judgeField_local_repeat :
    ∃ t, (standard : Engine Unit).judgeField secondRules "first" repeatRule false
        ⟨[("extra", .ofInt 1), ("first", .string " x"), ("second", .string "x ")], ()⟩ =
          .ok .valid t ∧
      t.target = [("extra", .ofInt 1), ("first", .string "x"), ("second", .string "x")] ∧
      ∃ t', (standard : Engine Unit).judgeField secondRules "first" repeatRule false
          ⟨[("second", .string "x "), ("first", .string " x")], ()⟩ = .ok .valid t' ∧
        ∀ name, Closure secondRules "first" repeatRule name →
          t'.target.get? name = t.target.get? name := by
  have hrun : (standard : Engine Unit).judgeField secondRules "first" repeatRule false
      ⟨[("extra", .ofInt 1), ("first", .string " x"), ("second", .string "x ")], ()⟩ =
        .ok .valid
          ⟨[("extra", .ofInt 1), ("first", .string "x"), ("second", .string "x")], ()⟩ := by
    with_unfolding_all rfl
  have hregular : (standard : Engine Unit).Regular secondRules "first" repeatRule :=
    regular_of_texts (fun _ _ h => KnownValidators.isText_of_builtin_get? h)
      (by decide) (by decide)
  have hagree : ∀ name, Closure secondRules "first" repeatRule name →
      Fields.get? [("extra", Value.ofInt 1), ("first", .string " x"), ("second", .string "x ")]
          name =
        Fields.get? [("second", Value.string "x "), ("first", .string " x")] name := by
    intro name hname
    have hmem : name ∈ ["first", "second"] := hname.mem_of_closed (by decide) (by decide)
    simp only [List.mem_cons, List.not_mem_nil, or_false] at hmem
    rcases hmem with rfl | rfl <;> rfl
  refine ⟨_, hrun, rfl, ?_⟩
  obtain ⟨_, t', hrun', rfl, hstores⟩ := (judgeField_local rfl hregular hagree false ()).of_ok hrun
  exact ⟨t', hrun', fun name hname => (hstores.target.agree name hname).symm⟩

/-- The standard engine with one more validator, which always fails and says what the record holds
in another field. -/
def telling : Engine Unit :=
  { (standard : Engine Unit) with
    validators := Registry.ofPairs (Validator.builtins ++
      [("tell", ⟨fun _ _ => false, .computed ⟨0, fun record _ => (record.read "other").display⟩,
        false⟩)]) }

/-- A default message that is computed from the record can look outside of the closure: two records
that agree on it are evaluated to different results, by a rule without functions. -/
theorem judgeField_elsewhere :
    (standard : Engine Unit).addValidator "tell" ⟨fun _ _ => false,
        .computed ⟨0, fun record _ => (record.read "other").display⟩, false⟩ = .ok telling ∧
      (Rule.bare (.name "tell")).FunctionFree ∧
      (∀ name, Closure [] "f" (.bare (.name "tell")) name →
        Fields.get? [("f", Value.ofInt 1), ("other", .string "a")] name =
          Fields.get? [("f", Value.ofInt 1), ("other", .string "b")] name) ∧
      telling.judgeField [] "f" (.bare (.name "tell")) false
          ⟨[("f", .ofInt 1), ("other", .string "a")], ()⟩ =
        .ok (.checked ⟨[("tell", .message "a")], []⟩)
          ⟨[("f", .ofInt 1), ("other", .string "a")], ()⟩ ∧
      telling.judgeField [] "f" (.bare (.name "tell")) false
          ⟨[("f", .ofInt 1), ("other", .string "b")], ()⟩ =
        .ok (.checked ⟨[("tell", .message "b")], []⟩)
          ⟨[("f", .ofInt 1), ("other", .string "b")], ()⟩ := by
  refine ⟨?_, by decide, ?_, ?_, ?_⟩
  · with_unfolding_all rfl
  · intro name hname
    have hmem : name ∈ ["f"] := hname.mem_of_closed (by decide) (by decide)
    rw [List.mem_singleton.1 hmem]
    rfl
  · with_unfolding_all rfl
  · with_unfolding_all rfl

end Engine

end Vetting
