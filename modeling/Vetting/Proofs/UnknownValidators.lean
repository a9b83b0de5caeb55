import Vetting.Proofs.Evaluation

/-!
# Unknown validators

All validators of a field are looked up before anything of its rule is done. So the evaluation of a
field whose rule names a validator that is not registered ends in an error about the first such name
(`judgeWithin_unknown`); no module runs, no dependency is settled and the record stays as it is,
whatever else the rule says. In a run by field rules the error leaves the record as the evaluation
of the fields before has left it (`validate_unknownValidator`).
-/

set_option autoImplicit false

namespace Vetting.Engine

variable {σ : Type} {engine : Engine σ} {nested : NestedValidation σ} {rules : Fields Rule}

/-- The first validator, in order of declaration, that a rule names and that is not registered. -/
def unknownValidator? (engine : Engine σ) (rule : Rule) : Option String :=
  rule.canonical.validators.keys.find? fun name => !engine.validators.contains name

/-- Looking up validators fails at the first name that is not registered. -/
theorem findAll_unknown {specs : Fields Spec} {name : String}
    (h : (specs.keys.find? fun name => !engine.validators.contains name) = some name) :
    engine.findAll specs = .error (.unknownValidator name) := by
  induction specs with
  | nil => cases h
  | cons entry rest ih =>
    obtain ⟨key, spec⟩ := entry
    rw [Fields.keys, List.map_cons, List.find?_cons, Registry.contains_eq_isSome] at h
    rw [findAll, KnownValidators.find]
    cases hget : engine.validators.get? key with
    | none =>
      rw [hget] at h
      cases h
      rfl
    | some validator =>
      rw [hget] at h
      rw [ih h]
      rfl

/-- Judging a field with an unknown validator does nothing at all. -/
theorem judge_unknown {depends : String → Run Record σ Bool} {field : String} {rule : Rule}
    {name : String} (hunknown : engine.unknownValidator? rule = some name) (force : Bool)
    (s : Store Record σ) :
    engine.judge nested depends field rule force s = .error (.unknownValidator name) s := by
  unfold judge
  rw [findAll_unknown hunknown]
  rfl

/-- Evaluating a field with an unknown validator ends in the error about it; the observer is told
that the evaluation begins and that it is over, and nothing else happens. -/
theorem judgeWithin_unknown {inProgress : List String} {field : String} {rule : Rule}
    {name : String} (hunknown : engine.unknownValidator? rule = some name) (force : Bool)
    (s : Store Record σ) :
    engine.judgeWithin nested rules inProgress field rule force s =
      .error (.unknownValidator name)
        ⟨s.target, engine.observe (.returned inProgress)
          (engine.observe (.entered rules.keys (inProgress ++ [field])) s.caller)⟩ :=
  during_of_error (judge_unknown hunknown force _)

/-- Fields after a field that breaks off are not evaluated. -/
theorem judgeAll_cons_eq_error {force : Bool} {field : String} {rule : Rule}
    {rest : List (String × Rule)} {s t : Store Record σ} {e : SetupError}
    (h : engine.judgeWithin nested rules [] field rule force s = .error e t) :
    engine.judgeAll nested rules force ((field, rule) :: rest) s = .error e t :=
  Run.bind_of_error h

/-- Where the first fields are evaluated to the end, the evaluation of all fields breaks off where
that of the others does. -/
theorem judgeAll_append_eq_error {force : Bool} {first rest : List (String × Rule)}
    {s t u : Store Record σ} {front : Fields Report} {e : SetupError}
    (hfirst : engine.judgeAll nested rules force first s = .ok front u)
    (hrest : engine.judgeAll nested rules force rest u = .error e t) :
    engine.judgeAll nested rules force (first ++ rest) s = .error e t := by
  induction first generalizing s front with
  | nil =>
    obtain ⟨-, rfl⟩ := Run.pure_eq_ok.1 hfirst
    exact hrest
  | cons turn first ih =>
    obtain ⟨field, rule⟩ := turn
    obtain ⟨result, w, others, hturn, hothers, -⟩ := judgeAll_cons_eq_ok hfirst
    rw [List.cons_append, judgeAll, Run.bind_of_ok hturn, Run.bind_of_error (ih hothers)]

/-- Validation by field rules breaks off where the evaluation of the fields does, and puts back into
the value what this has made of its fields. -/
theorem validateFields_of_error {force : Bool} {s : Store Value σ} {t : Store Record σ}
    {e : SetupError} (htruthy : s.target.isTruthy = true)
    (h : engine.judgeAll nested rules force rules ⟨recordOf s.target, s.caller⟩ = .error e t) :
    engine.validateFields nested rules force s =
      .error e ⟨withRecord s.target t.target, t.caller⟩ := by
  unfold validateFields
  rw [Run.target_bind, htruthy, Bool.not_true, if_neg Bool.false_ne_true]
  exact Run.bind_of_error (Run.focus_of_error h)

/-- Unknown validators are found out before anything happens. The evaluation of a field whose rule
names one ends in the error about the first of them and leaves the record as it was: nothing has
touched the state of the caller but the observer, who is told that the evaluation begins and that it
is over. And a run by field rules that reaches such a field ends in that error, on the record that
the fields before have left. -/
theorem validate_unknownValidator (engine : Engine σ) {rule : Rule} {name : String}
    (hunknown : engine.unknownValidator? rule = some name) (force : Bool) :
    (∀ (rules : Fields Rule) (field : String) (s : Store Record σ),
      engine.judgeField rules field rule force s =
        .error (.unknownValidator name)
          ⟨s.target, engine.observe (.returned [])
            (engine.observe (.entered rules.keys [field]) s.caller)⟩) ∧
    ∀ (before after : Fields Rule) (field : String) (s : Store Value σ) (reports : Fields Report)
      (t : Store Record σ), s.target.isTruthy = true →
      engine.judgeAll
          (engine.nestedWithin engine.nestingLimit
            (Rules.fields (before ++ (field, rule) :: after)).weight)
          (before ++ (field, rule) :: after) force before ⟨recordOf s.target, s.caller⟩ =
        .ok reports t →
      engine.validate (.fields (before ++ (field, rule) :: after)) force s =
        .error (.unknownValidator name)
          ⟨withRecord s.target t.target, engine.observe (.returned [])
            (engine.observe
              (.entered (Fields.keys (before ++ (field, rule) :: after)) [field]) t.caller)⟩ := by
  refine ⟨fun rules field s => judgeWithin_unknown hunknown force s, ?_⟩
  intro before after field s reports t htruthy hbefore
  exact validateFields_of_error htruthy
    (judgeAll_append_eq_error hbefore
      (judgeAll_cons_eq_error (judgeWithin_unknown hunknown force t)))

/-- The rule of a name that is trimmed and checked by validators of which two are not registered. -/
def strangeRule : Rule :=
  .descriptor ⟨.list ["required", "polite", "short"], [("trimValue", .value (.bool true))]⟩

/-- The rule of an age that is read as a number. -/
def ageRule : Rule := .descriptor ⟨.name "int", [("int", .value (.bool true))]⟩

/-- The first unknown validator of the name is the error; the age before it has been read, and the
name is not even trimmed. -/
theorem validate_unknownValidator_polite :
    (standard : Engine Unit).judgeField [] "name" strangeRule false
        ⟨[("name", .string " x ")], ()⟩ =
      .error (.unknownValidator "polite") ⟨[("name", .string " x ")], ()⟩ ∧
    (standard : Engine Unit).validate (.fields [("age", ageRule), ("name", strangeRule)]) false
        ⟨.object [("name", .string " x "), ("age", .string "7")], ()⟩ =
      .error (.unknownValidator "polite")
        ⟨.object [("name", .string " x "), ("age", .ofInt 7)], ()⟩ := by
  have hunknown : (standard : Engine Unit).unknownValidator? strangeRule = some "polite" := by
    decide
  obtain ⟨hfield, hrun⟩ := validate_unknownValidator standard hunknown false
  refine ⟨hfield [] "name" ⟨[("name", .string " x ")], ()⟩, ?_⟩
  exact hrun [("age", ageRule)] [] "name"
    ⟨.object [("name", .string " x "), ("age", .string "7")], ()⟩ []
    ⟨[("name", .string " x "), ("age", .ofInt 7)], ()⟩ rfl (by with_unfolding_all rfl)

end Vetting.Engine
