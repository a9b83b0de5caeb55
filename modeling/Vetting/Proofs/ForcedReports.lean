import Vetting.Proofs.Evaluation

/-!
# Forced reports

A run that is forced to report gives a report for every field, and a run that is not gives those of
them that hold an error. That is all the difference: the flag is looked at when a result is put
together, after everything has been done that a run does, so that the two runs end in the same error
or leave the same value, with any modules (`validate_forced`).

At each level the run without a forced report is the forced run with its result cut down, as an
equation of runs: for a field (`judge_unforced`), for the fields of a rule map (`judgeAll_unforced`)
and for a value (`validateBy_unforced`). Dependencies and nested runs are never forced, so they are
the same run on both sides.
-/

set_option autoImplicit false

namespace Vetting

/-- The result for a field when no report is forced: a field without errors passes. -/
def FieldResult.unforced : FieldResult → FieldResult
  | .valid => .valid
  | .checked report => if report.errors.isEmpty then .valid else .checked report

/-- The reports that hold an error. -/
def Report.withErrors (reports : Fields Report) : Fields Report :=
  reports.filter fun entry => !entry.2.errors.isEmpty

/-- The outcome when no report is forced: the reports that hold an error, and a pass if there are
none. -/
def Outcome.unforced : Outcome → Outcome
  | .valid => .valid
  | .fields reports =>
    if (Report.withErrors reports).isEmpty then .valid else .fields (Report.withErrors reports)
  | .errors findings => if findings.isEmpty then .valid else .errors findings

/-- A report without errors does not count for the verdict. -/
theorem Report.allValid_withErrors (reports : Fields Report) :
    Report.allValid (Report.withErrors reports) = Report.allValid reports := by
  induction reports with
  | nil => rfl
  | cons entry rest ih =>
    obtain ⟨name, errors, aux⟩ := entry
    cases errors with
    | nil =>
      have hcut : Report.withErrors ((name, ⟨[], aux⟩) :: rest) = Report.withErrors rest := rfl
      rw [hcut, ih, Report.allValid, Report.isValid, Finding.anyFailure, Bool.not_false,
        Bool.true_and]
    | cons first others =>
      have hkeep : Report.withErrors ((name, ⟨first :: others, aux⟩) :: rest) =
          (name, ⟨first :: others, aux⟩) :: Report.withErrors rest := rfl
      rw [hkeep, Report.allValid, Report.allValid, ih]

/-- Cutting an outcome down to its errors leaves the verdict. -/
theorem Outcome.isValid_unforced (outcome : Outcome) :
    outcome.unforced.isValid = outcome.isValid := by
  cases outcome with
  | valid => rfl
  | fields reports =>
    have hall : Report.allValid (Report.withErrors reports) = Report.allValid reports :=
      Report.allValid_withErrors reports
    rw [Outcome.unforced]
    split
    · next hnone =>
      rw [List.isEmpty_iff] at hnone
      rw [hnone] at hall
      exact hall
    · exact hall
  | errors findings =>
    cases findings with
    | nil => rfl
    | cons first others => rfl

namespace Run

variable {τ υ σ α β : Type}

/-- Mapping the result of a run that ends leaves the rest of it. -/
theorem map_of_ok {run : Run τ σ α} {s t : Store τ σ} {a : α} (f : α → β)
    (h : run s = .ok a t) : (f <$> run) s = .ok (f a) t := by
  simp only [Functor.map, EStateM.map, h]

/-- Mapping the result of a run that fails leaves the error. -/
theorem map_of_error {run : Run τ σ α} {s t : Store τ σ} {e : SetupError} (f : α → β)
    (h : run s = .error e t) : (f <$> run) s = .error e t := by
  simp only [Functor.map, EStateM.map, h]

/-- Mapping a result and doing something lastly may change places. -/
theorem lastly_map (f : σ → σ) (g : α → β) (run : Run τ σ α) :
    lastly f (g <$> run) = g <$> lastly f run := by
  funext s
  simp only [lastly, Functor.map, EStateM.map]
  cases run s <;> rfl

/-- Mapping a result and running on a part of the target may change places. -/
theorem focus_map (view : τ → υ) (update : τ → υ → τ) (g : α → β) (run : Run υ σ α) :
    focus view update (g <$> run) = g <$> focus view update run := by
  funext s
  simp only [focus, Functor.map, EStateM.map]
  cases run ⟨view s.target, s.caller⟩ <;> rfl

end Run

namespace Engine

variable {σ : Type} {engine : Engine σ} {nested : NestedValidation σ} {rules : Fields Rule}

/-- Mapping a result and running between two events may change places. -/
theorem during_map {τ α β : Type} (first last : Event) (g : α → β) (run : Run τ σ α) :
    engine.during first last (g <$> run) = g <$> engine.during first last run := by
  rw [during, during, Run.lastly_map, map_bind]

/-- An evaluation that is not forced is the forced one, with a report without errors left out. -/
theorem judge_unforced (depends : String → Run Record σ Bool) (field : String) (rule : Rule) :
    engine.judge nested depends field rule false =
      FieldResult.unforced <$> engine.judge nested depends field rule true := by
  -- Both take the same steps, and differ in what they make of the findings at the end.
  unfold judge
  simp only [map_bind]
  refine bind_congr fun found => bind_congr fun modules => bind_congr fun verdicts => ?_
  simp only [Bool.not_false, Bool.true_and, Bool.not_true, Bool.false_and, Bool.false_eq_true,
    if_false, map_pure, FieldResult.unforced]
  split <;> rfl

/-- Within other fields in progress, too, an evaluation that is not forced is the forced one, with a
report without errors left out. -/
theorem judgeWithin_unforced (inProgress : List String) (field : String) (rule : Rule) :
    engine.judgeWithin nested rules inProgress field rule false =
      FieldResult.unforced <$> engine.judgeWithin nested rules inProgress field rule true := by
  rw [judgeWithin, judgeWithin, judge_unforced, during_map]

/-- Evaluating fields without a forced report gives the reports of the forced evaluation that hold
an error. -/
theorem judgeAll_unforced (turns : List (String × Rule)) :
    engine.judgeAll nested rules false turns =
      Report.withErrors <$> engine.judgeAll nested rules true turns := by
  induction turns with
  | nil => rfl
  | cons turn rest ih =>
    obtain ⟨field, rule⟩ := turn
    rw [judgeAll, judgeAll, judgeWithin_unforced, ih, bind_map_left, map_bind]
    refine bind_congr fun result => ?_
    rw [bind_map_left, map_bind]
    refine bind_congr fun others => ?_
    cases result with
    | valid => rfl
    | checked report =>
      cases hnone : report.errors.isEmpty with
      | true => simp [FieldResult.unforced, Report.withErrors, hnone]
      | false => simp [FieldResult.unforced, Report.withErrors, hnone]

/-- Validating fields without force is the forced validation, with the valid reports left out. -/
theorem validateFields_unforced :
    engine.validateFields nested rules false =
      Outcome.unforced <$> engine.validateFields nested rules true := by
  unfold validateFields
  rw [map_bind, judgeAll_unforced, Run.focus_map]
  refine bind_congr fun v => ?_
  split
  · rfl
  · rw [bind_map_left, map_bind]
    refine bind_congr fun reports => ?_
    rw [Bool.not_false, Bool.true_and, Bool.not_true, Bool.false_and, if_neg Bool.false_ne_true,
      map_pure, Outcome.unforced]
    split <;> rfl

/-- Validating a whole value without force is the forced validation, with a valid report left out.
-/
theorem validateWhole_unforced (descriptor : Descriptor) :
    engine.validateWhole nested descriptor false =
      Outcome.unforced <$> engine.validateWhole nested descriptor true := by
  unfold validateWhole
  dsimp only
  rw [map_bind, judgeWithin_unforced, Run.focus_map, bind_map_left]
  refine bind_congr fun result => ?_
  cases result with
  | valid => rfl
  | checked report =>
    cases hnone : report.errors.isEmpty with
    | true => simp [FieldResult.unforced, Outcome.unforced, hnone]
    | false => simp [FieldResult.unforced, Outcome.unforced, hnone]

/-- Validation without a forced report is forced validation whose outcome is cut down to the
errors. -/
theorem validateBy_unforced (rules : Rules) :
    engine.validateBy nested rules false =
      Outcome.unforced <$> engine.validateBy nested rules true := by
  cases rules with
  | fields fields => exact validateFields_unforced
  | whole descriptor => exact validateWhole_unforced descriptor

/-- A field that is forced to report does. -/
theorem judgeWithin_forced {inProgress : List String} {field : String} {rule : Rule}
    {s t : Store Record σ} {result : FieldResult}
    (h : engine.judgeWithin nested rules inProgress field rule true s = .ok result t) :
    ∃ report, result = .checked report := by
  obtain ⟨u, hjudge, -⟩ := during_eq_ok.1 h
  obtain ⟨_, _, _, _, -, -, -, hresult⟩ := judge_eq_ok.1 hjudge
  exact ⟨_, hresult⟩

/-- Fields that are forced to report do, each once and in their order. -/
theorem judgeAll_forced {turns : List (String × Rule)} {s t : Store Record σ}
    {reports : Fields Report} (h : engine.judgeAll nested rules true turns s = .ok reports t) :
    reports.keys = Fields.keys turns := by
  induction turns generalizing s reports with
  | nil =>
    obtain ⟨rfl, -⟩ := Run.pure_eq_ok.1 h
    rfl
  | cons turn rest ih =>
    obtain ⟨field, rule⟩ := turn
    obtain ⟨result, u, others, hfirst, hothers, rfl⟩ := judgeAll_cons_eq_ok h
    obtain ⟨report, rfl⟩ := judgeWithin_forced hfirst
    show field :: Fields.keys others = field :: Fields.keys rest
    rw [ih hothers]

/-- A forced outcome reports on everything: each declared field, in its order, or the value as a
whole. -/
def ReportsAll (rules : Rules) (forced : Outcome) : Prop :=
  match rules with
  | .fields fields => ∃ reports, forced = .fields reports ∧ Fields.keys reports = Fields.keys fields
  | .whole _ => ∃ errors, forced = .errors errors

/-- A forced run reports every declared field. -/
theorem validateBy_forced {rules : Rules} {s t : Store Value σ} {forced : Outcome}
    (h : engine.validateBy nested rules true s = .ok forced t) : ReportsAll rules forced := by
  cases rules with
  | fields fields =>
    obtain ⟨-, reports, u, hall, -, hforced⟩ := validateFields_eq_ok h
    exact ⟨reports, hforced, judgeAll_forced hall⟩
  | whole descriptor =>
    obtain ⟨result, u, hjudge, -, hforced⟩ := validateWhole_eq_ok h
    obtain ⟨report, rfl⟩ := judgeWithin_forced hjudge
    exact ⟨report.errors, hforced⟩

/-- With or without a forced report a run ends in the same error, or it ends in a result and leaves
the same value. The forced outcome reports on everything; the other one is what is left of it
without the reports that hold no error, a pass if nothing is left; and the two verdicts are the
same. -/
theorem validate_forced (engine : Engine σ) (rules : Rules) (s : Store Value σ) :
    (∃ e t, engine.validate rules true s = .error e t ∧
      engine.validate rules false s = .error e t) ∨
    (∃ forced t, engine.validate rules true s = .ok forced t ∧
      engine.validate rules false s = .ok forced.unforced t ∧
      ReportsAll rules forced ∧ forced.unforced.isValid = forced.isValid) := by
  have hcut : engine.validate rules false = Outcome.unforced <$> engine.validate rules true :=
    validateBy_unforced rules
  rw [hcut]
  cases hrun : engine.validate rules true s with
  | error e t => exact Or.inl ⟨e, t, rfl, Run.map_of_error _ hrun⟩
  | ok forced t =>
    have hall : ReportsAll rules forced := validateBy_forced hrun
    exact Or.inr ⟨forced, t, rfl, Run.map_of_ok _ hrun, hall, forced.isValid_unforced⟩

end Engine

end Vetting
