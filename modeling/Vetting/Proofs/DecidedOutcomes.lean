import Vetting.Proofs.BuiltinModules
import Vetting.Proofs.Evaluation

/-!
# Asking for a verdict only

Whether a value passes can be asked in two ways: `Engine.isValid` looks whether the outcome of a run
is the mark of a pass, and `Outcome.isValid` whether one of its findings is a failure. The two
differ on an outcome that has findings of which none is a failure, which only a module can bring
about, by reporting the outcome of a nested run that passes. On every other outcome, one that is
`Decided`, they agree.

Modules that report nothing but failures are `Earnest`. They may take for granted that the outcomes
of their own nested runs are decided, and then all outcomes are: at each level of nesting a run is
decided if the runs inside it are (`validateBy_decided`), and the inductions are those by which
nested validation is defined, on the weight of the rules and on the number of runs that may still be
opened. The built-in modules are earnest, and a registry stays so when an earnest module is added.
-/

set_option autoImplicit false

namespace Vetting

/-- An outcome that shows whether it passes: it is the mark of a pass, or it has a failure. -/
def Outcome.Decided (outcome : Outcome) : Prop :=
  outcome = .valid ∨ outcome.isValid = false

/-- Findings that are failures, every one of them. -/
def Findings.Failing (errors : Findings) : Prop :=
  ∀ error ∈ errors, error.2.isFailure = true

/-- Nested validation whose outcomes are decided when no report is forced. -/
def NestedValidation.Decided {σ : Type} (nested : NestedValidation σ) : Prop :=
  ∀ rules s outcome t, nested rules false s = .ok outcome t → outcome.Decided

/-- A module that reports failures only, given that the outcomes of its nested runs are decided. -/
def Module.Earnest {σ : Type} (module : Module σ) : Prop :=
  ∀ config scope s errors t, scope.validate.Decided →
    module config scope s = .ok (some (.errors errors)) t → errors.Failing

/-- Modules that all report failures only. -/
def KnownModules.Earnest {σ : Type} (modules : KnownModules σ) : Prop :=
  ∀ name module, modules.get? name = some module → module.Earnest

namespace Findings.Failing

variable {errors news : Findings}

/-- Errors fail when errors that fail are merged into them. -/
theorem merge (h : errors.Failing) (hnews : news.Failing) :
    Findings.Failing (errors.merge news) := by
  intro error herror
  rcases Fields.mem_merge herror with hmem | hmem
  · exact h error hmem
  · exact hnews error hmem

/-- Failures fail as soon as there is one. -/
theorem anyFailure (h : errors.Failing) (hsome : errors ≠ []) :
    Finding.anyFailure errors = true := by
  cases errors with
  | nil => exact absurd rfl hsome
  | cons error rest =>
    obtain ⟨name, finding⟩ := error
    have hfirst : finding.isFailure = true := h (name, finding) List.mem_cons_self
    rw [Finding.anyFailure, hfirst, Bool.true_or]

end Findings.Failing

namespace KnownModules

variable {σ : Type}

/-- Of the built-in modules only the one for nested records reports errors: a nested run that does
not pass, and so has a failure. -/
theorem earnest_builtin : (builtin : KnownModules σ).Earnest := by
  intro name module hget config scope s errors t hnested hrun
  have hmem := mem_of_builtin_get? hget
  by_cases hname : name = "objectValidator"
  · subst hname
    have hobject : module = Module.objectValidator := by
      simpa [Module.builtins] using hmem
    subst hobject
    rcases Module.objectValidator_eq_ok hrun with
      ⟨hout, -⟩ | ⟨inner, outcome, u, -, hinner, -, ⟨-, hout⟩ | ⟨hne, hout⟩⟩
    · cases hout
    · cases hout
    · cases hout
      have hfails : outcome.isValid = false :=
        (hnested inner _ outcome u hinner).resolve_left hne
      intro error herror
      rw [List.mem_singleton.1 herror, Finding.isFailure, hfails, Bool.not_false]
  · rcases Module.builtin_ends hmem hname config scope s with
      ⟨out, written, hends, hout⟩ | ⟨-, -, hends⟩
    · rw [hends] at hrun
      cases hrun
      rcases hout with hout | ⟨-, v, hout⟩
      · cases hout
      · cases hout
    · rw [hends] at hrun
      cases hrun

/-- Registering an earnest module leaves all modules earnest. -/
theorem Earnest.add {modules modules' : KnownModules σ} (h : modules.Earnest) {name : String}
    {module : Module σ} (hmodule : module.Earnest)
    (hadd : modules.add name module = .ok modules') : modules'.Earnest := by
  intro other found hget
  unfold KnownModules.add Registry.register at hadd
  split at hadd
  · cases hadd
  · cases hadd
    by_cases hother : other = name
    · subst hother
      rw [Registry.get?, Fields.get?_put_self, Option.some.injEq] at hget
      rwa [← hget]
    · rw [Registry.get?, Fields.get?_put_of_ne _ _ hother] at hget
      exact h other found hget

end KnownModules

namespace Engine

variable {σ : Type} {engine : Engine σ} {nested : NestedValidation σ} {rules : Fields Rule}

/-- Announcing nested runs leaves their outcomes decided. -/
theorem announced_decided (h : nested.Decided) : (engine.announced nested).Decided := by
  intro rules s outcome t hrun
  obtain ⟨u, hinner, -⟩ := announced_eq_ok.1 hrun
  exact h rules _ outcome u hinner

/-- The errors that earnest modules hand back fail. -/
theorem runModules_failing (hearnest : engine.modules.Earnest) (hnested : nested.Decided)
    {field : String} {rule : CanonicalForm} {configs : Fields Configuration}
    {results after : Contributions} {s t : Store Record σ} (hresults : results.errors.Failing)
    (hrun : engine.runModules nested field rule configs results s = .ok after t) :
    after.errors.Failing := by
  induction configs generalizing results s with
  | nil =>
    obtain ⟨rfl, -⟩ := Run.pure_eq_ok.1 hrun
    exact hresults
  | cons entry rest ih =>
    obtain ⟨name, config⟩ := entry
    rw [runModules] at hrun
    cases hget : engine.modules.get? name with
    | none =>
      rw [hget] at hrun
      exact ih hresults hrun
    | some module =>
      rw [hget] at hrun
      obtain ⟨out, u, hmodule, hrun⟩ := Run.bind_eq_ok.1 hrun
      refine ih ?_ hrun
      rw [runModule, Run.target_bind] at hmodule
      obtain ⟨w, hmodule, -⟩ := Run.focus_eq_ok.1 hmodule
      cases out with
      | none => exact hresults
      | some contribution =>
        cases contribution with
        | aux v => exact hresults
        | errors errors =>
          have herrors : errors.Failing :=
            hearnest name module hget _ _ _ errors w (announced_decided hnested) hmodule
          exact hresults.merge herrors

/-- What the validators of a field report are messages. -/
theorem failures_failing (verdicts : List (String × Verdict)) :
    Findings.Failing (failures verdicts) := by
  intro error herror
  obtain ⟨entry, -, hentry⟩ := List.mem_filterMap.1 herror
  obtain ⟨text, -, rfl⟩ := Option.map_eq_some_iff.1 hentry
  rfl

/-- A field that is reported though no report is forced has failures, and nothing else. -/
theorem judgeWithin_failing (hearnest : engine.modules.Earnest) (hnested : nested.Decided)
    {inProgress : List String} {field : String} {rule : Rule} {s t : Store Record σ}
    {report : Report}
    (hrun : engine.judgeWithin nested rules inProgress field rule false s =
      .ok (.checked report) t) : Finding.anyFailure report.errors = true := by
  obtain ⟨u, hjudge, -⟩ := during_eq_ok.1 hrun
  obtain ⟨found, results, w, verdicts, -, hmodules, -, hresult⟩ := judge_eq_ok.1 hjudge
  have hresults : results.errors.Failing :=
    runModules_failing hearnest hnested (fun _ h => absurd h List.not_mem_nil) hmodules
  split at hresult
  · cases hresult
  · next hsome =>
    cases hresult
    refine ((failures_failing verdicts).merge hresults).anyFailure fun hnone => hsome ?_
    rw [hnone]
    rfl

/-- If some declared field is reported, the reports do not all read as valid. -/
theorem judgeAll_failing (hearnest : engine.modules.Earnest) (hnested : nested.Decided)
    {turns : List (String × Rule)} {s t : Store Record σ} {reports : Fields Report}
    (hrun : engine.judgeAll nested rules false turns s = .ok reports t) :
    reports = [] ∨ Report.allValid reports = false := by
  induction turns generalizing s reports with
  | nil =>
    obtain ⟨rfl, -⟩ := Run.pure_eq_ok.1 hrun
    exact Or.inl rfl
  | cons turn rest ih =>
    obtain ⟨field, rule⟩ := turn
    obtain ⟨result, u, others, hfirst, hothers, rfl⟩ := judgeAll_cons_eq_ok hrun
    cases result with
    | valid => exact ih hothers
    | checked report =>
      have hfails : Finding.anyFailure report.errors = true :=
        judgeWithin_failing hearnest hnested hfirst
      obtain ⟨errors, aux⟩ := report
      refine Or.inr ?_
      show (!Finding.anyFailure errors && Report.allValid others) = false
      rw [hfails, Bool.not_true, Bool.false_and]

/-- A run is decided if its modules are earnest and the runs inside it are decided. -/
theorem validateBy_decided (hearnest : engine.modules.Earnest) (hnested : nested.Decided) :
    NestedValidation.Decided (engine.validateBy nested) := by
  intro rules s outcome t hrun
  cases rules with
  | fields fields =>
    obtain ⟨-, reports, u, hall, -, rfl⟩ := validateFields_eq_ok hrun
    rcases judgeAll_failing hearnest hnested hall with rfl | hfails
    · exact Or.inl rfl
    · split
      · exact Or.inl rfl
      · exact Or.inr hfails
  | whole descriptor =>
    obtain ⟨result, u, hjudge, -, rfl⟩ := validateWhole_eq_ok hrun
    cases result with
    | valid => exact Or.inl rfl
    | checked report =>
      refine Or.inr ?_
      show (!Finding.anyFailure report.errors) = false
      rw [judgeWithin_failing hearnest hnested hjudge, Bool.not_true]

/-- Nested validation below a bound is decided if what stands in for deeper levels is. -/
theorem nestedBelow_decided (hearnest : engine.modules.Earnest) {otherwise : NestedValidation σ}
    (hotherwise : otherwise.Decided) (bound : Nat) :
    (engine.nestedBelow otherwise bound).Decided := by
  induction bound using Nat.strong_induction_on with
  | _ bound ih =>
    intro rules s outcome t hrun
    rw [nestedBelow] at hrun
    split at hrun
    · next hlighter =>
      exact validateBy_decided hearnest (ih rules.weight hlighter) rules s outcome t hrun
    · exact hotherwise rules s outcome t hrun

/-- Nested validation within the limit of an engine is decided. -/
theorem nestedWithin_decided (hearnest : engine.modules.Earnest) (limit bound : Nat) :
    (engine.nestedWithin limit bound).Decided := by
  induction limit generalizing bound with
  | zero =>
    -- Rules that are not lighter are refused, so that there is no outcome.
    rw [nestedWithin]
    refine nestedBelow_decided hearnest (fun rules s outcome t hrun => ?_) bound
    cases hrun
  | succ limit ih =>
    rw [nestedWithin]
    refine nestedBelow_decided hearnest (fun rules s outcome t hrun => ?_) bound
    exact validateBy_decided hearnest (ih rules.weight) rules s outcome t hrun

/-- A verdict is asked for by looking whether the outcome is the mark of a pass. -/
theorem isValid_of_ok {rules : Rules} {s t : Store Value σ} {outcome : Outcome}
    (hrun : engine.validate rules false s = .ok outcome t) :
    ∃ passed, engine.isValid rules s = .ok passed t ∧ (passed = true ↔ outcome = .valid) := by
  unfold isValid
  rw [Run.bind_of_ok hrun]
  cases outcome with
  | valid => exact ⟨true, rfl, iff_of_true rfl rfl⟩
  | fields reports => exact ⟨false, rfl, iff_of_false nofun nofun⟩
  | errors errors => exact ⟨false, rfl, iff_of_false nofun nofun⟩

/-- When a run ends in an outcome, asking for a verdict only ends in one and leaves the same value.
It lets nothing pass that the outcome does not, and it is the verdict of the outcome exactly when
the outcome is decided. Every outcome is if all modules are earnest. -/
theorem isValid_agrees_iff {rules : Rules} {s t : Store Value σ} {outcome : Outcome}
    (hrun : engine.validate rules false s = .ok outcome t) :
    (∃ passed, engine.isValid rules s = .ok passed t ∧
      (passed = true → outcome.isValid = true) ∧
      (passed = outcome.isValid ↔ outcome.Decided)) ∧
    (engine.modules.Earnest → outcome.Decided) := by
  obtain ⟨passed, hpassed, hmark⟩ := isValid_of_ok hrun
  refine ⟨⟨passed, hpassed, fun hpass => ?_, ?_⟩, fun hearnest => ?_⟩
  · rw [hmark.1 hpass]
    rfl
  · cases passed with
    | true =>
      rw [hmark.1 rfl]
      exact iff_of_true rfl (Or.inl rfl)
    | false =>
      have hfound : outcome ≠ .valid := fun hvalid => nomatch hmark.2 hvalid
      rw [Outcome.Decided, or_iff_right hfound, eq_comm]
  · exact validateBy_decided hearnest (nestedWithin_decided hearnest _ _) rules s outcome t hrun

/-- A module that makes one finding, whatever the record. -/
def remark (finding : Finding) : Module Unit :=
  fun _ _ => return some (.errors [("remark", finding)])

/-- The standard engine with one more module, which makes a finding. -/
def remarking (finding : Finding) : Engine Unit :=
  { (standard : Engine Unit) with
    modules := Registry.ofPairs (Module.builtins ++ [("remark", remark finding)]) }

/-- Rules that configure the module `remark` for a field. -/
def remarkRules : Rules :=
  .fields [("f", .descriptor ⟨.list [], [("remark", .value (.bool true))]⟩)]

/-- A message is a failure for both verdicts. -/
theorem isValid_agrees_iff_message :
    ∃ passed outcome after,
      (remarking (.message "no")).validate remarkRules false ⟨.object [("f", .ofInt 1)], ()⟩ =
        .ok outcome after ∧
      (remarking (.message "no")).isValid remarkRules ⟨.object [("f", .ofInt 1)], ()⟩ =
        .ok passed after ∧
      passed = outcome.isValid ∧ passed = false := by
  have hrun : (remarking (.message "no")).validate remarkRules false
      ⟨.object [("f", .ofInt 1)], ()⟩ =
        .ok (.fields [("f", ⟨[("remark", .message "no")], []⟩)])
          ⟨.object [("f", .ofInt 1)], ()⟩ := by
    with_unfolding_all rfl
  have hmodule : (remark (.message "no")).Earnest := by
    intro config scope s errors t _ hout
    cases hout
    intro error herror
    rw [List.mem_singleton.1 herror]
    rfl
  have hadd : KnownModules.builtin.add "remark" (remark (.message "no")) =
      .ok (remarking (.message "no")).modules := by with_unfolding_all rfl
  have hearnest := KnownModules.earnest_builtin.add hmodule hadd
  obtain ⟨⟨passed, hpassed, -, hagrees⟩, hdecided⟩ := isValid_agrees_iff hrun
  have hsame := hagrees.2 (hdecided hearnest)
  exact ⟨passed, _, _, hrun, hpassed, hsame, hsame⟩

/-- A module that reports a nested outcome that passes makes a finding without a failure: the
outcome passes, but it is not the mark of a pass. -/
theorem isValid_agrees_iff_passing :
    ∃ outcome after,
      (standard : Engine Unit).addModule "remark" (remark (.nested .valid)) =
        .ok (remarking (.nested .valid)) ∧
      (remarking (.nested .valid)).validate remarkRules false ⟨.object [("f", .ofInt 1)], ()⟩ =
        .ok outcome after ∧
      outcome.isValid = true ∧
      (remarking (.nested .valid)).isValid remarkRules ⟨.object [("f", .ofInt 1)], ()⟩ =
        .ok false after := by
  refine ⟨.fields [("f", ⟨[("remark", .nested .valid)], []⟩)], ⟨.object [("f", .ofInt 1)], ()⟩,
    ?_, ?_, ?_, ?_⟩
  · with_unfolding_all rfl
  · with_unfolding_all rfl
  · rfl
  · with_unfolding_all rfl

end Engine

end Vetting
