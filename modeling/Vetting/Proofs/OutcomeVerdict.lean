import Vetting.Proofs.NestedRules

/-!
# The verdict of an outcome and of its data

`Outcome.isValid` reads the verdict of an outcome off its findings, and `isValidData` reads one off
the data that the outcome is written as, without knowing which member means what. The outcomes of
runs with the built-in modules have a shape of their own (`Outcome.Proper`): every finding is a
failure, only the module for nested records finds an outcome, and only titles are handed on. For
these outcomes the two verdicts agree except where the name `errors` misleads the second reading
(`Outcome.Misread`): where a field, or a finding about a whole record, is called `errors`, or where
the only finding about a whole record is a nested outcome that shows no member `errors`.
-/

set_option autoImplicit false

namespace Vetting

mutual

/-- A finding that a run may make under a name: any message, and under the name of the module for
nested records the outcome of a nested run that does not pass. -/
inductive Finding.Proper : String → Finding → Prop
  | message (name text : String) : Finding.Proper name (.message text)
  | nested {outcome : Outcome} : Outcome.Proper outcome → outcome.isValid = false →
      Finding.Proper "objectValidator" (.nested outcome)

/-- An outcome that a run may have: all findings are such as a run may make, and besides them the
report of a field holds at most a title. -/
inductive Outcome.Proper : Outcome → Prop
  | valid : Outcome.Proper .valid
  | errors {errors : List (String × Finding)} :
      (∀ entry ∈ errors, Finding.Proper entry.1 entry.2) → Outcome.Proper (.errors errors)
  | fields {reports : List (String × Report)} :
      (∀ entry ∈ reports, ∀ error ∈ entry.2.errors, Finding.Proper error.1 error.2) →
      (∀ entry ∈ reports, entry.2.aux = [] ∨ ∃ v, entry.2.aux = [("title", v)]) →
      Outcome.Proper (.fields reports)

end

/-- The report of a field that a run may make. -/
structure Report.Proper (report : Report) : Prop where
  errors : ∀ error ∈ report.errors, Finding.Proper error.1 error.2
  aux : report.aux = [] ∨ ∃ v, report.aux = [("title", v)]

/-- Findings that look like a report without errors once they are members of an object: none of them
is called `errors`, or that one is the empty text. -/
def Findings.muted (errors : Findings) : Bool :=
  match errors.get? "errors" with
  | none => true
  | some (.message text) => text.isEmpty
  | some (.nested _) => false

/-- A finding that looks like a report without errors: a nested outcome whose own findings do, or
without a report about a field called `errors`. -/
def Finding.muted : Finding → Bool
  | .nested (.errors errors) => Findings.muted errors
  | .nested (.fields reports) => !Fields.has reports "errors"
  | _ => false

/-- An outcome whose data reads as another verdict than its own. -/
def Outcome.Misread : Outcome → Prop
  | .valid => False
  | .errors findings => findings ≠ [] ∧
    (Fields.get? findings "errors" = some (.message "") ∨
      Fields.get? findings "errors" = none ∧ ∀ entry ∈ findings, entry.2.muted = true)
  | .fields reports => ∃ report, Fields.get? reports "errors" = some report ∧
    ((Findings.muted report.errors = true ∧ ∀ entry ∈ report.aux, isValidEntry entry.2 = true) ↔
      ∃ entry ∈ reports, entry.2.errors ≠ [])

/-! ## The data of an outcome -/

section Data

variable {collect : List (String × Value) → List (String × Value)}

/-- A finding is written under its name. -/
theorem get?_renderFindings (errors : Findings) (name : String) :
    Fields.get? (Finding.renderAll collect errors) name =
      (errors.get? name).map (Finding.render collect) := by
  induction errors with
  | nil => rfl
  | cons entry rest ih =>
    obtain ⟨key, finding⟩ := entry
    rw [Finding.renderAll, Fields.get?_cons, Fields.get?_cons]
    split
    · rfl
    · exact ih

/-- A report is written under its name. -/
theorem get?_renderReports (reports : Fields Report) (name : String) :
    Fields.get? (Report.renderAll collect reports) name =
      (reports.get? name).map (Report.render collect) := by
  induction reports with
  | nil => rfl
  | cons entry rest ih =>
    obtain ⟨key, report⟩ := entry
    rw [Report.renderAll, Fields.get?_cons, Fields.get?_cons]
    split
    · rfl
    · exact ih

/-- Findings are written as nothing only if there are none. -/
theorem isEmpty_renderFindings (errors : Findings) :
    (Finding.renderAll collect errors).isEmpty = errors.isEmpty := by
  cases errors <;> rfl

end Data

/-- A report in order is written as its findings under `errors`, followed by its title. -/
theorem Report.Proper.render_eq {report : Report} (h : report.Proper) :
    report.render Fields.ofPairs =
      .object (("errors", .object (Finding.renderAll Fields.ofPairs report.errors)) ::
        report.aux) := by
  obtain ⟨errors, aux⟩ := report
  rcases h.aux with haux | ⟨v, haux⟩
  · cases haux
    rfl
  · cases haux
    rfl

/-! ## How the entries of an outcome read -/

/-- A proper finding is a failure. -/
theorem Finding.Proper.isFailure {name : String} {finding : Finding}
    (h : Finding.Proper name finding) : finding.isFailure = true := by
  cases h with
  | message => rfl
  | nested _ hinvalid => rw [Finding.isFailure, hinvalid, Bool.not_false]

/-- A proper finding under the name `errors` is a message. -/
theorem Finding.Proper.message_of_errors {finding : Finding} (h : Finding.Proper "errors" finding) :
    ∃ text, finding = .message text := by
  generalize hname : "errors" = name at h
  cases h with
  | message _ text => exact ⟨text, rfl⟩
  | nested _ _ => simp at hname

/-- Findings that a run may make fail as soon as there is one. -/
theorem anyFailure_of_proper {errors : Findings}
    (h : ∀ entry ∈ errors, Finding.Proper entry.1 entry.2) :
    Finding.anyFailure errors = !errors.isEmpty := by
  cases errors with
  | nil => rfl
  | cons entry rest =>
    obtain ⟨name, finding⟩ := entry
    have hfailure := (h (name, finding) List.mem_cons_self).isFailure
    rw [Finding.anyFailure, hfailure, Bool.true_or, List.isEmpty_cons, Bool.not_false]

/-- Findings that a run may make, as members of an object, read as a report without errors exactly
when they are muted. -/
theorem isValidEntry_findings {errors : Findings}
    (h : ∀ entry ∈ errors, Finding.Proper entry.1 entry.2) :
    isValidEntry (.object (Finding.renderAll Fields.ofPairs errors)) = errors.muted := by
  rw [isValidEntry, get?_renderFindings, Findings.muted]
  cases hget : errors.get? "errors" with
  | none => rfl
  | some finding =>
    obtain ⟨text, rfl⟩ := (h _ (Fields.mem_of_get? hget)).message_of_errors
    rfl

/-- A proper report reads as valid exactly when it has no errors. -/
theorem isValidEntry_report {report : Report} (h : report.Proper) :
    isValidEntry (report.render Fields.ofPairs) = report.errors.isEmpty := by
  rw [h.render_eq, isValidEntry, Fields.get?_cons, if_pos rfl]
  exact isEmpty_renderFindings report.errors

/-- A finding that a run may make reads as a report without errors exactly when it is muted. -/
theorem Finding.Proper.isValidEntry_eq {name : String} {finding : Finding}
    (h : Finding.Proper name finding) :
    isValidEntry (finding.render Fields.ofPairs) = finding.muted := by
  cases h with
  | message => rfl
  | nested hproper _ =>
    cases hproper with
    | valid => rfl
    | errors herrors => exact isValidEntry_findings herrors
    | @fields reports herrors haux =>
      rw [Finding.render, Outcome.render, isValidEntry, get?_renderReports, Finding.muted,
        Fields.has]
      cases hget : Fields.get? reports "errors" with
      | none => rfl
      | some report =>
        have hmem := Fields.mem_of_get? hget
        have hreport : report.Proper := ⟨herrors _ hmem, haux _ hmem⟩
        rw [Option.map_some, hreport.render_eq]
        rfl

/-- Proper findings all read as valid exactly when each of them is muted. -/
theorem all_isValidEntry_findings {errors : Findings}
    (h : ∀ entry ∈ errors, Finding.Proper entry.1 entry.2) :
    ((Finding.renderAll Fields.ofPairs errors).all fun entry => isValidEntry entry.2) =
      errors.all fun entry => entry.2.muted := by
  induction errors with
  | nil => rfl
  | cons entry rest ih =>
    obtain ⟨name, finding⟩ := entry
    have hfirst := (h (name, finding) List.mem_cons_self).isValidEntry_eq
    have hrest := ih fun entry hentry => h entry (List.mem_cons_of_mem _ hentry)
    rw [Finding.renderAll, List.all_cons, List.all_cons, hfirst, hrest]

/-- Proper reports all read as valid exactly when none of them has errors. -/
theorem all_isValidEntry_reports {reports : Fields Report}
    (h : ∀ entry ∈ reports, entry.2.Proper) :
    ((Report.renderAll Fields.ofPairs reports).all fun entry => isValidEntry entry.2) =
      reports.all fun entry => entry.2.errors.isEmpty := by
  induction reports with
  | nil => rfl
  | cons entry rest ih =>
    obtain ⟨name, report⟩ := entry
    have hfirst := isValidEntry_report (h (name, report) List.mem_cons_self)
    have hrest := ih fun entry hentry => h entry (List.mem_cons_of_mem _ hentry)
    rw [Report.renderAll, List.all_cons, List.all_cons, hfirst, hrest]

/-- The report of a field called `errors`, read as if it were the reports of all fields. -/
theorem areValidEntries_report {report : Report} (h : report.Proper) :
    areValidEntries (report.render Fields.ofPairs) =
      (Findings.muted report.errors && report.aux.all fun entry => isValidEntry entry.2) := by
  rw [h.render_eq, areValidEntries, List.all_cons, isValidEntry_findings h.errors]

/-! ## The two verdicts -/

namespace Outcome

/-- An outcome of proper reports is valid exactly when none of them has errors. -/
theorem isValid_fields {reports : Fields Report} (h : ∀ entry ∈ reports, entry.2.Proper) :
    (Outcome.fields reports).isValid = reports.all fun entry => entry.2.errors.isEmpty := by
  rw [Outcome.isValid]
  induction reports with
  | nil => rfl
  | cons entry rest ih =>
    obtain ⟨name, report⟩ := entry
    have hreport : report.isValid = report.errors.isEmpty := by
      have herrors := (h (name, report) List.mem_cons_self).errors
      obtain ⟨errors, aux⟩ := report
      rw [Report.isValid, anyFailure_of_proper herrors, Bool.not_not]
    have hrest := ih fun entry hentry => h entry (List.mem_cons_of_mem _ hentry)
    rw [Report.allValid, hreport, hrest, List.all_cons]

/-- Findings about a whole record read as no failure when there are none or they are misread. -/
theorem isValidData_errors {findings : Findings}
    (h : ∀ entry ∈ findings, Finding.Proper entry.1 entry.2) :
    isValidData (Outcome.errors findings).toValue = true ↔
      findings = [] ∨ (Outcome.errors findings).Misread := by
  rw [toValue, Outcome.render, isValidData, get?_renderFindings, Misread]
  cases hget : Fields.get? findings "errors" with
  | some finding =>
    have hmem := Fields.mem_of_get? hget
    have hne : findings ≠ [] := List.ne_nil_of_mem hmem
    obtain ⟨text, rfl⟩ := (h _ hmem).message_of_errors
    show text.isEmpty = true ↔ _
    simp [hne]
  | none =>
    show ((Finding.renderAll Fields.ofPairs findings).all
      fun entry => isValidEntry entry.2) = true ↔ _
    rw [all_isValidEntry_findings h, List.all_eq_true]
    by_cases hempty : findings = []
    · simp [hempty]
    · simp [hempty]

/-- Reports read as no failure when none of them has an error, or, if one is about a field called
`errors`, when that one alone looks like reports without errors. -/
theorem isValidData_fields {reports : Fields Report} (h : ∀ entry ∈ reports, entry.2.Proper) :
    isValidData (Outcome.fields reports).toValue = true ↔
      match reports.get? "errors" with
      | some report => Findings.muted report.errors = true ∧
          ∀ entry ∈ report.aux, isValidEntry entry.2 = true
      | none => ∀ entry ∈ reports, entry.2.errors = [] := by
  rw [toValue, Outcome.render, isValidData, get?_renderReports]
  cases hget : reports.get? "errors" with
  | some report =>
    show areValidEntries (report.render Fields.ofPairs) = true ↔ _
    rw [areValidEntries_report (h _ (Fields.mem_of_get? hget)), Bool.and_eq_true,
      List.all_eq_true]
  | none =>
    show ((Report.renderAll Fields.ofPairs reports).all
      fun entry => isValidEntry entry.2) = true ↔ _
    rw [all_isValidEntry_reports h, List.all_eq_true]
    simp only [List.isEmpty_iff]

/-- The verdict of an outcome that a run may have agrees with the verdict read off its data exactly
when the outcome is not misread. -/
theorem Proper.isValidData_iff {outcome : Outcome} (h : outcome.Proper) :
    isValidData outcome.toValue = outcome.isValid ↔ ¬ outcome.Misread := by
  cases h with
  | valid => exact iff_of_true rfl id
  | @errors findings hfindings =>
    have hverdict : (Outcome.errors findings).isValid = true ↔ findings = [] := by
      rw [Outcome.isValid, anyFailure_of_proper hfindings, Bool.not_not, List.isEmpty_iff]
    rw [Bool.eq_iff_iff, hverdict, isValidData_errors hfindings]
    constructor
    · intro hagree hmisread
      exact hmisread.1 (hagree.1 (Or.inr hmisread))
    · intro hplain
      exact ⟨fun hreads => hreads.resolve_right hplain, Or.inl⟩
  | @fields reports herrors haux =>
    have hproper : ∀ entry ∈ reports, entry.2.Proper :=
      fun entry hentry => ⟨herrors entry hentry, haux entry hentry⟩
    have hverdict : (Outcome.fields reports).isValid = true ↔
        ∀ entry ∈ reports, entry.2.errors = [] := by
      rw [isValid_fields hproper, List.all_eq_true]
      simp only [List.isEmpty_iff]
    have hfailing : (∃ entry ∈ reports, entry.2.errors ≠ []) ↔
        ¬ ∀ entry ∈ reports, entry.2.errors = [] := by
      simp only [not_forall, exists_prop]
    rw [Bool.eq_iff_iff, hverdict, isValidData_fields hproper, Misread, hfailing]
    cases hget : Fields.get? reports "errors" with
    | none => simp
    | some report =>
      simp only [Option.some.injEq, exists_eq_left']
      rw [not_iff, not_iff_not]

end Outcome

/-! ## The outcomes of runs -/

/-- What the modules of a field may have handed back. -/
structure Contributions.Proper (results : Contributions) : Prop where
  errors : ∀ error ∈ results.errors, Finding.Proper error.1 error.2
  aux : results.aux = [] ∨ ∃ v, results.aux = [("title", v)]

namespace Contributions.Proper

variable {results : Contributions}

/-- No contributions are proper. -/
theorem empty : Contributions.empty.Proper := by
  refine ⟨fun error herror => ?_, Or.inl rfl⟩
  cases herror

/-- Contributions stay proper when a title is added. -/
theorem add_title (h : results.Proper) (v : Value) :
    (results.add "title" (some (.aux v))).Proper := by
  refine ⟨h.errors, Or.inr ⟨v, ?_⟩⟩
  show results.aux.put "title" v = [("title", v)]
  rcases h.aux with haux | ⟨w, haux⟩
  · rw [haux]
    rfl
  · rw [haux]
    rfl

/-- Contributions stay proper when errors are added that a run may make. -/
theorem add_errors (h : results.Proper) (name : String) {errors : Findings}
    (herrors : ∀ error ∈ errors, Finding.Proper error.1 error.2) :
    (results.add name (some (.errors errors))).Proper := by
  refine ⟨fun error herror => ?_, h.aux⟩
  rcases Fields.mem_merge herror with hmem | hmem
  · exact h.errors error hmem
  · exact herrors error hmem

end Contributions.Proper

/-- The outcome that a run may have, which is one that passes or fails, with nothing in between,
unless a report is forced. -/
structure Outcome.Settled (outcome : Outcome) (force : Bool) : Prop where
  proper : outcome.Proper
  decided : force = false → outcome = .valid ∨ outcome.isValid = false

namespace Engine

variable {σ : Type} {engine : Engine σ} {nested : NestedValidation σ}

/-- The modules of a field hand back titles, and outcomes of nested runs that do not pass: what
holds of their contributions and survives both holds when all modules have run. -/
theorem runModules_induction (hmodules : engine.modules = KnownModules.builtin) {field : String}
    {rule : CanonicalForm} (P : Contributions → Prop) (configs : Fields Configuration)
    (htitle : ∀ results v, P results → P (results.add "title" (some (.aux v))))
    (hnested : ∀ config inner s outcome t, ("objectValidator", config) ∈ configs →
      Module.nestedRules field config = .ok inner → nested inner false s = .ok outcome t →
        outcome ≠ .valid → ∀ results, P results →
          P (results.add "objectValidator" (some (.errors [("objectValidator", .nested outcome)]))))
    {results after : Contributions} {s t : Store Record σ} (hresults : P results)
    (hrun : engine.runModules nested field rule configs results s = .ok after t) : P after := by
  induction configs generalizing results s with
  | nil =>
    obtain ⟨rfl, -⟩ := Run.pure_eq_ok.1 hrun
    exact hresults
  | cons entry rest ih =>
    obtain ⟨name, config⟩ := entry
    have hrest := fun config inner s outcome t hmem =>
      hnested config inner s outcome t (List.mem_cons_of_mem (name, _) hmem)
    rw [runModules, hmodules] at hrun
    cases hget : (KnownModules.builtin : KnownModules σ).get? name with
    | none =>
      rw [hget] at hrun
      exact ih hrest hresults hrun
    | some module =>
      rw [hget] at hrun
      obtain ⟨out, u, hmodule, hrun⟩ := Run.bind_eq_ok.1 hrun
      refine ih hrest ?_ hrun
      rw [runModule, Run.target_bind] at hmodule
      obtain ⟨w, hmodule, -⟩ := Run.focus_eq_ok.1 hmodule
      have hmem := KnownModules.mem_of_builtin_get? hget
      by_cases hname : name = "objectValidator"
      · subst hname
        have hobject : module = Module.objectValidator := by
          simpa [Module.builtins] using hmem
        subst hobject
        rcases Module.objectValidator_eq_ok hmodule with
          ⟨rfl, -⟩ | ⟨inner, outcome, v, hread, hinner, -, hout⟩
        · exact hresults
        · obtain ⟨x, hinner, -⟩ := announced_eq_ok.1 hinner
          rcases hout with ⟨-, rfl⟩ | ⟨hne, rfl⟩
          · exact hresults
          · exact hnested config inner _ _ _ List.mem_cons_self hread hinner hne results hresults
      · rcases Module.builtin_ends hmem hname config _ ⟨none, s.caller⟩ with
          ⟨out', written, hends, hout⟩ | ⟨-, -, hends⟩
        · rw [hends] at hmodule
          cases hmodule
          rcases hout with rfl | ⟨rfl, v, rfl⟩
          · exact hresults
          · exact htitle results v hresults
        · rw [hends] at hmodule
          cases hmodule

/-- The modules of a field hand back what they may, if their nested runs have outcomes that runs may
have. -/
theorem runModules_proper (hmodules : engine.modules = KnownModules.builtin) {field : String}
    {rule : CanonicalForm} (configs : Fields Configuration)
    (hnested : ∀ config, ("objectValidator", config) ∈ configs → ∀ inner,
      Module.nestedRules field config = .ok inner → ∀ s outcome t,
        nested inner false s = .ok outcome t → outcome.Settled false)
    {results after : Contributions} {s t : Store Record σ} (hresults : results.Proper)
    (hrun : engine.runModules nested field rule configs results s = .ok after t) :
    after.Proper := by
  refine runModules_induction hmodules Contributions.Proper configs
    (fun results v h => h.add_title v) ?_ hresults hrun
  intro config inner s outcome t hconfig hread hinner hne results h
  have hsettled := hnested config hconfig inner hread s outcome t hinner
  refine h.add_errors _ fun error herror => ?_
  rw [List.mem_singleton.1 herror]
  exact .nested hsettled.proper ((hsettled.decided rfl).resolve_left hne)

/-- The verdicts of validators make messages. -/
theorem proper_of_failures {verdicts : List (String × Verdict)} {error : String × Finding}
    (h : error ∈ failures verdicts) : Finding.Proper error.1 error.2 := by
  obtain ⟨entry, -, hentry⟩ := List.mem_filterMap.1 h
  obtain ⟨text, -, rfl⟩ := Option.map_eq_some_iff.1 hentry
  exact .message entry.1 text

/-- The report of a field is one that a run may make, and has an error unless it is forced. -/
theorem judge_proper (hmodules : engine.modules = KnownModules.builtin)
    {depends : String → Run Record σ Bool} {field : String} {rule : Rule} {force : Bool}
    (hnested : ∀ config, ("objectValidator", config) ∈ rule.canonical.modules → ∀ inner,
      Module.nestedRules field config = .ok inner → ∀ s outcome t,
        nested inner false s = .ok outcome t → outcome.Settled false)
    {s t : Store Record σ} {report : Report}
    (hrun : engine.judge nested depends field rule force s = .ok (.checked report) t) :
    report.Proper ∧ (force = false → report.errors ≠ []) := by
  obtain ⟨found, results, u, verdicts, -, hresults, -, hresult⟩ := judge_eq_ok.1 hrun
  have hproper := runModules_proper hmodules _ hnested .empty hresults
  split at hresult
  · cases hresult
  · next hclean =>
    cases hresult
    refine ⟨⟨fun error herror => ?_, hproper.aux⟩, ?_⟩
    · rcases Fields.mem_merge herror with hmem | hmem
      · exact proper_of_failures hmem
      · exact hproper.errors error hmem
    · rintro rfl hnil
      apply hclean
      simp only at hnil
      rw [hnil]
      rfl

/-- The reports of fields are such as a run may make, each with an error unless they are forced. -/
theorem judgeAll_proper (hmodules : engine.modules = KnownModules.builtin) {rules : Fields Rule}
    {force : Bool} (turns : List (String × Rule))
    (hnested : ∀ field rule, (field, rule) ∈ turns → ∀ config,
      ("objectValidator", config) ∈ rule.canonical.modules → ∀ inner,
        Module.nestedRules field config = .ok inner → ∀ s outcome t,
          nested inner false s = .ok outcome t → outcome.Settled false)
    {s t : Store Record σ} {reports : Fields Report}
    (hrun : engine.judgeAll nested rules force turns s = .ok reports t) :
    ∀ entry ∈ reports, entry.2.Proper ∧ (force = false → entry.2.errors ≠ []) := by
  induction turns generalizing s reports with
  | nil =>
    obtain ⟨rfl, -⟩ := Run.pure_eq_ok.1 hrun
    intro entry hentry
    cases hentry
  | cons turn rest ih =>
    obtain ⟨field, rule⟩ := turn
    obtain ⟨result, u, others, hfirst, hothers, rfl⟩ := judgeAll_cons_eq_ok hrun
    have hrest := ih (fun field rule hmem => hnested field rule (List.mem_cons_of_mem _ hmem))
      hothers
    cases result with
    | valid => exact hrest
    | checked report =>
      obtain ⟨x, hjudge, -⟩ := during_eq_ok.1 hfirst
      have hreport := judge_proper hmodules (hnested field rule List.mem_cons_self) hjudge
      intro entry hentry
      rcases List.mem_cons.1 hentry with rfl | hentry
      · exact hreport
      · exact hrest entry hentry

/-- Every outcome of a run with the built-in modules is settled: by induction on the weight of the
rules, along the nested runs. -/
theorem validate_settled (hmodules : engine.modules = KnownModules.builtin) {rules : Rules}
    {force : Bool} {s t : Store Value σ} {outcome : Outcome}
    (hrun : engine.validate rules force s = .ok outcome t) : outcome.Settled force := by
  induction hweight : rules.weight using Nat.strong_induction_on
    generalizing rules force s t outcome with
  | _ n ih =>
    subst hweight
    have hnested : ∀ field rule, (field, rule) ∈ rules.members → ∀ config,
        ("objectValidator", config) ∈ rule.canonical.modules → ∀ inner,
          Module.nestedRules field config = .ok inner → ∀ s outcome t,
            engine.validate inner false s = .ok outcome t → outcome.Settled false :=
      fun field rule hrule config hconfig inner hread s outcome t hinner =>
        ih inner.weight (nestedRules_weight_lt hrule hconfig hread) hinner rfl
    rw [validate_eq_validateBy hmodules] at hrun
    cases rules with
    | fields fields =>
      obtain ⟨-, reports, u, hall, -, rfl⟩ := validateFields_eq_ok hrun
      have hreports := judgeAll_proper hmodules fields hnested hall
      have hproper : (Outcome.fields reports).Proper :=
        .fields (fun entry hentry => (hreports entry hentry).1.errors)
          fun entry hentry => (hreports entry hentry).1.aux
      split
      · exact ⟨.valid, fun _ => Or.inl rfl⟩
      · next hsome =>
        refine ⟨hproper, ?_⟩
        rintro rfl
        cases reports with
        | nil => exact absurd rfl hsome
        | cons entry rest =>
          have herrors := (hreports entry List.mem_cons_self).2
          refine Or.inr ?_
          rw [Outcome.isValid_fields fun entry hentry => (hreports entry hentry).1,
            List.all_cons, List.isEmpty_eq_false_iff.2 (herrors rfl), Bool.false_and]
    | whole descriptor =>
      obtain ⟨result, u, hjudge, -, rfl⟩ := validateWhole_eq_ok hrun
      cases result with
      | valid => exact ⟨.valid, fun _ => Or.inl rfl⟩
      | checked report =>
        obtain ⟨x, hjudge, -⟩ := during_eq_ok.1 hjudge
        obtain ⟨hreport, herrors⟩ := judge_proper hmodules
          (hnested _ _ (List.mem_singleton.2 rfl)) hjudge
        refine ⟨.errors hreport.errors, ?_⟩
        rintro rfl
        refine Or.inr ?_
        show (!Finding.anyFailure report.errors) = false
        rw [anyFailure_of_proper hreport.errors, List.isEmpty_eq_false_iff.2 (herrors rfl)]
        rfl

/-- Validation by field rules reports nothing but its fields. -/
theorem validate_fields_reports (hmodules : engine.modules = KnownModules.builtin)
    {fields : Fields Rule} {force : Bool} {s t : Store Value σ} {outcome : Outcome}
    (hrun : engine.validate (.fields fields) force s = .ok outcome t) :
    outcome = .valid ∨ ∃ reports, outcome = .fields reports ∧
      ∀ name ∈ Fields.keys reports, name ∈ fields.keys := by
  rw [validate_eq_validateBy hmodules] at hrun
  obtain ⟨-, reports, u, hall, -, rfl⟩ := validateFields_eq_ok hrun
  split
  · exact Or.inl rfl
  · exact Or.inr ⟨reports, rfl, judgeAll_keys hall⟩

/-- The two verdicts on a run with the built-in modules agree exactly when the outcome is not
misread; in particular they agree for field rules unless a field is called `errors`. -/
theorem isValidData_validate_iff (hmodules : engine.modules = KnownModules.builtin) {rules : Rules}
    {force : Bool} {s t : Store Value σ} {outcome : Outcome}
    (hrun : engine.validate rules force s = .ok outcome t) :
    (isValidData outcome.toValue = outcome.isValid ↔ ¬ outcome.Misread) ∧
    (∀ fields, rules = .fields fields → "errors" ∉ Fields.keys fields →
      isValidData outcome.toValue = outcome.isValid) := by
  have hiff := (validate_settled hmodules hrun).proper.isValidData_iff
  refine ⟨hiff, ?_⟩
  rintro fields rfl hname
  rw [hiff]
  rcases validate_fields_reports hmodules hrun with rfl | ⟨reports, rfl, hreports⟩
  · exact id
  · rintro ⟨report, hget, -⟩
    have hmem := Fields.mem_of_get? hget
    exact hname (hreports "errors" (List.mem_map.2 ⟨_, hmem, rfl⟩))

/-- A record without its required field fails by both verdicts. -/
theorem isValidData_validate_required :
    ∃ outcome after,
      (standard : Engine Unit).validate (.fields [("a", .bare (.name "required"))]) false
        ⟨.object [], ()⟩ = .ok outcome after ∧
      outcome.isValid = false ∧ isValidData outcome.toValue = outcome.isValid := by
  have hrun : (standard : Engine Unit).validate (.fields [("a", .bare (.name "required"))]) false
      ⟨.object [], ()⟩ =
        .ok (.fields [("a", ⟨[("required", .message "This field is required.")], []⟩)])
          ⟨.object [], ()⟩ := by with_unfolding_all rfl
  exact ⟨_, _, hrun, rfl, (isValidData_validate_iff rfl hrun).2 _ rfl (by decide)⟩

/-- A record that has to hold a record of its own with the field `a`, and does not, fails; but the
data of the outcome reads as a pass. -/
theorem isValidData_validate_nested :
    ∃ outcome after,
      (standard : Engine Unit).validate
        (.whole ⟨.list [], [("objectValidator", .value (.object [("a", .string "required")]))]⟩)
        false ⟨.object [("b", .ofInt 1)], ()⟩ = .ok outcome after ∧
      outcome.isValid = false ∧ isValidData outcome.toValue = true := by
  refine ⟨.errors [("objectValidator", .nested
    (.fields [("a", ⟨[("required", .message "This field is required.")], []⟩)]))],
    ⟨.object [("b", .ofInt 1)], ()⟩, ?_, ?_, ?_⟩
  · with_unfolding_all rfl
  · rfl
  · rfl

end Engine

end Vetting
