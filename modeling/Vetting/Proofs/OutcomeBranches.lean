import Vetting.Proofs.DependencyCycles
import Vetting.Proofs.OutcomeVerdict

/-!
# The branches of an outcome

An outcome without a forced report is a pass, or a tree of findings that says nothing idle: a record
that does not pass has a field with a report, a report has a finding, and a finding is a message or
the outcome of a nested run that does not pass. So all branches of the tree end in messages. The
tree follows the rules (`Outcome.Shaped`): it reports on declared fields, in the order of their
declaration, and a nested outcome stands under the name of the module for nested records and has the
shape of the rules that this module is configured with for the field. What the shape means for the
findings at any depth is `Outcome.Shaped.of_holds`, that the outcomes of runs have it is
`validate_shaped`.
-/

set_option autoImplicit false

namespace Vetting

mutual

/-- A finding about a field with some configured modules: a message under any name, or under the
name of the module for nested records an outcome of the shape of the rules that it is configured
with. -/
inductive Finding.Shaped : String → Fields Configuration → String → Finding → Prop
  | message (field : String) (modules : Fields Configuration) (name text : String) :
      Finding.Shaped field modules name (.message text)
  | nested {field : String} {modules : Fields Configuration} {config : Configuration}
      {inner : Rules} {outcome : Outcome} : ("objectValidator", config) ∈ modules →
        Module.nestedRules field config = .ok inner → Outcome.Shaped inner outcome →
          Finding.Shaped field modules "objectValidator" (.nested outcome)

/-- A report on a declared field, with at least one finding. -/
inductive Report.Shaped : Fields Rule → String → Report → Prop
  | intro {rules : Fields Rule} {field : String} {rule : Rule} {report : Report} :
      (field, rule) ∈ rules → report.errors ≠ [] →
        (∀ error ∈ report.errors,
          Finding.Shaped field rule.canonical.modules error.1 error.2) →
          Report.Shaped rules field report

/-- An outcome that does not pass, by rules for fields with at least one report, in the order in
which the fields are declared, and by rules for a value as a whole with at least one finding. -/
inductive Outcome.Shaped : Rules → Outcome → Prop
  | fields {rules : Fields Rule} {reports : List (String × Report)} : reports ≠ [] →
      (Fields.keys reports).Sublist (Fields.keys rules) →
        (∀ entry ∈ reports, Report.Shaped rules entry.1 entry.2) →
          Outcome.Shaped (.fields rules) (.fields reports)
  | errors {descriptor : Descriptor} {errors : List (String × Finding)} : errors ≠ [] →
      (∀ error ∈ errors, Finding.Shaped wholeField descriptor.modules error.1 error.2) →
        Outcome.Shaped (.whole descriptor) (.errors errors)

end

/-- An outcome holds a finding under a name, in a report, among the findings about a whole value, or
in a nested outcome that it holds. -/
inductive Outcome.Holds : Outcome → String → Finding → Prop
  | report {reports : List (String × Report)} {field name : String} {report : Report}
      {finding : Finding} : (field, report) ∈ reports → (name, finding) ∈ report.errors →
        Holds (.fields reports) name finding
  | error {errors : List (String × Finding)} {name : String} {finding : Finding} :
      (name, finding) ∈ errors → Holds (.errors errors) name finding
  | within {outcome inner : Outcome} {name name' : String} {finding : Finding} :
      Holds outcome name (.nested inner) → Holds inner name' finding → Holds outcome name' finding

mutual

/-- The messages in which the branches of a finding end. -/
def Finding.messages : Finding → List String
  | .message text => [text]
  | .nested outcome => outcome.messages

/-- The messages in which the branches of some findings end. -/
def Finding.allMessages : List (String × Finding) → List String
  | [] => []
  | (_, finding) :: rest => finding.messages ++ Finding.allMessages rest

/-- The messages of a report. -/
def Report.messages : Report → List String
  | ⟨errors, _⟩ => Finding.allMessages errors

/-- The messages of some reports. -/
def Report.allMessages : List (String × Report) → List String
  | [] => []
  | (_, report) :: rest => report.messages ++ Report.allMessages rest

/-- The messages in which the branches of an outcome end. -/
def Outcome.messages : Outcome → List String
  | .valid => []
  | .fields reports => Report.allMessages reports
  | .errors errors => Finding.allMessages errors

end

/-! ## What the shape says of findings at any depth -/

/-- Rules that are reached from reached rules are reached. -/
theorem Rules.Reaches.trans {rules inner last : Rules} (h : rules.Reaches inner)
    (hlast : inner.Reaches last) : rules.Reaches last := by
  induction h with
  | refl => exact hlast
  | nest hrule hconfig hread _ ih => exact .nest hrule hconfig hread (ih hlast)

/-- A shaped outcome does not pass. -/
theorem Outcome.Shaped.ne_valid {rules : Rules} {outcome : Outcome} (h : outcome.Shaped rules) :
    outcome ≠ .valid := by
  rintro rfl
  cases h

/-- A finding at any depth is about a declared field of the rules at that depth. -/
theorem Outcome.Shaped.of_holds {rules : Rules} {outcome : Outcome} {name : String}
    {finding : Finding} (h : outcome.Shaped rules) (hholds : outcome.Holds name finding) :
    ∃ last field rule, rules.Reaches last ∧ (field, rule) ∈ last.members ∧
      Finding.Shaped field rule.canonical.modules name finding := by
  induction hholds generalizing rules with
  | report hreport hfinding =>
    obtain ⟨-, -, hreports⟩ := h
    obtain ⟨hrule, -, hfindings⟩ := hreports _ hreport
    exact ⟨_, _, _, .refl _, hrule, hfindings _ hfinding⟩
  | error hfinding =>
    cases h with
    | @errors descriptor _ _ hfindings =>
      exact ⟨_, wholeField, .descriptor descriptor, .refl _, List.mem_singleton.2 rfl,
        hfindings _ hfinding⟩
  | within _ _ ih ihinner =>
    obtain ⟨last, field, rule, hlast, hrule, hnested⟩ := ih h
    cases hnested with
    | nested hconfig hread hinner =>
      obtain ⟨deepest, field', rule', hdeepest, hrest⟩ := ihinner hinner
      exact ⟨deepest, field', rule', hlast.trans (.nest hrule hconfig hread hdeepest), hrest⟩

/-- Findings of which each has messages have some, if there are any. -/
theorem Finding.allMessages_ne_nil {errors : List (String × Finding)} (hne : errors ≠ [])
    (h : ∀ error ∈ errors, error.2.messages ≠ []) : Finding.allMessages errors ≠ [] := by
  cases errors with
  | nil => exact absurd rfl hne
  | cons error rest =>
    intro hnil
    exact h error List.mem_cons_self (List.append_eq_nil_iff.1 hnil).1

/-- The messages of a report are those of its findings. -/
theorem Report.messages_eq (report : Report) :
    report.messages = Finding.allMessages report.errors := by
  cases report
  rfl

/-- Reports of which each has messages have some, if there are any. -/
theorem Report.allMessages_ne_nil {reports : List (String × Report)} (hne : reports ≠ [])
    (h : ∀ entry ∈ reports, entry.2.messages ≠ []) : Report.allMessages reports ≠ [] := by
  cases reports with
  | nil => exact absurd rfl hne
  | cons entry rest =>
    intro hnil
    exact h entry List.mem_cons_self (List.append_eq_nil_iff.1 hnil).1

mutual

/-- A shaped finding has messages. -/
theorem Finding.Shaped.messages_ne_nil {field name : String} {modules : Fields Configuration}
    {finding : Finding} : Finding.Shaped field modules name finding → finding.messages ≠ []
  | .message _ _ _ text => List.cons_ne_nil text []
  | .nested _ _ hinner => hinner.messages_ne_nil

/-- A shaped report has messages. -/
theorem Report.Shaped.messages_ne_nil {rules : Fields Rule} {field : String} {report : Report} :
    Report.Shaped rules field report → report.messages ≠ []
  | .intro _ hne hfindings => by
    rw [Report.messages_eq]
    exact Finding.allMessages_ne_nil hne fun error herror =>
      (hfindings error herror).messages_ne_nil

/-- An outcome of this shape ends in messages. -/
theorem Outcome.Shaped.messages_ne_nil {rules : Rules} {outcome : Outcome} :
    outcome.Shaped rules → outcome.messages ≠ []
  | .fields hne _ hreports =>
    Report.allMessages_ne_nil hne fun entry hentry => (hreports entry hentry).messages_ne_nil
  | .errors hne hfindings =>
    Finding.allMessages_ne_nil hne fun error herror => (hfindings error herror).messages_ne_nil

end

/-! ## The outcomes of runs -/

namespace Engine

variable {σ : Type} {engine : Engine σ} {nested : NestedValidation σ}

/-- The modules of a field find nothing but the outcomes of their nested runs that do not pass. -/
theorem runModules_shaped (hmodules : engine.modules = KnownModules.builtin) {field : String}
    {rule : CanonicalForm} {configs : Fields Configuration}
    (hnested : ∀ config, ("objectValidator", config) ∈ configs → ∀ inner,
      Module.nestedRules field config = .ok inner → ∀ s outcome t,
        nested inner false s = .ok outcome t → outcome = .valid ∨ outcome.Shaped inner)
    {after : Contributions} {s t : Store Record σ}
    (hrun : engine.runModules nested field rule configs .empty s = .ok after t) :
    ∀ error ∈ after.errors, Finding.Shaped field configs error.1 error.2 := by
  refine runModules_induction hmodules
    (fun results => ∀ error ∈ results.errors, Finding.Shaped field configs error.1 error.2)
    configs (fun results v h => h) ?_ (fun error herror => absurd herror List.not_mem_nil) hrun
  intro config inner s outcome t hconfig hread hinner hne results h error herror
  have hshaped := (hnested config hconfig inner hread s outcome t hinner).resolve_left hne
  rcases Fields.mem_merge herror with hmem | hmem
  · exact h error hmem
  · rw [List.mem_singleton.1 hmem]
    exact .nested hconfig hread hshaped

/-- Validators find messages. -/
theorem shaped_of_failures {field : String} {modules : Fields Configuration}
    {verdicts : List (String × Verdict)} {error : String × Finding}
    (h : error ∈ failures verdicts) : Finding.Shaped field modules error.1 error.2 := by
  obtain ⟨entry, -, hentry⟩ := List.mem_filterMap.1 h
  obtain ⟨text, -, rfl⟩ := Option.map_eq_some_iff.1 hentry
  exact .message field modules entry.1 text

/-- A field is reported on with findings only. -/
theorem judge_shaped (hmodules : engine.modules = KnownModules.builtin)
    {depends : String → Run Record σ Bool} {field : String} {rule : Rule}
    (hnested : ∀ config, ("objectValidator", config) ∈ rule.canonical.modules → ∀ inner,
      Module.nestedRules field config = .ok inner → ∀ s outcome t,
        nested inner false s = .ok outcome t → outcome = .valid ∨ outcome.Shaped inner)
    {s t : Store Record σ} {report : Report}
    (hrun : engine.judge nested depends field rule false s = .ok (.checked report) t) :
    report.errors ≠ [] ∧ ∀ error ∈ report.errors,
      Finding.Shaped field rule.canonical.modules error.1 error.2 := by
  obtain ⟨found, results, u, verdicts, -, hresults, -, hresult⟩ := judge_eq_ok.1 hrun
  have hfound := runModules_shaped hmodules hnested hresults
  split at hresult
  · cases hresult
  · next hclean =>
    cases hresult
    constructor
    · intro hnil
      apply hclean
      simp only at hnil
      rw [hnil]
      rfl
    · intro error herror
      rcases Fields.mem_merge herror with hmem | hmem
      · exact shaped_of_failures hmem
      · exact hfound error hmem

/-- Every report has the shape of a report on the field it is about. -/
theorem judgeAll_shaped (hmodules : engine.modules = KnownModules.builtin)
    {rules declared : Fields Rule} (turns : List (String × Rule)) (hturns : turns ⊆ declared)
    (hnested : ∀ field rule, (field, rule) ∈ declared → ∀ config,
      ("objectValidator", config) ∈ rule.canonical.modules → ∀ inner,
        Module.nestedRules field config = .ok inner → ∀ s outcome t,
          nested inner false s = .ok outcome t → outcome = .valid ∨ outcome.Shaped inner)
    {s t : Store Record σ} {reports : Fields Report}
    (hrun : engine.judgeAll nested rules false turns s = .ok reports t) :
    ∀ entry ∈ reports, Report.Shaped declared entry.1 entry.2 := by
  induction turns generalizing s reports with
  | nil =>
    obtain ⟨rfl, -⟩ := Run.pure_eq_ok.1 hrun
    intro entry hentry
    cases hentry
  | cons turn rest ih =>
    obtain ⟨field, rule⟩ := turn
    obtain ⟨hrule, hrest⟩ := List.cons_subset.1 hturns
    obtain ⟨result, u, others, hfirst, hothers, rfl⟩ := judgeAll_cons_eq_ok hrun
    cases result with
    | valid => exact ih hrest hothers
    | checked report =>
      obtain ⟨x, hjudge, -⟩ := during_eq_ok.1 hfirst
      obtain ⟨hne, hfindings⟩ := judge_shaped hmodules (hnested field rule hrule) hjudge
      intro entry hentry
      rcases List.mem_cons.1 hentry with rfl | hentry
      · exact .intro hrule hne hfindings
      · exact ih hrest hothers entry hentry

/-- The outcome of a run without a forced report passes or has the shape of the rules: by induction
on the weight of the rules, along the nested runs. -/
theorem validate_shaped (hmodules : engine.modules = KnownModules.builtin) {rules : Rules}
    {s t : Store Value σ} {outcome : Outcome}
    (hrun : engine.validate rules false s = .ok outcome t) :
    outcome = .valid ∨ outcome.Shaped rules := by
  induction hweight : rules.weight using Nat.strong_induction_on
    generalizing rules s t outcome with
  | _ n ih =>
    subst hweight
    have hnested : ∀ field rule, (field, rule) ∈ rules.members → ∀ config,
        ("objectValidator", config) ∈ rule.canonical.modules → ∀ inner,
          Module.nestedRules field config = .ok inner → ∀ s outcome t,
            engine.validate inner false s = .ok outcome t →
              outcome = .valid ∨ outcome.Shaped inner :=
      fun field rule hrule config hconfig inner hread s outcome t hinner =>
        ih inner.weight (nestedRules_weight_lt hrule hconfig hread) hinner rfl
    rw [validate_eq_validateBy hmodules] at hrun
    cases rules with
    | fields fields =>
      obtain ⟨-, reports, u, hall, -, rfl⟩ := validateFields_eq_ok hrun
      have hreports := judgeAll_shaped hmodules fields (List.Subset.refl _) hnested hall
      split
      · exact Or.inl rfl
      · next hsome =>
        refine Or.inr (.fields ?_ (judgeAll_sublist hall) hreports)
        rintro rfl
        exact hsome rfl
    | whole descriptor =>
      obtain ⟨result, u, hjudge, -, rfl⟩ := validateWhole_eq_ok hrun
      cases result with
      | valid => exact Or.inl rfl
      | checked report =>
        obtain ⟨x, hjudge, -⟩ := during_eq_ok.1 hjudge
        obtain ⟨hne, hfindings⟩ := judge_shaped hmodules
          (hnested _ _ (List.mem_singleton.2 rfl)) hjudge
        exact Or.inr (.errors hne hfindings)

/-- The outcome of a run without a forced report that does not pass has the shape of the rules, and
every finding that it holds, at any depth, ends in a message; where it is the outcome of a nested
run, it stands under the name of the module for nested records, does not pass and has the shape of
rules that the run has come to. -/
theorem validate_branches (hmodules : engine.modules = KnownModules.builtin) {rules : Rules}
    {s t : Store Value σ} {outcome : Outcome}
    (hrun : engine.validate rules false s = .ok outcome t) (hne : outcome ≠ .valid) :
    outcome.Shaped rules ∧ outcome.messages ≠ [] ∧
    ∀ name finding, outcome.Holds name finding →
      finding.messages ≠ [] ∧
      ∀ inner, finding = .nested inner → name = "objectValidator" ∧ inner ≠ .valid ∧
        ∃ last, rules.Reaches last ∧ inner.Shaped last := by
  have hshaped := (validate_shaped hmodules hrun).resolve_left hne
  refine ⟨hshaped, hshaped.messages_ne_nil, fun name finding hholds => ?_⟩
  obtain ⟨last, field, rule, hlast, hrule, hfinding⟩ := hshaped.of_holds hholds
  refine ⟨hfinding.messages_ne_nil, ?_⟩
  rintro inner rfl
  cases hfinding with
  | nested hconfig hread hinner =>
    exact ⟨rfl, hinner.ne_valid, _, hlast.trans (.nest hrule hconfig hread (.refl _)), hinner⟩

/-- A record that has to hold a record with the field `a`, and holds one without it, fails: the
report on the field holds the outcome of the nested run, which holds a message. -/
theorem validate_branches_nested :
    ∃ outcome after,
      (standard : Engine Unit).validate
        (.fields [("child", .descriptor ⟨.list [], [("objectValidator",
          .value (.object [("a", .string "required")]))]⟩)]) false
        ⟨.object [("child", .object [("b", .ofInt 1)])], ()⟩ = .ok outcome after ∧
      outcome ≠ .valid ∧ outcome.messages = ["This field is required."] ∧
      ∃ inner, outcome.Holds "objectValidator" (.nested inner) ∧ inner ≠ .valid := by
  have hrun : (standard : Engine Unit).validate
      (.fields [("child", .descriptor ⟨.list [], [("objectValidator",
        .value (.object [("a", .string "required")]))]⟩)]) false
      ⟨.object [("child", .object [("b", .ofInt 1)])], ()⟩ =
        .ok (.fields [("child", ⟨[("objectValidator", .nested
          (.fields [("a", ⟨[("required", .message "This field is required.")], []⟩)]))], []⟩)])
          ⟨.object [("child", .object [("b", .ofInt 1)])], ()⟩ := by with_unfolding_all rfl
  have hholds : (Outcome.fields [("child", ⟨[("objectValidator", .nested
      (.fields [("a", ⟨[("required", .message "This field is required.")], []⟩)]))], []⟩)]).Holds
        "objectValidator" (.nested
          (.fields [("a", ⟨[("required", .message "This field is required.")], []⟩)])) :=
    .report List.mem_cons_self List.mem_cons_self
  have hbranches := (validate_branches rfl hrun (by simp)).2.2 _ _ hholds
  exact ⟨_, _, hrun, by simp, rfl, _, hholds, (hbranches.2 _ rfl).2.1⟩

end Engine

end Vetting
