import Vetting.Proofs.SimpleCoercions

/-!
# The order of declaration

Where simple modules are at work and everything else is spelled out, it does not matter in which
order the fields of a rule map are declared, nor the validators of a field. The two runs on a record
both end in an error or both in a result; then the same fields are reported, with the same errors
but for their order and with the same data, the verdicts agree, and every field of the record ends
up with the same content (`validate_reordered`). Again only a default message that is computed from
the record can tell the orders apart, as it does in `validate_reordered_telling`.

What is read off a record does not depend on the order, at any depth (`findings_reordered`), and the
two runs are on a course to the same contents.
-/

set_option autoImplicit false

namespace Vetting

/-- What is read of the members of a list is read of them in every order. -/
theorem mapM_perm {α β : Type} {f : α → Option β} {l l' : List α} (h : l.Perm l') {ys : List β}
    (hys : l.mapM f = some ys) : ∃ ys', l'.mapM f = some ys' ∧ ys.Perm ys' := by
  induction h generalizing ys with
  | nil => exact ⟨ys, hys, .refl ys⟩
  | cons x _ ih =>
    rw [List.mapM_cons] at hys ⊢
    obtain ⟨y, hy, hys⟩ := Option.bind_eq_some_iff.1 hys
    obtain ⟨zs, hzs, hys⟩ := Option.bind_eq_some_iff.1 hys
    cases hys
    obtain ⟨zs', hzs', hperm⟩ := ih hzs
    exact ⟨y :: zs', by simp [hy, hzs'], hperm.cons y⟩
  | swap x y l =>
    rw [List.mapM_cons, List.mapM_cons] at hys
    obtain ⟨a, ha, hys⟩ := Option.bind_eq_some_iff.1 hys
    obtain ⟨bs, hbs, hys⟩ := Option.bind_eq_some_iff.1 hys
    obtain ⟨b, hb, hbs⟩ := Option.bind_eq_some_iff.1 hbs
    obtain ⟨zs, hzs, hbs⟩ := Option.bind_eq_some_iff.1 hbs
    cases hbs
    cases hys
    exact ⟨b :: a :: zs, by simp [ha, hb, hzs], .swap b a zs⟩
  | trans _ _ ih ih' =>
    obtain ⟨zs, hzs, hperm⟩ := ih hys
    obtain ⟨zs', hzs', hperm'⟩ := ih' hzs
    exact ⟨zs', hzs', hperm.trans hperm'⟩

/-- Two rule maps differ in the order of their fields and of the validators of a field only. -/
structure Reordered (rules rules' : Fields Rule) : Prop where
  keys : rules.keys.Perm rules'.keys
  validators : ∀ field rule rule', (field, rule) ∈ rules → (field, rule') ∈ rules' →
    rule.canonical.validators.Perm rule'.canonical.validators
  modules : ∀ field rule rule', (field, rule) ∈ rules → (field, rule') ∈ rules' →
    rule.canonical.modules = rule'.canonical.modules

namespace Reordered

variable {rules rules' : Fields Rule}

/-- A reordering can be undone. -/
theorem symm (h : Reordered rules rules') : Reordered rules' rules where
  keys := h.keys.symm
  validators field rule rule' hrule hrule' := (h.validators field rule' rule hrule' hrule).symm
  modules field rule rule' hrule hrule' := (h.modules field rule' rule hrule' hrule).symm

/-- A reordering declares as many fields. -/
theorem length_eq (h : Reordered rules rules') : rules'.length = rules.length := by
  have hkeys := h.keys.length_eq
  simp only [Fields.keys, List.length_map] at hkeys
  exact hkeys.symm

/-- Names that are distinct stay so in another order. -/
theorem distinct (h : Reordered rules rules') (hdistinct : rules.Distinct) : rules'.Distinct :=
  h.keys.nodup_iff.1 hdistinct

/-- Every rule of the one map has its counterpart in the other one. -/
theorem counterpart (h : Reordered rules rules') {field : String} {rule : Rule}
    (hrule : (field, rule) ∈ rules) :
    ∃ rule', (field, rule') ∈ rules' ∧
      rule.canonical.validators.Perm rule'.canonical.validators ∧
      rule.canonical.modules = rule'.canonical.modules := by
  have hdeclared : field ∈ rules'.keys := h.keys.mem_iff.1 (List.mem_map_of_mem hrule)
  obtain ⟨⟨_, rule'⟩, hrule', rfl⟩ := List.mem_map.1 hdeclared
  exact ⟨rule', hrule', h.validators _ rule rule' hrule hrule',
    h.modules _ rule rule' hrule hrule'⟩

/-- A field that is not declared is not declared in another order. -/
theorem get?_eq_none (h : Reordered rules rules') {field : String}
    (hget : rules.get? field = none) : rules'.get? field = none := by
  apply Fields.get?_eq_none
  intro hmem
  rw [← h.keys.mem_iff, ← Fields.get?_isSome_iff, hget] at hmem
  cases hmem

/-- A declared field has the same validators in some order, and the same modules in the same one. -/
theorem get?_eq_some (h : Reordered rules rules') {field : String} {rule : Rule}
    (hget : rules.get? field = some rule) :
    ∃ rule', rules'.get? field = some rule' ∧
      rule.canonical.validators.Perm rule'.canonical.validators ∧
      rule.canonical.modules = rule'.canonical.modules := by
  have hmem := Fields.mem_of_get? hget
  have hdeclared : field ∈ rules'.keys := h.keys.mem_iff.1 (List.mem_map_of_mem hmem)
  rw [← Fields.get?_isSome_iff] at hdeclared
  obtain ⟨rule', hget'⟩ := Option.isSome_iff_exists.1 hdeclared
  have hmem' := Fields.mem_of_get? hget'
  exact ⟨rule', hget', h.validators field rule rule' hmem hmem',
    h.modules field rule rule' hmem hmem'⟩

/-- The fields in any order, the validators of each in any order. -/
theorem of_perm (hdistinct : rules.Distinct) {reorder : String × Rule → Rule}
    (hvalidators : ∀ entry ∈ rules,
      entry.2.canonical.validators.Perm (reorder entry).canonical.validators)
    (hmodules : ∀ entry ∈ rules, entry.2.canonical.modules = (reorder entry).canonical.modules)
    (hperm : (rules.map fun entry => (entry.1, reorder entry)).Perm rules') :
    Reordered rules rules' := by
  have hunique : ∀ field rule rule', (field, rule) ∈ rules → (field, rule') ∈ rules' →
      rule' = reorder (field, rule) := by
    intro field rule rule' hrule hrule'
    obtain ⟨⟨name, declared⟩, hdeclared, hentry⟩ := List.mem_map.1 (hperm.mem_iff.2 hrule')
    cases hentry
    have hget := Fields.get?_of_mem hdistinct hrule
    rw [Fields.get?_of_mem hdistinct hdeclared] at hget
    cases hget
    rfl
  refine ⟨?_, fun field rule rule' hrule hrule' => ?_, fun field rule rule' hrule hrule' => ?_⟩
  · have hkeys := hperm.map Prod.fst
    rwa [List.map_map] at hkeys
  · rw [hunique field rule rule' hrule hrule']
    exact hvalidators _ hrule
  · rw [hunique field rule rule' hrule hrule']
    exact hmodules _ hrule

end Reordered

/-- The same fields are reported, with the same data and the same errors but for their order. -/
def SameReports (reports reports' : Fields Report) : Prop :=
  reports.keys.Perm reports'.keys ∧
    ∀ field report report', (field, report) ∈ reports → (field, report') ∈ reports' →
      report.errors.Perm report'.errors ∧ report.aux = report'.aux

/-- Two outcomes about the fields of a record report the same but for the order. -/
def Outcome.SameFindings : Outcome → Outcome → Prop
  | .valid, .valid => True
  | .fields reports, .fields reports' => SameReports reports reports'
  | _, _ => False

namespace Engine

variable {σ : Type} {engine : Engine σ} {rules rules' : Fields Rule}

/-- The validators of a field find the same failures in another order. -/
theorem findingsBy_perm {record : Record} {p : String → Option Bool} {field : String}
    {rule rule' : Rule} (h : rule.canonical.validators.Perm rule'.canonical.validators)
    {errors : Findings} (hread : engine.findingsBy record p field rule = some errors) :
    ∃ errors', engine.findingsBy record p field rule' = some errors' ∧ errors.Perm errors' := by
  unfold findingsBy at hread ⊢
  obtain ⟨verdicts, hverdicts, rfl⟩ := Option.map_eq_some_iff.1 hread
  obtain ⟨verdicts', hverdicts', hperm⟩ := mapM_perm h hverdicts
  exact ⟨failures verdicts', by rw [hverdicts', Option.map_some], hperm.filterMap _⟩

/-- What is read of a field does not depend on the order of declaration, but for its order. -/
theorem findings_reordered (h : Reordered rules rules') {record : Record} {depth : Nat}
    {field : String} {errors : Findings}
    (hread : engine.findings rules record depth field = some errors) :
    ∃ errors', engine.findings rules' record depth field = some errors' ∧
      errors.Perm errors' := by
  induction depth generalizing field errors with
  | zero =>
    cases hget : rules.get? field with
    | none =>
      rw [findings_undeclared hget] at hread
      rw [findings_undeclared (h.get?_eq_none hget)]
      exact ⟨errors, hread, .refl errors⟩
    | some rule =>
      rw [findings_zero (by simp [hget])] at hread
      cases hread
  | succ depth ih =>
    cases hget : rules.get? field with
    | none =>
      rw [findings_undeclared hget] at hread
      rw [findings_undeclared (h.get?_eq_none hget)]
      exact ⟨errors, hread, .refl errors⟩
    | some rule =>
      obtain ⟨rule', hget', hvalidators, -⟩ := h.get?_eq_some hget
      rw [findings_succ hget] at hread
      rw [findings_succ hget']
      apply findingsBy_perm hvalidators
      apply findingsBy_of_le _ hread
      intro d b hd
      obtain ⟨found, hfound, rfl⟩ := Option.map_eq_some_iff.1 hd
      obtain ⟨found', hfound', hperm⟩ := ih hfound
      rw [passes?, hfound', Option.map_some, hperm.isEmpty_eq]

/-! ## The same rules in another order -/

/-- The same fields are written into in another order. -/
theorem writes_reordered (h : Reordered rules rules') {name : String}
    (hwrites : engine.Writes rules name) : engine.Writes rules' name := by
  obtain ⟨rule, hrule, module, hmodule, hcontains⟩ := hwrites
  obtain ⟨rule', hrule', -, hmodules⟩ := h.counterpart hrule
  rw [hmodules] at hmodule
  exact ⟨rule', hrule', module, hmodule, hcontains⟩

/-- Simple rules are simple in another order. -/
theorem simpleRules_reordered (h : Reordered rules rules') (hsimple : engine.SimpleRules rules) :
    engine.SimpleRules rules' where
  distinct := h.distinct hsimple.distinct
  explicit := by
    intro entry hentry
    obtain ⟨rule, hrule, hvalidators, -⟩ := h.symm.counterpart hentry
    have hexplicit := hsimple.explicit _ hrule
    refine ⟨fun name spec hspec => ?_, fun name spec hspec => ?_⟩
    · exact hexplicit.plain name spec (hvalidators.mem_iff.1 hspec)
    · exact hexplicit.messages name spec (hvalidators.mem_iff.1 hspec)
  simple := by
    intro entry hentry
    obtain ⟨rule, hrule, -, hmodules⟩ := h.symm.counterpart hentry
    rw [hmodules]
    exact hsimple.simple _ hrule
  defaults := by
    intro field rule' hrule' name spec hspec hmessage validator hvalidator record record' hagree
    obtain ⟨rule, hrule, hvalidators, -⟩ := h.symm.counterpart hrule'
    apply hsimple.defaults field rule hrule name spec (hvalidators.mem_iff.1 hspec) hmessage
      validator hvalidator
    intro other hrest
    apply hagree
    apply hrest.imp_left
    exact fun hunwritten hwrites => hunwritten (writes_reordered h.symm hwrites)

/-- Each field is brought to the same content in another order. -/
theorem broughtTo_reordered (h : Reordered rules rules') (start : Record) (name : String) :
    engine.broughtTo rules' start name = engine.broughtTo rules start name := by
  unfold broughtTo
  cases hget : rules.get? name with
  | none => rw [h.get?_eq_none hget]
  | some rule =>
    obtain ⟨rule', hget', -, hmodules⟩ := h.get?_eq_some hget
    simp only [hget', hmodules]

/-- Each field is reported with the same data in another order. -/
theorem auxOf_reordered (h : Reordered rules rules') :
    engine.auxOf rules' = engine.auxOf rules := by
  funext field
  unfold auxOf
  cases hget : rules.get? field with
  | none => rw [h.get?_eq_none hget]
  | some rule =>
    obtain ⟨rule', hget', -, hmodules⟩ := h.get?_eq_some hget
    simp only [hget', hmodules]

end Engine

/-! ## Reports -/

/-- Reports on some fields, with these errors and data. -/
def reportsOf (names : List String) (errors : String → Findings) (aux : String → Fields Value) :
    Fields Report :=
  names.map fun name => (name, ⟨errors name, aux name⟩)

section Reports

variable {names names' : List String} {errors errors' : String → Findings}
  {aux : String → Fields Value}

/-- The reports with errors are those of the names that have some. -/
theorem withErrors_reportsOf :
    Report.withErrors (reportsOf names errors aux) =
      reportsOf (names.filter fun name => !(errors name).isEmpty) errors aux := by
  unfold Report.withErrors reportsOf
  rw [List.filter_map]
  rfl

/-- The names are reported in their order. -/
theorem keys_reportsOf : (reportsOf names errors aux).keys = names := by
  simp [reportsOf, Fields.keys, Function.comp_def]

/-- Names in another order, with the same errors in some order, have the same reports. -/
theorem sameReports_reportsOf (hnames : names.Perm names')
    (herrors : ∀ name ∈ names, (errors name).Perm (errors' name)) :
    SameReports (reportsOf names errors aux) (reportsOf names' errors' aux) := by
  constructor
  · rw [keys_reportsOf, keys_reportsOf]
    exact hnames
  · intro field report report' hreport hreport'
    obtain ⟨name, hname, hentry⟩ := List.mem_map.1 hreport
    obtain ⟨name', -, hentry'⟩ := List.mem_map.1 hreport'
    cases hentry
    cases hentry'
    exact ⟨herrors field hname, rfl⟩

/-- A run that is not forced returns the reports of the names with errors, and passes if there is
none. -/
theorem returned_reportsOf :
    (Outcome.fields (reportsOf names errors aux)).returned false =
      if (names.filter fun name => !(errors name).isEmpty).isEmpty then .valid
      else .fields (reportsOf (names.filter fun name => !(errors name).isEmpty) errors aux) := by
  have hcut : (Outcome.fields (reportsOf names errors aux)).returned false =
      (Outcome.fields (reportsOf names errors aux)).unforced := rfl
  have hempty : ∀ names, (reportsOf names errors aux).isEmpty = names.isEmpty :=
    fun names => List.isEmpty_map
  rw [hcut, Outcome.unforced, withErrors_reportsOf, hempty]

/-- Cut down to the errors or not, outcomes report the same if they do so in full. -/
theorem sameFindings_returned (hnames : names.Perm names')
    (herrors : ∀ name ∈ names, (errors name).Perm (errors' name)) (force : Bool) :
    ((Outcome.fields (reportsOf names errors aux)).returned force).SameFindings
      ((Outcome.fields (reportsOf names' errors' aux)).returned force) := by
  cases force with
  | true => exact sameReports_reportsOf hnames herrors
  | false =>
    have hkept : (names.filter fun name => !(errors name).isEmpty).Perm
        (names'.filter fun name => !(errors' name).isEmpty) := by
      have hsame : ∀ name ∈ names', (!(errors name).isEmpty) = !(errors' name).isEmpty := by
        intro name hname
        rw [(herrors name (hnames.mem_iff.2 hname)).isEmpty_eq]
      rw [← List.filter_congr hsame]
      exact hnames.filter _
    rw [returned_reportsOf, returned_reportsOf, hkept.isEmpty_eq]
    split
    · exact trivial
    · apply sameReports_reportsOf hkept
      exact fun name hname => herrors name (List.mem_of_mem_filter hname)

end Reports

/-- Whether there is a failure among errors does not depend on their order. -/
theorem Finding.anyFailure_perm {errors errors' : Findings} (h : errors.Perm errors') :
    Finding.anyFailure errors = Finding.anyFailure errors' := by
  induction h with
  | nil => rfl
  | cons entry _ ih => rw [Finding.anyFailure, Finding.anyFailure, ih]
  | swap first second rest =>
    simp only [Finding.anyFailure, ← Bool.or_assoc, Bool.or_comm]
  | trans _ _ ih ih' => rw [ih, ih']

/-- Reports are all valid if each of them is. -/
theorem Report.allValid_iff {reports : Fields Report} :
    Report.allValid reports = true ↔ ∀ entry ∈ reports, entry.2.isValid = true := by
  induction reports with
  | nil => simp [Report.allValid]
  | cons entry rest ih => simp [Report.allValid, ih]

namespace SameReports

variable {reports reports' : Fields Report}

/-- Reports that are the same for one side are the same for the other. -/
theorem symm (h : SameReports reports reports') : SameReports reports' reports := by
  refine ⟨h.1.symm, fun field report report' hreport hreport' => ?_⟩
  obtain ⟨herrors, haux⟩ := h.2 field report' report hreport' hreport
  exact ⟨herrors.symm, haux.symm⟩

/-- If reports are all valid, so are the same reports in another order. -/
theorem allValid (h : SameReports reports reports') (hvalid : Report.allValid reports = true) :
    Report.allValid reports' = true := by
  rw [Report.allValid_iff] at hvalid ⊢
  rintro ⟨field, errors', aux'⟩ hentry'
  have hfield : field ∈ reports.keys := h.1.mem_iff.2 (List.mem_map_of_mem hentry')
  obtain ⟨⟨_, errors, aux⟩, hentry, rfl⟩ := List.mem_map.1 hfield
  have hreport := hvalid _ hentry
  rw [Report.isValid] at hreport ⊢
  rwa [← Finding.anyFailure_perm (h.2 _ _ _ hentry hentry').1]

end SameReports

/-- Outcomes that report the same have the same verdict. -/
theorem Outcome.SameFindings.isValid_eq {outcome outcome' : Outcome}
    (h : outcome.SameFindings outcome') : outcome.isValid = outcome'.isValid := by
  cases outcome with
  | valid =>
    cases outcome' with
    | valid => rfl
    | fields reports' => cases h
    | errors errors' => cases h
  | fields reports =>
    cases outcome' with
    | valid => cases h
    | fields reports' =>
      have hsame : SameReports reports reports' := h
      rw [Outcome.isValid, Outcome.isValid, Bool.eq_iff_iff]
      exact ⟨hsame.allValid, hsame.symm.allValid⟩
    | errors errors' => cases h
  | errors errors => cases h

namespace Engine

variable {σ : Type} {engine : Engine σ} {rules rules' : Fields Rule}

/-- What is read of a field, if anything. -/
def errorsRead (engine : Engine σ) (rules : Fields Rule) (record : Record) (name : String) :
    Findings :=
  (engine.findings rules record (rules.length + 1) name).getD []

/-- If the findings of all declared fields can be read, so can the reports. -/
theorem mapM_reportOn {record : Record} {aux : String → Fields Value}
    (h : ∀ name ∈ rules.keys, (engine.findings rules record (rules.length + 1) name).isSome) :
    rules.mapM (engine.reportOn rules record aux) =
      some (reportsOf rules.keys (engine.errorsRead rules record) aux) := by
  have hreports : reportsOf rules.keys (engine.errorsRead rules record) aux =
      rules.map fun entry => (entry.1, ⟨engine.errorsRead rules record entry.1, aux entry.1⟩) := by
    rw [reportsOf, Fields.keys, List.map_map]
    rfl
  rw [hreports]
  apply mapM_of_eq_some
  intro entry hentry
  obtain ⟨errors, herrors⟩ := Option.isSome_iff_exists.1 (h entry.1 (List.mem_map_of_mem hentry))
  rw [reportOn, errorsRead, herrors]
  rfl

/-- If every declared field can be reported, its findings are defined. -/
theorem isSome_findings {record : Record} {aux : String → Fields Value}
    (h : (rules.mapM (engine.reportOn rules record aux)).isSome) {name : String}
    (hname : name ∈ rules.keys) :
    (engine.findings rules record (rules.length + 1) name).isSome := by
  obtain ⟨entry, hentry, rfl⟩ := List.mem_map.1 hname
  have hreport := isSome_of_mapM h hentry
  rwa [reportOn, Option.isSome_map] at hreport

/-- Findings that are defined are so in another order. -/
theorem isSome_findings_reordered (h : Reordered rules rules') {record : Record} {name : String}
    (hread : (engine.findings rules record (rules.length + 1) name).isSome) :
    (engine.findings rules' record (rules'.length + 1) name).isSome := by
  obtain ⟨errors, herrors⟩ := Option.isSome_iff_exists.1 hread
  obtain ⟨errors', herrors', -⟩ := findings_reordered h herrors
  rw [h.length_eq, herrors']
  rfl

/-- The errors of a field are the same in another order. -/
theorem errorsRead_reordered (h : Reordered rules rules') {record : Record} {name : String}
    (hread : (engine.findings rules record (rules.length + 1) name).isSome) :
    (engine.errorsRead rules record name).Perm (engine.errorsRead rules' record name) := by
  obtain ⟨errors, herrors⟩ := Option.isSome_iff_exists.1 hread
  obtain ⟨errors', herrors', hperm⟩ := findings_reordered h herrors
  rw [errorsRead, errorsRead, herrors, h.length_eq, herrors']
  exact hperm

/-- The reports on a record are read for both orders or for none, and come to the same. -/
theorem reports_reordered (h : Reordered rules rules') {record : Record}
    {aux : String → Fields Value} :
    rules.mapM (engine.reportOn rules record aux) = none ∧
        rules'.mapM (engine.reportOn rules' record aux) = none ∨
      ∃ errors errors', (∀ name ∈ rules.keys, (errors name).Perm (errors' name)) ∧
        rules.mapM (engine.reportOn rules record aux) =
          some (reportsOf rules.keys errors aux) ∧
        rules'.mapM (engine.reportOn rules' record aux) =
          some (reportsOf rules'.keys errors' aux) := by
  by_cases hread : ∀ name ∈ rules.keys,
      (engine.findings rules record (rules.length + 1) name).isSome
  · refine Or.inr ⟨_, _, fun name hname => errorsRead_reordered h (hread name hname),
      mapM_reportOn hread, mapM_reportOn fun name hname => ?_⟩
    exact isSome_findings_reordered h (hread name (h.keys.mem_iff.2 hname))
  · refine Or.inl ⟨?_, ?_⟩
    · apply Option.not_isSome_iff_eq_none.1
      intro hsome
      exact hread fun name hname => isSome_findings hsome hname
    · apply Option.not_isSome_iff_eq_none.1
      intro hsome
      apply hread
      intro name hname
      apply isSome_findings_reordered h.symm
      exact isSome_findings hsome (h.keys.mem_iff.1 hname)

/-- Rules that spell everything out, with simple modules, in two orders of declaration: either both
runs on a record end in an error, or both end in a result, with the same verdict and the same
reports but for the order, and leave the same content in every field. -/
theorem validate_reordered (hsimple : engine.SimpleRules rules) (h : Reordered rules rules')
    (members : Record) (force : Bool) (c c' : σ) :
    (∃ e t e' t', engine.validate (.fields rules) force ⟨.object members, c⟩ = .error e t ∧
      engine.validate (.fields rules') force ⟨.object members, c'⟩ = .error e' t') ∨
    (∃ outcome r d outcome' r' d',
      engine.validate (.fields rules) force ⟨.object members, c⟩ = .ok outcome ⟨.object r, d⟩ ∧
      engine.validate (.fields rules') force ⟨.object members, c'⟩ =
        .ok outcome' ⟨.object r', d'⟩ ∧
      outcome.isValid = outcome'.isValid ∧ outcome.SameFindings outcome' ∧
      ∀ name, Fields.get? r name = Fields.get? r' name) := by
  have hfinal : ∀ name, (engine.finalRecord rules members).get? name =
      engine.broughtTo rules members name := get?_finalRecord hsimple.distinct members
  have hfinal' : ∀ name, (engine.finalRecord rules members).get? name =
      engine.broughtTo rules' members name := by
    intro name
    rw [hfinal, broughtTo_reordered h]
  have hstart : Between members (engine.finalRecord rules members) members :=
    fun name => Or.inl rfl
  have hsimple' := simpleRules_reordered h hsimple
  have hanswers := (course_of_simple hsimple _ hfinal).validate_answers hsimple.distinct hstart
    force c
  have hanswers' := (course_of_simple hsimple' _ hfinal').validate_answers hsimple'.distinct hstart
    force c'
  rw [auxOf_reordered h] at hanswers'
  rcases reports_reordered h with ⟨hnone, hnone'⟩ | ⟨errors, errors', herrors, hsome, hsome'⟩
  · rw [hnone] at hanswers
    rw [hnone'] at hanswers'
    obtain ⟨e, t, hrun⟩ := hanswers
    obtain ⟨e', t', hrun'⟩ := hanswers'
    exact Or.inl ⟨e, t, e', t', hrun, hrun'⟩
  · rw [hsome] at hanswers
    rw [hsome'] at hanswers'
    obtain ⟨⟨_, d⟩, hrun, r, rfl, -, hr⟩ := hanswers
    obtain ⟨⟨_, d'⟩, hrun', r', rfl, -, hr'⟩ := hanswers'
    have hsame : ((Outcome.fields (reportsOf rules.keys errors (engine.auxOf rules))).returned
        force).SameFindings ((Outcome.fields (reportsOf rules'.keys errors'
          (engine.auxOf rules))).returned force) := sameFindings_returned h.keys herrors force
    refine Or.inr ⟨_, r, d, _, r', d', hrun, hrun', hsame.isValid_eq, hsame, fun name => ?_⟩
    rw [hr name, hr' name]

/-- The rule of a field that is trimmed, has a title, has to be there and to equal another one. -/
def fullNameRule : Rule :=
  .descriptor ⟨.specs [("required", .empty), ("equalsTo", .ofValues [.dependsOn "nick"])],
    [("trimValue", .value (.bool true)), ("title", .value (.string "Name"))]⟩

/-- The same rule with its validators the other way round. -/
def fullNameRule' : Rule :=
  .descriptor ⟨.specs [("equalsTo", .ofValues [.dependsOn "nick"]), ("required", .empty)],
    [("trimValue", .value (.bool true)), ("title", .value (.string "Name"))]⟩

/-- The rule of a field that is given a default value. -/
def nickRule : Rule :=
  .descriptor ⟨.list ["required"], [("defaultValue", .value (.string "x"))]⟩

/-- The rules for a name and a nickname are simple. -/
theorem simpleRules_fullName :
    (standard : Engine Unit).SimpleRules [("name", fullNameRule), ("nick", nickRule)] where
  distinct := by decide
  explicit := by decide
  simple := by
    intro entry hentry
    simp only [List.mem_cons, List.not_mem_nil, or_false] at hentry
    rcases hentry with rfl | rfl
    · apply simple_of_builtin rfl _ (by decide)
      simp [fullNameRule, Rule.canonical]
    · apply simple_of_builtin rfl _ (by decide)
      simp [nickRule, Rule.canonical]
  defaults _ _ _ _ _ _ _ _ hvalidator :=
    Message.within_of_isText _ (KnownValidators.isText_of_builtin_get? hvalidator)

/-- Declaring the nickname first, and the validators of the name the other way round, is a
reordering. -/
theorem reordered_fullName :
    Reordered [("name", fullNameRule), ("nick", nickRule)]
      [("nick", nickRule), ("name", fullNameRule')] := by
  have hswapped : (([("name", fullNameRule), ("nick", nickRule)] : Fields Rule).map fun entry =>
      (entry.1, if entry.1 = "name" then fullNameRule' else entry.2)).Perm
        [("nick", nickRule), ("name", fullNameRule')] := .swap _ _ _
  refine .of_perm (by decide) ?_ ?_ hswapped
  · intro entry hentry
    simp only [List.mem_cons, List.not_mem_nil, or_false] at hentry
    rcases hentry with rfl | rfl
    · exact .swap _ _ _
    · exact .refl _
  · intro entry hentry
    simp only [List.mem_cons, List.not_mem_nil, or_false] at hentry
    rcases hentry with rfl | rfl
    · rfl
    · rfl

/-- A field that is trimmed and differs from the default value of the other one is reported in
either order of declaration, and the record ends up the same. -/
theorem validate_reordered_name :
    (standard : Engine Unit).validate (.fields [("name", fullNameRule), ("nick", nickRule)]) false
        ⟨.object [("name", .string " y ")], ()⟩ =
      .ok (.fields [("name", ⟨[("equalsTo", .message "Please enter a value equal to nick.")],
          [("title", .string "Name")]⟩)])
        ⟨.object [("name", .string "y"), ("nick", .string "x")], ()⟩ ∧
    ∃ outcome r, (standard : Engine Unit).validate
        (.fields [("nick", nickRule), ("name", fullNameRule')]) false
        ⟨.object [("name", .string " y ")], ()⟩ = .ok outcome ⟨.object r, ()⟩ ∧
      outcome.isValid = false ∧ Fields.get? r "name" = some (.string "y") ∧
      Fields.get? r "nick" = some (.string "x") := by
  have hrun : (standard : Engine Unit).validate
      (.fields [("name", fullNameRule), ("nick", nickRule)]) false
      ⟨.object [("name", .string " y ")], ()⟩ =
        .ok (.fields [("name", ⟨[("equalsTo", .message "Please enter a value equal to nick.")],
            [("title", .string "Name")]⟩)])
          ⟨.object [("name", .string "y"), ("nick", .string "x")], ()⟩ := by
    with_unfolding_all rfl
  refine ⟨hrun, ?_⟩
  rcases validate_reordered simpleRules_fullName reordered_fullName [("name", .string " y ")]
    false () () with ⟨e, t, e', t', herror, -⟩ |
      ⟨outcome, r, d, outcome', r', d', hok, hok', hvalid, -, hcontents⟩
  · rw [hrun] at herror
    cases herror
  · rw [hrun] at hok
    cases hok
    refine ⟨outcome', r', hok', hvalid.symm, ?_, ?_⟩
    · rw [← hcontents]
      rfl
    · rw [← hcontents]
      rfl

/-- The rule of a field that is only trimmed. -/
def trimmedRule : Rule := .descriptor ⟨.list [], [("trimValue", .value (.bool true))]⟩

/-- A default message that tells what another field holds depends on whether that field has been
trimmed yet, and so on the order of declaration. -/
theorem validate_reordered_telling :
    (∀ entry ∈ [("f", Rule.bare (.name "tell")), ("other", trimmedRule)], entry.2.Explicit) ∧
    (∀ entry ∈ [("f", Rule.bare (.name "tell")), ("other", trimmedRule)],
      telling.Simple entry.2.canonical.modules) ∧
    Reordered [("f", .bare (.name "tell")), ("other", trimmedRule)]
      [("other", trimmedRule), ("f", .bare (.name "tell"))] ∧
    telling.validate (.fields [("f", .bare (.name "tell")), ("other", trimmedRule)]) false
        ⟨.object [("f", .ofInt 1), ("other", .string " x ")], ()⟩ =
      .ok (.fields [("f", ⟨[("tell", .message " x ")], []⟩)])
        ⟨.object [("f", .ofInt 1), ("other", .string "x")], ()⟩ ∧
    telling.validate (.fields [("other", trimmedRule), ("f", .bare (.name "tell"))]) false
        ⟨.object [("f", .ofInt 1), ("other", .string " x ")], ()⟩ =
      .ok (.fields [("f", ⟨[("tell", .message "x")], []⟩)])
        ⟨.object [("f", .ofInt 1), ("other", .string "x")], ()⟩ ∧
    ¬ (Outcome.fields [("f", ⟨[("tell", .message " x ")], []⟩)]).SameFindings
      (.fields [("f", ⟨[("tell", .message "x")], []⟩)]) := by
  refine ⟨by decide, ?_, ?_, ?_, ?_, ?_⟩
  · intro entry hentry
    simp only [List.mem_cons, List.not_mem_nil, or_false] at hentry
    rcases hentry with rfl | rfl
    · exact ⟨fun _ _ hconfig => (nomatch hconfig), List.Pairwise.nil⟩
    · apply simple_of_builtin rfl _ (by decide)
      simp [trimmedRule, Rule.canonical]
  · have hswapped : (([("f", .bare (.name "tell")), ("other", trimmedRule)] : Fields Rule).map
        fun entry => (entry.1, entry.2)).Perm
          [("other", trimmedRule), ("f", .bare (.name "tell"))] := .swap _ _ _
    exact .of_perm (by decide) (fun _ _ => .refl _) (fun _ _ => rfl) hswapped
  · with_unfolding_all rfl
  · with_unfolding_all rfl
  · rintro ⟨-, hsame⟩
    have herrors := (hsame "f" _ _ List.mem_cons_self List.mem_cons_self).1
    have htold := herrors.mem_iff.1 List.mem_cons_self
    simp at htold

end Engine

end Vetting
