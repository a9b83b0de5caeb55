import Vetting.Proofs.BuiltinModules
import Vetting.Proofs.Evaluation
import Vetting.Proofs.MapsInOrder
import Vetting.Proofs.RelatedRuns

/-!
# Related evaluations

Two engines evaluate the same fields of related records, or one engine evaluates them twice. The two
evaluations are related as soon as their parts are: the runs of the modules of a field, and each of
its validators, which has to be passed over alike, to be given related arguments and to conclude
alike (`CheckRelated`). What assembles a call, checks one validator and all of them, and judges a
field then is related without more ado (`judge_related`), and so is what settles a dependency, by
induction on the declared fields that are not in progress (`RulesRelated.dependencyPasses`), what
goes through a rule map and what validates a whole value (`validateBy_related`).

The relations are parameters: `T` of records, `V` of values, `R` of the states of callers, `G` of
arguments, `P` of reports and `O` of outcomes.
-/

set_option autoImplicit false

namespace Vetting

variable {σ σ' : Type} {X : SetupError → Prop} {T : Record → Record → Prop} {R : σ → σ' → Prop}
  {G : Argument → Argument → Prop} {P : Report → Report → Prop}

/-! ## Calls of validators -/

/-- Two bound parameters come to related arguments with one text, the value of a field among them
when it is there. -/
inductive BoundParam.Related (G : Argument → Argument → Prop) : BoundParam → BoundParam → Prop where
  | literal {v v' : Value} (argument : G (.value v) (.value v'))
      (display : v.display = v'.display) : Related G (.literal v) (.literal v')
  | dependsOn (field : String) : Related G (.dependsOn field) (.dependsOn field)
  | predicate {hook hook' : Hook (Value → Bool)}
      (argument : G (.predicate hook.run) (.predicate hook'.run)) :
      Related G (.predicate hook) (.predicate hook')

/-- Bound parameters come to the arguments that they come to. -/
theorem BoundParam.Related.refl (params : List BoundParam) :
    List.Forall₂ (BoundParam.Related Eq) params params := by
  refine List.forall₂_same.2 fun param _ => ?_
  cases param with
  | literal v => exact .literal rfl rfl
  | dependsOn field => exact .dependsOn field
  | predicate hook => exact .predicate rfl

/-- Two calls are related: argument by argument, and with the same texts. -/
structure Call.Related (G : Argument → Argument → Prop) (call call' : Call) : Prop where
  arguments : List.Forall₂ G call.arguments call'.arguments
  displays : call.displays = call'.displays

/-- Related calls, if they could be assembled, stay so with related arguments in front. -/
theorem SameErrorOr.cons {call call' : Except String Call} {a a' : Argument}
    (h : SameErrorOr (Call.Related G) call call') (hargument : G a a') (display : String) :
    SameErrorOr (Call.Related G) (call.map (.cons a display)) (call'.map (.cons a' display)) := by
  cases h with
  | ok h => exact .ok ⟨.cons hargument h.arguments, congrArg (display :: ·) h.displays⟩
  | error field => exact .error field

/-- A dependency is settled in related ways, and what its field holds makes related arguments. -/
structure DependencyRelated (X : SetupError → Prop) (T : Record → Record → Prop)
    (R : σ → σ' → Prop) (G : Argument → Argument → Prop) (depends : String → Run Record σ Bool)
    (depends' : String → Run Record σ' Bool) (d : String) : Prop where
  run : Run.Related X T R Eq (depends d) (depends' d)
  read : ∀ r r', T r r' → G (.value (r.read d)) (.value (r'.read d))

section Dependencies

variable {depends : String → Run Record σ Bool} {depends' : String → Run Record σ' Bool}

/-- Related parameters are turned into related calls if their dependencies are related. -/
theorem assembleCall_related {params params' : List BoundParam}
    (hparams : List.Forall₂ (BoundParam.Related G) params params')
    (hdepends : ∀ d ∈ params.filterMap BoundParam.dependency?,
      DependencyRelated X T R G depends depends' d) :
    Run.Related X T R (SameErrorOr (Call.Related G)) (assembleCall depends params)
      (assembleCall depends' params') := by
  induction hparams with
  | nil => exact Run.related_pure (.ok ⟨.nil, rfl⟩)
  | @cons param param' rest rest' hfirst _ ih =>
    have hrest := ih fun d hd => hdepends d (mem_dependencies_cons param hd)
    cases hfirst with
    | literal hargument hdisplay =>
      rw [assembleCall, assembleCall, hdisplay]
      exact hrest.bind fun _ _ hcall => Run.related_pure (hcall.cons hargument _)
    | predicate hargument =>
      exact hrest.bind fun _ _ hcall => Run.related_pure (hcall.cons hargument _)
    | dependsOn field =>
      have hfield := hdepends field (by simp [BoundParam.dependency?])
      refine hfield.run.bind fun passed _ heq => heq ▸ ?_
      cases passed with
      | false => exact Run.related_pure (.error field)
      | true =>
        refine Run.related_target fun r r' hr => hrest.bind fun _ _ hcall => ?_
        exact Run.related_pure (hcall.cons (hfield.read r r' hr) field)

/-! ## Validators -/

/-- Two validators with their specs do the same with a field of related records: they are passed
over alike, have related parameters, and come to one conclusion on related calls. -/
structure CheckRelated (T : Record → Record → Prop) (G : Argument → Argument → Prop)
    (field : String) (entry entry' : Validator × Spec) : Prop where
  presence : entry.1.presence = entry'.1.presence
  blank : ∀ r r', T r r' → (r.read field).isBlank = (r'.read field).isBlank
  params : ∀ r r', T r r' →
    List.Forall₂ (BoundParam.Related G) (entry.2.bind r) (entry'.2.bind r')
  passes : ∀ r r' args args', T r r' → List.Forall₂ G args args' →
    (entry.1.check (r.read field) args == entry.2.expectedResult r args) =
      (entry'.1.check (r'.read field) args' == entry'.2.expectedResult r' args')
  message : ∀ r r' args args', T r r' → List.Forall₂ G args args' →
    (entry.2.message.getD entry.1.message).template r args =
      (entry'.2.message.getD entry'.1.message).template r' args'

/-- A validator does the same with equal records. -/
theorem CheckRelated.refl (field : String) (entry : Validator × Spec) :
    CheckRelated Eq Eq field entry entry where
  presence := rfl
  blank := by
    rintro r _ rfl
    rfl
  params := by
    rintro r _ rfl
    exact BoundParam.Related.refl _
  passes := by
    rintro r _ args args' rfl hargs
    rw [List.forall₂_eq_eq_eq] at hargs
    rw [hargs]
  message := by
    rintro r _ args args' rfl hargs
    rw [List.forall₂_eq_eq_eq] at hargs
    rw [hargs]

/-- Validators that are looked up under the same names and do the same with a field. -/
abbrev FoundRelated (T : Record → Record → Prop) (G : Argument → Argument → Prop)
    (field : String) : List (String × Validator × Spec) → List (String × Validator × Spec) → Prop :=
  Fields.Parallel fun _ => CheckRelated T G field

namespace Engine

/-- Two engines keep step: they have the same settings, and their observers keep related states
related. -/
structure InStep (R : σ → σ' → Prop) (engine : Engine σ) (engine' : Engine σ') : Prop where
  settings : engine.settings = engine'.settings
  observe : ∀ event c c', R c c' → R (engine.observe event c) (engine'.observe event c')

variable {engine : Engine σ} {engine' : Engine σ'} {field : String}

/-- Validators that do the same with a field come to one verdict. -/
theorem check_related (hstep : InStep R engine engine') {entry entry' : Validator × Spec}
    (h : CheckRelated T G field entry entry')
    (hdepends : ∀ d ∈ entry.2.values.filterMap Param.dependency?,
      DependencyRelated X T R G depends depends' d) (name : String) :
    Run.Related X T R Eq (engine.check depends field name entry.1 entry.2)
      (engine'.check depends' field name entry'.1 entry'.2) := by
  refine Run.related_target fun r r' hr => ?_
  rw [h.presence, h.blank r r' hr, hstep.settings]
  split
  · exact Run.related_pure rfl
  · rw [← Spec.dependencies_bind r] at hdepends
    refine (assembleCall_related (h.params r r' hr) hdepends).bind fun call call' hcall => ?_
    cases hcall with
    | error d =>
      exact (Run.related_modifyCaller (hstep.observe _)).bind fun _ _ _ => Run.related_pure rfl
    | ok hcall =>
      refine Run.related_target fun r r' hr => ?_
      dsimp only
      rw [h.passes r r' _ _ hr hcall.arguments, h.message r r' _ _ hr hcall.arguments,
        hcall.displays]
      split <;> exact Run.related_pure rfl

/-- The validators of a field come to the same verdicts, each under its own name. -/
theorem checkAll_related (hstep : InStep R engine engine')
    {found found' : List (String × Validator × Spec)} (h : FoundRelated T G field found found')
    (hdepends : ∀ entry ∈ found, ∀ d ∈ entry.2.2.values.filterMap Param.dependency?,
      DependencyRelated X T R G depends depends' d) :
    Run.Related X T R
      (fun verdicts verdicts' => verdicts = verdicts' ∧ Fields.keys verdicts = Fields.keys found)
      (engine.checkAll depends field found) (engine'.checkAll depends' field found') := by
  induction h with
  | nil => exact Run.related_pure ⟨rfl, rfl⟩
  | @cons entry entry' rest rest' hfirst _ ih =>
    obtain ⟨name, entry⟩ := entry
    obtain ⟨name', entry'⟩ := entry'
    obtain ⟨rfl, hcheck⟩ := hfirst
    have hown := hdepends (name, entry) List.mem_cons_self
    have hothers := ih fun entry hentry => hdepends entry (List.mem_cons_of_mem _ hentry)
    refine (check_related hstep hcheck hown name).bind fun verdict _ heq => heq ▸ ?_
    refine hothers.bind fun verdicts _ hverdicts => Run.related_pure ?_
    obtain ⟨rfl, hkeys⟩ := hverdicts
    exact ⟨rfl, congrArg (name :: ·) hkeys⟩

end Engine

end Dependencies

/-! ## Fields -/

/-- Two results for a field are related: it passes, or the reports are. -/
inductive FieldResult.Related (P : Report → Report → Prop) : FieldResult → FieldResult → Prop where
  | valid : Related P .valid .valid
  | checked {report report' : Report} (h : P report report') :
      Related P (.checked report) (.checked report')

/-- Related results agree on whether the field passes. -/
theorem FieldResult.Related.passes_eq {result result' : FieldResult}
    (h : result.Related P result') : result.passes = result'.passes := by
  cases h <;> rfl

/-- Results with equal reports are equal. -/
theorem FieldResult.Related.eq {result result' : FieldResult} (h : result.Related Eq result') :
    result = result' := by
  cases h with
  | valid => rfl
  | checked h => rw [h]

namespace Engine

variable {engine : Engine σ} {engine' : Engine σ'} {nested : NestedValidation σ}
  {nested' : NestedValidation σ'} {field : String} {rule rule' : Rule}

section Modules

variable {W : Option Value → Option Value → Prop}
  {C : Option Contribution → Option Contribution → Prop} {M : Contributions → Contributions → Prop}
  {form form' : CanonicalForm}

/-- Two modules run in related ways on their field if they do so in their scopes and what they write
keeps related records related. -/
theorem runModule_related {config config' : Configuration} {module : Module σ} {module' : Module σ'}
    (hnone : W none none)
    (hwrite : ∀ r r' w w', T r r' → W w w' → T (r.putIf field w) (r'.putIf field w'))
    (hmodule : ∀ r r', T r r' → Run.Related X W R C
      (module config ⟨field, form, engine.settings.strict, r, engine.announced nested⟩)
      (module' config' ⟨field, form', engine'.settings.strict, r', engine'.announced nested'⟩)) :
    Run.Related X T R C (engine.runModule nested field form config module)
      (engine'.runModule nested' field form' config' module') := by
  refine Run.related_target fun r r' hr => (hmodule r r' hr).focus (fun _ _ _ => hnone) ?_
  intro r r' w w' hr hw
  have hkept := hwrite r r' w w' hr hw
  cases w <;> cases w' <;> exact hkept

/-- The modules of a field run in related ways, one after the other, if each of them is unknown to
both engines or runs in related ways, and related contributions add up. -/
theorem runModules_related
    (hadd : ∀ results results' name output output', M results results' → C output output' →
      M (results.add name output) (results'.add name output'))
    {configs configs' : Fields Configuration}
    (hconfigs : Fields.Parallel (fun name config config' =>
      Option.Rel (fun module module' => Run.Related X T R C
        (engine.runModule nested field form config module)
        (engine'.runModule nested' field form' config' module'))
      (engine.modules.get? name) (engine'.modules.get? name)) configs configs')
    {results results' : Contributions} (hresults : M results results') :
    Run.Related X T R M (engine.runModules nested field form configs results)
      (engine'.runModules nested' field form' configs' results') := by
  induction hconfigs generalizing results results' with
  | nil => exact Run.related_pure hresults
  | @cons entry entry' rest rest' hfirst _ ih =>
    obtain ⟨name, config⟩ := entry
    obtain ⟨name', config'⟩ := entry'
    obtain ⟨rfl, hfirst⟩ := hfirst
    rw [runModules, runModules]
    generalize engine.modules.get? name = module, engine'.modules.get? name = module' at hfirst
    cases hfirst with
    | none => exact ih hresults
    | some hmodule =>
      exact hmodule.bind fun output output' houtput => ih (hadd _ _ name _ _ hresults houtput)

end Modules

/-- What the results of the modules of a field have to be like for the reports on it to be related,
when its validators come to the same verdicts. -/
def ReportsRelated (P : Report → Report → Prop) (engine : Engine σ) (rule : Rule)
    (results results' : Contributions) : Prop :=
  ∀ found verdicts, engine.findAll rule.canonical.validators = .ok found →
    Fields.keys verdicts = Fields.keys found →
      ((failures verdicts).merge results.errors).isEmpty =
          ((failures verdicts).merge results'.errors).isEmpty ∧
        P ⟨(failures verdicts).merge results.errors, results.aux⟩
          ⟨(failures verdicts).merge results'.errors, results'.aux⟩

/-- A field is judged in related ways if its validators do the same and its modules give what makes
related reports. -/
theorem judge_related (hstep : InStep R engine engine')
    {depends : String → Run Record σ Bool} {depends' : String → Run Record σ' Bool}
    (hfound : Run.Related X T R (fun found found' =>
        engine.findAll rule.canonical.validators = .ok found ∧ FoundRelated T G field found found')
      (Run.ofExcept (engine.findAll rule.canonical.validators))
      (Run.ofExcept (engine'.findAll rule'.canonical.validators)))
    (hmodules : Run.Related X T R (engine.ReportsRelated P rule)
      (engine.runModules nested field rule.canonical rule.canonical.modules .empty)
      (engine'.runModules nested' field rule'.canonical rule'.canonical.modules .empty))
    (hdepends : ∀ d ∈ rule.canonical.dependencies, DependencyRelated X T R G depends depends' d)
    (force : Bool) :
    Run.Related X T R (FieldResult.Related P) (engine.judge nested depends field rule force)
      (engine'.judge nested' depends' field rule' force) := by
  refine hfound.bind ?_
  rintro found found' ⟨hfind, hfound⟩
  refine hmodules.bind fun results results' hresults => ?_
  refine (checkAll_related hstep hfound fun entry hentry d hd =>
    hdepends d (mem_dependencies_of_findAll hfind hentry hd)).bind ?_
  rintro verdicts _ ⟨rfl, hkeys⟩
  obtain ⟨hempty, hreport⟩ := hresults found verdicts hfind hkeys
  dsimp only
  rw [hempty]
  split
  · exact Run.related_pure .valid
  · exact Run.related_pure (.checked hreport)

/-- A field is judged in related ways, whichever way its dependencies are settled, as long as these
are related. -/
def JudgeRelated (X : SetupError → Prop) (T : Record → Record → Prop) (R : σ → σ' → Prop)
    (G : Argument → Argument → Prop) (P : Report → Report → Prop) (engine : Engine σ)
    (engine' : Engine σ') (nested : NestedValidation σ) (nested' : NestedValidation σ')
    (field : String) (rule rule' : Rule) : Prop :=
  ∀ (depends : String → Run Record σ Bool) (depends' : String → Run Record σ' Bool) (force : Bool),
    (∀ d ∈ rule.canonical.dependencies, DependencyRelated X T R G depends depends' d) →
      Run.Related X T R (FieldResult.Related P) (engine.judge nested depends field rule force)
        (engine'.judge nested' depends' field rule' force)

/-- With arbitrary modules, a field is judged by two rules of one canonical form as by one rule, if
its dependencies are settled alike. -/
theorem judgeRelated_of_canonical (h : rule.canonical = rule'.canonical) :
    JudgeRelated X Eq (Eq : σ → σ → Prop) Eq Eq engine engine nested nested field rule rule' := by
  intro depends depends' force hdepends
  refine judge_related ⟨rfl, fun _ _ _ => congrArg _⟩ ?_ ?_ hdepends force
  · rw [← h]
    refine Run.related_ofExcept (SameErrorOr.refl fun _ _ => ?_).with_eq
    exact .refl fun entry _ => .refl field _
  · rw [← h]
    refine (Run.Related.refl _).imp ?_
    rintro results _ rfl found verdicts - -
    exact ⟨rfl, rfl⟩

/-- Two rule maps declare the same fields. Among some fields that depend on none but one another,
those that can come to be evaluated are judged in related ways, and what they hold makes related
arguments. -/
structure RulesRelated (X : SetupError → Prop) (T : Record → Record → Prop)
    (R : σ → σ' → Prop) (G : Argument → Argument → Prop) (P : Report → Report → Prop)
    (engine : Engine σ) (engine' : Engine σ') (nested : NestedValidation σ)
    (nested' : NestedValidation σ') (inside : String → Prop) (entered : List String)
    (rules rules' : Fields Rule) : Prop where
  step : InStep R engine engine'
  keys : rules.keys = rules'.keys
  read : ∀ d, inside d → ∀ r r', T r r' → G (.value (r.read d)) (.value (r'.read d))
  judge : ∀ d, inside d → d ∉ entered →
    Option.Rel (fun rule rule' => (∀ e ∈ rule.canonical.dependencies, inside e) ∧
      JudgeRelated X T R G P engine engine' nested nested' d rule rule')
      (rules.get? d) (rules'.get? d)

namespace RulesRelated

variable {inside : String → Prop} {entered inProgress : List String} {rules rules' : Fields Rule}
  (h : RulesRelated X T R G P engine engine' nested nested' inside entered rules rules')

include h

/-- Dependencies are settled in related ways. The induction is on the declared fields that are not
in progress. -/
theorem dependencyPasses (hentered : ∀ d ∈ entered, d ∈ inProgress) {d : String} (hd : inside d) :
    Run.Related X T R Eq (engine.dependencyPasses nested rules inProgress d)
      (engine'.dependencyPasses nested' rules' inProgress d) := by
  induction hidle : (idle rules inProgress).length using Nat.strong_induction_on
    generalizing inProgress d with
  | _ n ih =>
    subst hidle
    by_cases hnew : d ∈ inProgress
    · rw [dependencyPasses_of_mem hnew, dependencyPasses_of_mem hnew]
      exact Run.related_throw _
    · have hboth := h.judge d hd fun hmem => hnew (hentered d hmem)
      cases hget : rules.get? d with
      | none =>
        rw [hget] at hboth
        generalize hget' : rules'.get? d = other at hboth
        cases hboth
        rw [dependencyPasses_undeclared hnew hget, dependencyPasses_undeclared hnew hget', h.keys]
        exact related_during (Run.related_pure rfl) (h.step.observe _) (h.step.observe _)
      | some rule =>
        rw [hget] at hboth
        generalize hget' : rules'.get? d = other at hboth
        cases hboth with
        | some hrule =>
          obtain ⟨hinside, hjudge⟩ := hrule
          have hdeclared : d ∈ rules.keys := (Fields.get?_isSome_iff rules d).1 (by rw [hget]; rfl)
          have hdepends : ∀ e ∈ rule.canonical.dependencies, DependencyRelated X T R G
              (engine.dependencyPasses nested rules (inProgress ++ [d]))
              (engine'.dependencyPasses nested' rules' (inProgress ++ [d])) e := by
            intro e he
            refine ⟨ih _ (length_idle_lt hdeclared hnew) ?_ (hinside e he) rfl,
              h.read e (hinside e he)⟩
            exact fun d hd => List.mem_append_left _ (hentered d hd)
          rw [dependencyPasses_declared hnew hget, dependencyPasses_declared hnew hget', h.keys]
          refine related_during ?_ (h.step.observe _) (h.step.observe _)
          exact (hjudge _ _ false hdepends).bind fun _ _ hresult =>
            Run.related_pure hresult.passes_eq

/-- A field is evaluated in related ways, within whichever fields are in progress. -/
theorem judgeWithin (inProgress : List String)
    (hentered : ∀ d ∈ entered, d ∈ inProgress ++ [field])
    (hinside : ∀ e ∈ rule.canonical.dependencies, inside e)
    (hjudge : JudgeRelated X T R G P engine engine' nested nested' field rule rule')
    (force : Bool) :
    Run.Related X T R (FieldResult.Related P)
      (engine.judgeWithin nested rules inProgress field rule force)
      (engine'.judgeWithin nested' rules' inProgress field rule' force) := by
  unfold Engine.judgeWithin
  rw [h.keys]
  refine related_during (hjudge _ _ force fun e he => ?_) (h.step.observe _) (h.step.observe _)
  exact ⟨h.dependencyPasses hentered (hinside e he), h.read e (hinside e he)⟩

end RulesRelated

/-- Fields that are evaluated in one order are reported in related ways, each under its own name. -/
theorem judgeAll_related {rules rules' : Fields Rule}
    (h : RulesRelated X T R G P engine engine' nested nested' (fun _ => True) [] rules rules')
    (force : Bool) {turns turns' : Fields Rule}
    (hturns : Fields.Parallel (JudgeRelated X T R G P engine engine' nested nested') turns turns') :
    Run.Related X T R
      (fun reports reports' => Fields.Parallel (fun _ => P) reports reports' ∧
        reports.keys.Sublist turns.keys)
      (engine.judgeAll nested rules force turns)
      (engine'.judgeAll nested' rules' force turns') := by
  induction hturns with
  | nil => exact Run.related_pure ⟨.nil, List.nil_sublist _⟩
  | @cons entry entry' rest rest' hfirst _ ih =>
    obtain ⟨field, rule⟩ := entry
    obtain ⟨field', rule'⟩ := entry'
    obtain ⟨rfl, hjudge⟩ := hfirst
    have hown := h.judgeWithin [] nofun (fun _ _ => trivial) hjudge force
    refine hown.bind fun result result' hresult => ih.bind fun others others' hothers => ?_
    obtain ⟨hparallel, hkeys⟩ := hothers
    cases hresult with
    | valid => exact Run.related_pure ⟨hparallel, hkeys.cons _⟩
    | checked hreport => exact Run.related_pure ⟨.cons ⟨rfl, hreport⟩ hparallel, hkeys.cons_cons _⟩

/-- Rule maps whose fields are all judged in related ways are related without any restriction. -/
theorem rulesRelated_of_parallel {rules rules' : Fields Rule} (hstep : InStep R engine engine')
    (hrules : Fields.Parallel (JudgeRelated X T R G P engine engine' nested nested') rules rules')
    (hread : ∀ d r r', T r r' → G (.value (r.read d)) (.value (r'.read d))) :
    RulesRelated X T R G P engine engine' nested nested' (fun _ => True) [] rules rules' where
  step := hstep
  keys := hrules.keys_eq
  read d _ := hread d
  judge d _ _ := by
    have hboth := hrules.get? d
    generalize rules.get? d = rule, rules'.get? d = rule' at hboth
    cases hboth with
    | none => exact .none
    | some hjudge => exact .some ⟨fun _ _ => trivial, hjudge⟩

/-! ## Whole values -/

/-- Values are related in keeping with records: related values have related records, and are put
together from related values and related records. -/
structure ValuesRelated (V : Value → Value → Prop) (T : Record → Record → Prop) : Prop where
  isTruthy : ∀ v v', V v v' → v.isTruthy = v'.isTruthy
  kind : ∀ v v', V v v' → v.kind = v'.kind
  record : ∀ v v', V v v' → T (recordOf v) (recordOf v')
  withRecord : ∀ v v' r r', V v v' → T r r' → V (withRecord v r) (withRecord v' r')
  single : ∀ v v', V v v' → T [(wholeField, v)] [(wholeField, v')]
  read : ∀ r r', T r r' → V (r.read wholeField) (r'.read wholeField)

/-- Outcomes are related in keeping with reports on fields that have some names. -/
structure OutcomesRelated (O : Outcome → Outcome → Prop) (P : Report → Report → Prop)
    (names : List String) : Prop where
  valid : O .valid .valid
  fields : ∀ reports reports', Fields.Parallel (fun _ => P) reports reports' →
    reports.keys.Sublist names → O (.fields reports) (.fields reports')
  errors : ∀ report report', P report report' → O (.errors report.errors) (.errors report'.errors)

/-- Equal values have equal records. -/
theorem ValuesRelated.eq : ValuesRelated Eq Eq where
  isTruthy _ _ h := h ▸ rfl
  kind _ _ h := h ▸ rfl
  record _ _ h := h ▸ rfl
  withRecord _ _ _ _ h hr := h ▸ hr ▸ rfl
  single _ _ h := h ▸ rfl
  read _ _ h := h ▸ rfl

/-- Equal reports make equal outcomes. -/
theorem OutcomesRelated.eq (names : List String) : OutcomesRelated Eq Eq names where
  valid := rfl
  fields _ _ h _ := congrArg _ h.eq
  errors _ _ h := h ▸ rfl

section Values

variable {V : Value → Value → Prop} {O : Outcome → Outcome → Prop}
  (hstep : InStep R engine engine')
  (hread : ∀ d r r', T r r' → G (.value (r.read d)) (.value (r'.read d)))
  (hvalues : ValuesRelated V T)

include hstep hread hvalues

/-- Validation by field rules is related if all fields are judged in related ways. -/
theorem validateFields_related {rules rules' : Fields Rule}
    (hrules : Fields.Parallel (JudgeRelated X T R G P engine engine' nested nested') rules rules')
    (houtcomes : OutcomesRelated O P rules.keys) (force : Bool) :
    Run.Related X V R O (engine.validateFields nested rules force)
      (engine'.validateFields nested' rules' force) := by
  have hall := judgeAll_related (rulesRelated_of_parallel hstep hrules hread) force hrules
  have hfocus : Run.Related X V R _
      (Run.focus recordOf Engine.withRecord (engine.judgeAll nested rules force rules))
      (Run.focus recordOf Engine.withRecord (engine'.judgeAll nested' rules' force rules')) :=
    hall.focus hvalues.record fun v v' r r' => hvalues.withRecord v v' r r'
  refine Run.related_target fun v v' hv => ?_
  rw [hvalues.isTruthy v v' hv, hvalues.kind v v' hv]
  split
  · exact fun _ _ hstores => .error _ hstores
  · refine hfocus.bind fun reports reports' hreports => ?_
    obtain ⟨hparallel, hkeys⟩ := hreports
    have hempty : reports.isEmpty = reports'.isEmpty := by
      cases hparallel <;> rfl
    rw [hempty]
    split
    · exact Run.related_pure houtcomes.valid
    · exact Run.related_pure (houtcomes.fields _ _ hparallel hkeys)

/-- Validation by a descriptor for the value as a whole is related if the field that holds the value
is judged in related ways. -/
theorem validateWhole_related {descriptor descriptor' : Descriptor}
    (hrule : JudgeRelated X T R G P engine engine' nested nested' wholeField
      (.descriptor descriptor) (.descriptor descriptor'))
    (houtcomes : OutcomesRelated O P [wholeField]) (force : Bool) :
    Run.Related X V R O (engine.validateWhole nested descriptor force)
      (engine'.validateWhole nested' descriptor' force) := by
  have hrules := rulesRelated_of_parallel hstep
    (.cons ⟨rfl, hrule⟩ .nil : Fields.Parallel _ [(wholeField, Rule.descriptor descriptor)]
      [(wholeField, Rule.descriptor descriptor')]) hread
  have hjudge := hrules.judgeWithin [] nofun (fun _ _ => trivial) hrule force
  refine (hjudge.focus hvalues.single fun _ _ r r' _ hr => hvalues.read r r' hr).bind ?_
  intro result result' hresult
  cases hresult with
  | valid => exact Run.related_pure houtcomes.valid
  | checked hreport => exact Run.related_pure (houtcomes.errors _ _ hreport)

end Values

end Engine

end Vetting
