import Vetting.Proofs.RecordFindings

/-!
# How the report of a field is put together

The modules of a field run one after the other, and each hands back errors, data or nothing
(`RunThrough`). Then its validators conclude one after the other, each in one of four ways
(`Concludes`, `ConcludeThrough`). The report lists the validators that failed, in order of
declaration, and behind them the errors of modules that stand under other names; under a name that
both have stands the error of the module (`judgeWithin_report`). Both orders and the overriding are
facts about merging maps (`Fields.keys_merge`, `Fields.get?_merge`).
-/

set_option autoImplicit false

namespace Vetting

/-! ## Merging maps -/

namespace Fields

variable {α : Type}

/-- Merging two lists of news is merging one after the other. -/
theorem merge_append (fields first second : Fields α) :
    fields.merge (first ++ second) = (fields.merge first).merge second :=
  List.foldl_append

/-- Names are distinct if the first is not among the others and these are. -/
theorem distinct_cons {name : String} {value : α} {rest : Fields α} :
    Distinct ((name, value) :: rest) ↔ name ∉ rest.keys ∧ rest.Distinct :=
  List.nodup_cons

/-- A new name is put last. -/
theorem put_of_not_mem {fields : Fields α} {name : String} (h : name ∉ fields.keys) (value : α) :
    fields.put name value = fields ++ [(name, value)] := by
  induction fields with
  | nil => rfl
  | cons entry rest ih =>
    obtain ⟨key, old⟩ := entry
    obtain ⟨hkey, hrest⟩ := not_or.1 (mt List.mem_cons.2 h)
    rw [put, if_neg (Ne.symm hkey), ih hrest, List.cons_append]

/-- Merging keeps the names of the first map where they are, and puts those that it does not have
behind them in the order of the second map. -/
theorem keys_merge {fields news : Fields α} (hnews : news.Distinct) :
    (fields.merge news).keys =
      fields.keys ++ news.keys.filter fun name => decide (name ∉ fields.keys) := by
  induction news generalizing fields with
  | nil => exact (List.append_nil _).symm
  | cons entry rest ih =>
    obtain ⟨name, value⟩ := entry
    obtain ⟨hfresh, hrest⟩ := distinct_cons.1 hnews
    have hstep : (fields.merge ((name, value) :: rest)).keys =
        (fields.put name value).keys ++
          (keys rest).filter fun other => decide (other ∉ (fields.put name value).keys) := ih hrest
    have hcons : keys ((name, value) :: rest) = name :: keys rest := rfl
    rw [hstep, keys_put, hcons]
    by_cases hold : name ∈ fields.keys
    · rw [if_pos hold, List.filter_cons_of_neg (by simpa using hold)]
    · -- The name is new, and no later one is the same.
      have hothers : ((keys rest).filter fun other => decide (other ∉ fields.keys ++ [name])) =
          (keys rest).filter fun other => decide (other ∉ fields.keys) := by
        refine List.filter_congr fun other hother => ?_
        have hne : other ≠ name := by
          rintro rfl
          exact hfresh hother
        simp [hne]
      rw [if_neg hold, hothers, List.filter_cons_of_pos (by simpa using hold), List.append_assoc]
      rfl

/-- Under a name that both maps have stands the value of the second one. -/
theorem get?_merge {fields news : Fields α} (hnews : news.Distinct) (name : String) :
    (fields.merge news).get? name = (news.get? name).or (fields.get? name) := by
  induction news generalizing fields with
  | nil => rfl
  | cons entry rest ih =>
    obtain ⟨key, value⟩ := entry
    obtain ⟨hfresh, hrest⟩ := distinct_cons.1 hnews
    have hstep : (fields.merge ((key, value) :: rest)).get? name =
        (get? rest name).or ((fields.put key value).get? name) := ih hrest
    rw [hstep, get?_cons]
    by_cases hname : name = key
    · rw [hname, get?_eq_none hfresh, get?_put_self, if_pos rfl]
      rfl
    · rw [get?_put_of_ne fields value hname, if_neg hname]

/-- A map is made of its own entries. -/
theorem ofPairs_eq_self {fields : Fields α} (h : fields.Distinct) : ofPairs fields = fields := by
  suffices hbehind : ∀ front : Fields α, Distinct (front ++ fields) →
      front.merge fields = front ++ fields from hbehind [] h
  clear h
  induction fields with
  | nil => exact fun front _ => (List.append_nil front).symm
  | cons entry rest ih =>
    intro front hdistinct
    obtain ⟨name, value⟩ := entry
    have hassoc : front ++ (name, value) :: rest = front ++ [(name, value)] ++ rest := by
      rw [List.append_assoc]
      rfl
    have hnew : name ∉ front.keys := by
      intro hmem
      rw [Distinct, keys, List.map_append, List.nodup_append] at hdistinct
      exact hdistinct.2.2 name hmem name List.mem_cons_self rfl
    have hput := put_of_not_mem hnew value
    rw [hassoc] at hdistinct ⊢
    rw [← ih _ hdistinct, ← hput]
    rfl

end Fields

/-! ## What the modules hand back -/

namespace Contribution

/-- The errors that a module hands back. -/
def errorsOf : Option Contribution → Findings
  | some (.errors found) => found
  | _ => []

/-- The data that a module hands back. -/
def dataOf? : Option Contribution → Option Value
  | some (.aux v) => some v
  | _ => none

end Contribution

/-- The errors that modules hand back, merged in the order of their runs. -/
def handedErrors (outputs : Fields (Option Contribution)) : Findings :=
  Fields.ofPairs (outputs.values.flatMap Contribution.errorsOf)

/-- The data that modules hand back, under their names and in the order of their runs. -/
def handedData (outputs : Fields (Option Contribution)) : Fields Value :=
  outputs.filterMap fun entry => (Contribution.dataOf? entry.2).map (Prod.mk entry.1)

/-- The names of the validators that failed, in order. -/
def failedNames (verdicts : List (String × Verdict)) : List String :=
  (verdicts.filter fun entry => entry.2.message?.isSome).map Prod.fst

/-- A report is put together from the verdicts of the validators of a field and the outputs of its
modules: the failed validators come first and then the errors of modules under other names, where
both have a name the module's error stands under it, any other name has the message of its
validator, and the data of the modules is passed on. -/
structure Report.AssembledFrom (report : Report) (verdicts : List (String × Verdict))
    (outputs : Fields (Option Contribution)) : Prop where
  keys : Fields.keys report.errors = failedNames verdicts ++
    (handedErrors outputs).keys.filter fun name => decide (name ∉ failedNames verdicts)
  ofModule : ∀ name ∈ (handedErrors outputs).keys,
    Fields.get? report.errors name = (handedErrors outputs).get? name
  ofValidator : ∀ name message, (name, .failed message) ∈ verdicts →
    name ∉ (handedErrors outputs).keys →
      Fields.get? report.errors name = some (.message message)
  aux : report.aux = handedData outputs

/-- Adding outputs one after the other merges their errors and their data. -/
theorem Contributions.foldl_add (results : Contributions)
    (outputs : Fields (Option Contribution)) :
    outputs.foldl (fun results entry => results.add entry.1 entry.2) results =
      ⟨results.aux.merge (handedData outputs),
        results.errors.merge (outputs.values.flatMap Contribution.errorsOf)⟩ := by
  induction outputs generalizing results with
  | nil => rfl
  | cons entry rest ih =>
    obtain ⟨name, output⟩ := entry
    have hvalues : Fields.values ((name, output) :: rest) = output :: Fields.values rest := rfl
    rw [List.foldl_cons, ih, hvalues, List.flatMap_cons, Fields.merge_append]
    match output with
    | none => rfl
    | some (.aux v) => rfl
    | some (.errors errors) => rfl

/-! ## How the validators conclude -/

/-- A call to which an argument is added is assembled exactly when the rest is. -/
theorem assembleCall_map_ok {σ : Type} {run : Run Record σ (Except String Call)} {f : Call → Call}
    {s t : Store Record σ} {call : Call}
    (h : (do let call ← run; return call.map f : Run Record σ (Except String Call)) s =
      .ok (.ok call) t) : ∃ inner, run s = .ok (.ok inner) t ∧ call = f inner := by
  obtain ⟨inner, u, hinner, hmap⟩ := Run.bind_eq_ok.1 h
  cases inner with
  | ok inner =>
    simp only [Except.map, Run.pure_eq_ok, Except.ok.injEq] at hmap
    obtain ⟨rfl, rfl⟩ := hmap
    exact ⟨inner, hinner, rfl⟩
  | error d => simp [Except.map] at hmap

/-- The texts for the message of a validator are those of its parameters, one for each. -/
theorem displays_assembleCall {σ : Type} {depends : String → Run Record σ Bool}
    {params : List BoundParam} {s t : Store Record σ} {call : Call}
    (h : assembleCall depends params s = .ok (.ok call) t) :
    call.displays = params.map BoundParam.display := by
  induction params generalizing s call with
  | nil =>
    obtain ⟨hcall, -⟩ := Run.pure_eq_ok.1 h
    cases hcall
    rfl
  | cons param rest ih =>
    cases param with
    | literal v =>
      obtain ⟨inner, hinner, rfl⟩ := assembleCall_map_ok h
      exact congrArg (v.display :: ·) (ih hinner)
    | predicate hook =>
      obtain ⟨inner, hinner, rfl⟩ := assembleCall_map_ok h
      exact congrArg ("[function]" :: ·) (ih hinner)
    | dependsOn field =>
      obtain ⟨passed, u, -, hgo⟩ := Run.bind_eq_ok.1 h
      cases passed with
      | false =>
        obtain ⟨hcall, -⟩ := Run.pure_eq_ok.1 hgo
        cases hcall
      | true =>
        simp only [if_true, Run.target_bind] at hgo
        obtain ⟨inner, hinner, rfl⟩ := assembleCall_map_ok hgo
        exact congrArg (field :: ·) (ih hinner)

/-- A call that is not assembled ends where one of its dependencies does not pass. -/
theorem exists_failing_of_assembleCall {σ : Type} {depends : String → Run Record σ Bool}
    {params : List BoundParam} {s t : Store Record σ} {d : String}
    (h : assembleCall depends params s = .ok (.error d) t) :
    d ∈ params.filterMap BoundParam.dependency? ∧ ∃ u, depends d u = .ok false t := by
  let anything : Conduct Record σ :=
    .changing (fun _ _ => True) (fun _ => trivial) fun _ _ _ _ _ => trivial
  have hdepends : ∀ d ∈ params.filterMap BoundParam.dependency?, (depends d).Obeys anything := by
    intro d _ u
    unfold Run.ObeysAt
    cases depends d u <;> exact trivial
  obtain ⟨hmem, u, -, hfails⟩ := assembleCall_error hdepends h
  exact ⟨hmem, u, hfails⟩

namespace Engine

variable {σ : Type}

/-- How a validator of a field concludes, on the store that its turn begins with: it is passed over
for a blank value, it is abandoned because one of its dependencies does not pass, or it is called,
and passes when its result is the expected one. The message of a failure is the one that the spec or
else the validator gives, filled with the texts of the parameters. -/
inductive Concludes (engine : Engine σ) (depends : String → Run Record σ Bool) (field name : String)
    (validator : Validator) (spec : Spec) (s : Store Record σ) : Verdict → Store Record σ → Prop
  | skipped : engine.passesOver validator (s.target.read field) = true →
      engine.Concludes depends field name validator spec s .skipped s
  | abandoned {d : String} {u t : Store Record σ} :
      engine.passesOver validator (s.target.read field) = false →
      d ∈ spec.values.filterMap Param.dependency? →
      depends d u = .ok false t →
      assembleCall depends (spec.bind s.target) s = .ok (.error d) t →
      engine.Concludes depends field name validator spec s (.abandoned d)
        ⟨t.target, engine.observe (.abandoned field name d) t.caller⟩
  | passed {call : Call} {t : Store Record σ} :
      engine.passesOver validator (s.target.read field) = false →
      assembleCall depends (spec.bind s.target) s = .ok (.ok call) t →
      validator.check (t.target.read field) call.arguments =
        spec.expectedResult t.target call.arguments →
      engine.Concludes depends field name validator spec s .passed t
  | failed {call : Call} {t : Store Record σ} :
      engine.passesOver validator (s.target.read field) = false →
      assembleCall depends (spec.bind s.target) s = .ok (.ok call) t →
      validator.check (t.target.read field) call.arguments ≠
        spec.expectedResult t.target call.arguments →
      engine.Concludes depends field name validator spec s
        (.failed (Template.fill
          ((spec.message.getD validator.message).template t.target call.arguments)
          ((spec.bind s.target).map BoundParam.display))) t

/-- The validators of a field, all of them registered, conclude in order of declaration. -/
inductive ConcludeThrough (engine : Engine σ) (depends : String → Run Record σ Bool)
    (field : String) :
    Fields Spec → Store Record σ → List (String × Verdict) → Store Record σ → Prop
  | nil {s : Store Record σ} : engine.ConcludeThrough depends field [] s [] s
  | cons {name : String} {spec : Spec} {rest : Fields Spec} {validator : Validator}
      {verdict : Verdict} {verdicts : List (String × Verdict)} {s t u : Store Record σ} :
      engine.validators.get? name = some validator →
      engine.Concludes depends field name validator spec s verdict t →
      engine.ConcludeThrough depends field rest t verdicts u →
      engine.ConcludeThrough depends field ((name, spec) :: rest) s ((name, verdict) :: verdicts) u

/-- The configured modules of a field that are registered run in order of configuration. -/
inductive RunThrough (engine : Engine σ) (nested : NestedValidation σ) (field : String)
    (form : CanonicalForm) :
    Fields Configuration → Store Record σ → Fields (Option Contribution) → Store Record σ → Prop
  | nil {s : Store Record σ} : engine.RunThrough nested field form [] s [] s
  | unregistered {name : String} {config : Configuration} {rest : Fields Configuration}
      {outputs : Fields (Option Contribution)} {s t : Store Record σ} :
      engine.modules.get? name = none →
      engine.RunThrough nested field form rest s outputs t →
      engine.RunThrough nested field form ((name, config) :: rest) s outputs t
  | registered {name : String} {config : Configuration} {rest : Fields Configuration}
      {module : Module σ} {output : Option Contribution} {outputs : Fields (Option Contribution)}
      {s t u : Store Record σ} :
      engine.modules.get? name = some module →
      engine.runModule nested field form config module s = .ok output t →
      engine.RunThrough nested field form rest t outputs u →
      engine.RunThrough nested field form ((name, config) :: rest) s ((name, output) :: outputs) u

section Steps

variable {engine : Engine σ} {nested : NestedValidation σ} {depends : String → Run Record σ Bool}
  {field name : String} {form : CanonicalForm} {validator : Validator} {spec : Spec}
  {s t : Store Record σ}

/-- Running a validator ends in a conclusion. -/
theorem concludes_of_check {verdict : Verdict}
    (h : engine.check depends field name validator spec s = .ok verdict t) :
    engine.Concludes depends field name validator spec s verdict t := by
  unfold check at h
  rw [Run.target_bind] at h
  split at h
  · next hover =>
    obtain ⟨rfl, rfl⟩ := Run.pure_eq_ok.1 h
    exact .skipped hover
  · next hover =>
    have hmade := Bool.eq_false_iff.2 hover
    obtain ⟨call, u, hcall, h⟩ := Run.bind_eq_ok.1 h
    cases call with
    | error d =>
      obtain ⟨_, w, hnotify, h⟩ := Run.bind_eq_ok.1 h
      obtain ⟨rfl, rfl⟩ := Run.pure_eq_ok.1 h
      cases hnotify
      obtain ⟨hmem, v, hfails⟩ := exists_failing_of_assembleCall hcall
      rw [Spec.dependencies_bind] at hmem
      exact .abandoned hmade hmem hfails hcall
    | ok call =>
      simp only [Run.target_bind] at h
      split at h
      · next hpassed =>
        obtain ⟨rfl, rfl⟩ := Run.pure_eq_ok.1 h
        exact .passed hmade hcall (eq_of_beq hpassed)
      · next hfailed =>
        obtain ⟨rfl, rfl⟩ := Run.pure_eq_ok.1 h
        rw [displays_assembleCall hcall]
        exact .failed hmade hcall fun heq => hfailed (beq_iff_eq.2 heq)

/-- Running the validators of a field in order ends in their conclusions. -/
theorem concludeThrough_of_checkAll {specs : Fields Spec}
    {found : List (String × Validator × Spec)} (hfound : engine.findAll specs = .ok found)
    {verdicts : List (String × Verdict)}
    (h : engine.checkAll depends field found s = .ok verdicts t) :
    engine.ConcludeThrough depends field specs s verdicts t := by
  induction specs generalizing found s verdicts with
  | nil =>
    cases hfound
    obtain ⟨rfl, rfl⟩ := Run.pure_eq_ok.1 h
    exact .nil
  | cons entry rest ih =>
    obtain ⟨name, spec⟩ := entry
    obtain ⟨validator, hfind, hfound⟩ := except_bind_eq_ok.1 hfound
    obtain ⟨others, hothers, hfound⟩ := except_bind_eq_ok.1 hfound
    cases hfound
    obtain ⟨verdict, u, hcheck, h⟩ := Run.bind_eq_ok.1 h
    obtain ⟨later, w, hlater, h⟩ := Run.bind_eq_ok.1 h
    obtain ⟨rfl, rfl⟩ := Run.pure_eq_ok.1 h
    exact .cons (find_eq_ok.1 hfind) (concludes_of_check hcheck) (ih hothers hlater)

/-- Running the modules of a field in order hands back their outputs, added one after the other. -/
theorem runThrough_of_runModules {configs : Fields Configuration} {results after : Contributions}
    (h : engine.runModules nested field form configs results s = .ok after t) :
    ∃ outputs, engine.RunThrough nested field form configs s outputs t ∧
      after = outputs.foldl (fun results entry => results.add entry.1 entry.2) results := by
  induction configs generalizing results s with
  | nil =>
    obtain ⟨rfl, rfl⟩ := Run.pure_eq_ok.1 h
    exact ⟨[], .nil, rfl⟩
  | cons entry rest ih =>
    obtain ⟨name, config⟩ := entry
    rw [runModules] at h
    cases hget : engine.modules.get? name with
    | none =>
      rw [hget] at h
      obtain ⟨outputs, hrest, hafter⟩ := ih h
      exact ⟨outputs, .unregistered hget hrest, hafter⟩
    | some module =>
      rw [hget] at h
      obtain ⟨output, u, hmodule, h⟩ := Run.bind_eq_ok.1 h
      obtain ⟨outputs, hrest, hafter⟩ := ih h
      exact ⟨(name, output) :: outputs, .registered hget hmodule hrest, hafter⟩

/-- The verdicts of validators stand under their names, in order of declaration. -/
theorem ConcludeThrough.names {specs : Fields Spec} {verdicts : List (String × Verdict)}
    (h : engine.ConcludeThrough depends field specs s verdicts t) :
    Fields.keys verdicts = specs.keys := by
  induction h with
  | nil => rfl
  | cons _ _ _ ih => exact congrArg (_ :: ·) ih

/-- The outputs of modules stand under names of their configurations, in the same order. -/
theorem RunThrough.names {configs : Fields Configuration}
    {outputs : Fields (Option Contribution)}
    (h : engine.RunThrough nested field form configs s outputs t) :
    outputs.keys.Sublist configs.keys := by
  induction h with
  | nil => exact .slnil
  | unregistered _ _ ih => exact ih.cons _
  | registered _ _ _ ih => exact ih.cons_cons _

end Steps

section Report

variable {verdicts : List (String × Verdict)} {outputs : Fields (Option Contribution)}

/-- Failures are recorded under the names of the validators that failed. -/
theorem keys_failures (verdicts : List (String × Verdict)) :
    (failures verdicts).keys = failedNames verdicts := by
  induction verdicts with
  | nil => rfl
  | cons entry rest ih =>
    obtain ⟨name, verdict⟩ := entry
    cases verdict with
    | failed message => exact congrArg (name :: ·) ih
    | skipped | abandoned | passed => exact ih

/-- The failures of validators are found under their names. -/
theorem get?_failures (hdistinct : (Fields.keys verdicts).Nodup) {name message : String}
    (h : (name, .failed message) ∈ verdicts) :
    (failures verdicts).get? name = some (.message message) := by
  have hsub : (failures verdicts).keys.Sublist (Fields.keys verdicts) := by
    rw [keys_failures]
    exact List.filter_sublist.map Prod.fst
  exact Fields.get?_of_mem (hdistinct.sublist hsub)
    (List.mem_filterMap.2 ⟨(name, .failed message), h, rfl⟩)

/-- The data of modules that run under distinct names stands under distinct names. -/
theorem distinct_handedData (hdistinct : outputs.Distinct) : (handedData outputs).Distinct := by
  have hsub : (handedData outputs).keys.Sublist outputs.keys := by
    clear hdistinct
    induction outputs with
    | nil => exact .slnil
    | cons entry rest ih =>
      obtain ⟨name, output⟩ := entry
      match output with
      | none => exact ih.cons name
      | some (.aux v) => exact ih.cons_cons name
      | some (.errors found) => exact ih.cons name
  exact hdistinct.sublist hsub

/-- Merging the errors of modules into the failures of validators puts a report together. -/
theorem assembledFrom_merge (outputs : Fields (Option Contribution))
    (hverdicts : (Fields.keys verdicts).Nodup) :
    Report.AssembledFrom ⟨(failures verdicts).merge (handedErrors outputs), handedData outputs⟩
      verdicts outputs := by
  have herrors : (handedErrors outputs).Distinct := Fields.distinct_ofPairs _
  have hget := @Fields.get?_merge _ (failures verdicts) _ herrors
  refine ⟨?_, fun name hname => ?_, fun name message hmem hname => ?_, rfl⟩
  · rw [Fields.keys_merge herrors, keys_failures]
  · obtain ⟨found, hfound⟩ :=
      Option.isSome_iff_exists.1 ((Fields.get?_isSome_iff _ _).2 hname)
    rw [hget, hfound]
    rfl
  · rw [hget, Fields.get?_eq_none hname, get?_failures hverdicts hmem]
    rfl

end Report

/-- Whenever a field is evaluated and reported, be it on its own or at its turn in a run, its
configured modules have run through, then its declared validators have concluded, and the report is
put together from their verdicts and the outputs of the modules. The names of validators and of
modules are distinct in a rule. -/
theorem judgeWithin_report (engine : Engine σ) (nested : NestedValidation σ) (rules : Fields Rule)
    (inProgress : List String) (field : String) {rule : Rule}
    (hvalidators : rule.canonical.validators.Distinct)
    (hmodules : rule.canonical.modules.Distinct) {force : Bool} {s t : Store Record σ}
    {report : Report}
    (hrun : engine.judgeWithin nested rules inProgress field rule force s =
      .ok (.checked report) t) :
    ∃ outputs u verdicts w,
      engine.RunThrough nested field rule.canonical rule.canonical.modules
        ⟨s.target, engine.observe (.entered rules.keys (inProgress ++ [field])) s.caller⟩
        outputs u ∧
      engine.ConcludeThrough (engine.dependencyPasses nested rules (inProgress ++ [field])) field
        rule.canonical.validators u verdicts w ∧
      t.target = w.target ∧ report.AssembledFrom verdicts outputs := by
  obtain ⟨w, hjudge, rfl⟩ := during_eq_ok.1 hrun
  obtain ⟨found, results, u, verdicts, hfound, hpass, hchecks, hresult⟩ := judge_eq_ok.1 hjudge
  obtain ⟨outputs, houtputs, hresults⟩ := runThrough_of_runModules hpass
  have hconcluded := concludeThrough_of_checkAll hfound hchecks
  refine ⟨outputs, u, verdicts, w, houtputs, hconcluded, rfl, ?_⟩
  have hreport : report = ⟨(failures verdicts).merge results.errors, results.aux⟩ := by
    split at hresult
    · cases hresult
    · exact FieldResult.checked.inj hresult
  have hverdicts : (Fields.keys verdicts).Nodup := by
    rw [hconcluded.names]
    exact hvalidators
  have hdata : Fields.ofPairs (handedData outputs) = handedData outputs :=
    Fields.ofPairs_eq_self (distinct_handedData (hmodules.sublist houtputs.names))
  have hresults : results = ⟨handedData outputs, handedErrors outputs⟩ := by
    rw [hresults, Contributions.foldl_add]
    exact congrArg (fun aux => Contributions.mk aux (handedErrors outputs)) hdata
  rw [hreport, hresults]
  exact assembledFrom_merge outputs hverdicts

/-- A module that objects to every value, with the same errors. -/
def objecting (errors : Findings) : Module σ := fun _ _ => return some (.errors errors)

/-- An engine with the built-in validators, and with a module that objects under the name of one of
them and under its own. -/
def censoringEngine : Engine Unit :=
  ofParts .standard .builtin (.ofPairs [("title", Module.title),
    ("censor", objecting [("digits", .message "Taken."), ("censor", .message "Rude.")])])

/-- The rule of a code, which has to be there and to be a number. -/
def codeRule : Rule :=
  .descriptor ⟨.list ["required", "digits", "int"],
    [("censor", .value (.bool true)), ("title", .value (.string "Code")),
      ("target", .value (.bool true))]⟩

/-- The module's error stands where its validator failed, the next failed validator follows, and the
other error of the module comes last. -/
theorem judgeWithin_report_censored :
    codeRule.canonical.validators.Distinct ∧ codeRule.canonical.modules.Distinct ∧
    ∃ report t outputs verdicts,
      censoringEngine.judgeField [] "code" codeRule false ⟨[("code", .string "x1")], ()⟩ =
        .ok (.checked report) t ∧
      report.errors = [("digits", .message "Taken."),
        ("int", .message "Please enter a valid integer number."), ("censor", .message "Rude.")] ∧
      report.AssembledFrom verdicts outputs ∧ handedData outputs = [("title", .string "Code")] := by
  have hvalidators : codeRule.canonical.validators.Distinct := by decide
  have hmodules : codeRule.canonical.modules.Distinct := by decide
  have hrun : censoringEngine.judgeField [] "code" codeRule false
      ⟨[("code", .string "x1")], ()⟩ =
        .ok (.checked ⟨[("digits", .message "Taken."),
          ("int", .message "Please enter a valid integer number."), ("censor", .message "Rude.")],
          [("title", .string "Code")]⟩) ⟨[("code", .string "x1")], ()⟩ := by
    with_unfolding_all rfl
  obtain ⟨outputs, u, verdicts, w, -, -, -, hreport⟩ :=
    judgeWithin_report censoringEngine _ [] [] "code" hvalidators hmodules hrun
  exact ⟨hvalidators, hmodules, _, _, outputs, verdicts, hrun, rfl, hreport, hreport.aux.symm⟩

end Engine

end Vetting
