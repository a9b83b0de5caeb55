import Vetting.Proofs.ForcedReports
import Vetting.Proofs.RecordFindings

/-!
# Runs to a known record

Where the modules bring every field to a value that is known beforehand (`Course`), it does not show
in the findings how often a field is evaluated, and which fields are in progress then. The
evaluation of a field comes to what is read off the final record, and to an error where the reading
comes to nothing (`Course.judgeWithin_answers`), and so do all fields of a record one after the
other (`Course.judgeAll_answers`) and the run as a whole (`Course.validate_answers`).

Until a run is over, the record is only on its way to the final one. A validator of a field is not
heard before the field has its final value, nor does it fail before those that it depends on have
theirs (`assembleCall_answers`), so that is as much as its message may look at (`SaysFinally`).

The point that needs an argument is a cycle: the evaluation ends in an error when it comes back to a
field in progress, while the reading goes deeper there. That it comes to nothing is shown of the
fields above (`Above`).
-/

set_option autoImplicit false

namespace Vetting

namespace Run

variable {τ σ α β : Type} {s : Store τ σ}

/-- A run comes to an answer, and to a target with some property; if there is no answer, it ends in
an error. -/
def Answers (run : Run τ σ α) (s : Store τ σ) (answer : Option α) (after : τ → Prop) : Prop :=
  match answer with
  | some a => ∃ t, run s = .ok a t ∧ after t.target
  | none => ∃ e t, run s = .error e t

/-- Doing nothing answers with its result. -/
theorem answers_pure (a : α) {after : τ → Prop} (h : after s.target) :
    (pure a : Run τ σ α).Answers s (some a) after := ⟨s, rfl, h⟩

/-- What is known of the target after an answer may be weakened. -/
theorem Answers.imp {run : Run τ σ α} {answer : Option α} {after after' : τ → Prop}
    (h : run.Answers s answer after) (himp : ∀ t, after t → after' t) :
    run.Answers s answer after' := by
  cases answer with
  | none => exact h
  | some a =>
    obtain ⟨t, hrun, ht⟩ := h
    exact ⟨t, hrun, himp t.target ht⟩

/-- A run whose first part ends in a result comes to what the rest comes to. -/
theorem answers_of_ok {x : Run τ σ α} {f : α → Run τ σ β} {answer : Option β} {after : τ → Prop}
    {a : α} {t : Store τ σ} (hx : x s = .ok a t) (hf : (f a).Answers t answer after) :
    (x >>= f).Answers s answer after := by
  unfold Answers at hf ⊢
  rw [bind_of_ok hx]
  exact hf

/-- One run after another answers if the first answers and the second does on all that it may leave.
-/
theorem Answers.bind {x : Run τ σ α} {f : α → Run τ σ β} {answer : Option α}
    {next : α → Option β} {between after : τ → Prop} (hx : x.Answers s answer between)
    (hf : ∀ a t, answer = some a → between t.target → (f a).Answers t (next a) after) :
    (x >>= f).Answers s (answer.bind next) after := by
  cases answer with
  | none =>
    obtain ⟨e, t, hrun⟩ := hx
    exact ⟨e, t, bind_of_error hrun⟩
  | some a =>
    obtain ⟨t, hrun, ht⟩ := hx
    exact answers_of_ok hrun (hf a t rfl ht)

/-- Looking at the target answers if what follows does. -/
theorem answers_target {f : τ → Run τ σ α} {answer : Option α} {after : τ → Prop}
    (h : (f s.target).Answers s answer after) : (target >>= f).Answers s answer after := h

/-- A run whose answer is only put in other words. -/
theorem Answers.map {x : Run τ σ α} {answer : Option α} {after : τ → Prop} (g : α → β)
    (hx : x.Answers s answer after) :
    (do let a ← x; return g a : Run τ σ β).Answers s (answer.map g) after := by
  have hbind := hx.bind (f := fun a => pure (g a)) fun a t _ ht => answers_pure (g a) ht
  rw [Option.map_eq_bind]
  exact hbind

/-- A run on a part of the target comes to the answer of the part's own run. -/
theorem Answers.focus {υ : Type} {view : τ → υ} {update : τ → υ → τ} {run : Run υ σ α}
    {answer : Option α} {after : υ → Prop}
    (h : run.Answers ⟨view s.target, s.caller⟩ answer after) :
    (Run.focus view update run).Answers s answer fun t =>
      ∃ u, t = update s.target u ∧ after u := by
  unfold Answers Run.focus at *
  cases answer with
  | some a =>
    obtain ⟨t, hrun, ht⟩ := h
    rw [hrun]
    exact ⟨_, rfl, t.target, rfl, ht⟩
  | none =>
    obtain ⟨e, t, hrun⟩ := h
    rw [hrun]
    exact ⟨e, _, rfl⟩

end Run

namespace Engine

variable {σ : Type}

/-- A record on its way to the final one: another one after it is on the way too, and a field that
has its final value keeps it. -/
structure Nearer (toward : Record → Prop) (final r r' : Record) : Prop where
  toward : toward r'
  settled : ∀ name, r.get? name = final.get? name → r'.get? name = final.get? name

namespace Nearer

variable {toward : Record → Prop} {final r r' r'' : Record}

/-- A record is as near to the final one as itself. -/
theorem refl (h : toward r) : Nearer toward final r r := ⟨h, fun _ h => h⟩

/-- Coming nearer twice is coming nearer. -/
theorem trans (h : Nearer toward final r r') (h' : Nearer toward final r' r'') :
    Nearer toward final r r'' :=
  ⟨h'.toward, fun name hname => h'.settled name (h.settled name hname)⟩

end Nearer

/-- A spec of a field says on a record what it says on the final one; of its message this is asked
only when the field and the fields that the spec depends on have their final values. -/
structure SaysFinally (field : String) (spec : Spec) (validator : Validator) (final r : Record) :
    Prop where
  bind : spec.bind r = spec.bind final
  expected : ∀ arguments, spec.expectedResult r arguments = spec.expectedResult final arguments
  message : r.get? field = final.get? field →
    (∀ d ∈ spec.values.filterMap Param.dependency?, r.get? d = final.get? d) →
    ∀ arguments, (spec.message.getD validator.message).template r arguments =
      (spec.message.getD validator.message).template final arguments

/-- The modules bring every declared field to its value in a final record, without errors and with
data that is known beforehand, from any record on the way; and there the specs say what they say
finally. -/
structure Course (engine : Engine σ) (nested : NestedValidation σ) (rules : Fields Rule)
    (toward : Record → Prop) (final : Record) (aux : String → Fields Value) : Prop where
  prepares : ∀ field rule, (field, rule) ∈ rules → ∀ s : Store Record σ, toward s.target →
    ∃ t, engine.runModules nested field rule.canonical rule.canonical.modules .empty s =
        .ok ⟨aux field, []⟩ t ∧
      Nearer toward final s.target t.target ∧ t.target.get? field = final.get? field
  undeclared : ∀ name, rules.get? name = none → ∀ r, toward r → r.get? name = final.get? name
  specs : ∀ field rule, (field, rule) ∈ rules → ∀ name spec,
    (name, spec) ∈ rule.canonical.validators → ∀ validator,
      engine.validators.get? name = some validator →
        ∀ r, toward r → SaysFinally field spec validator final r

section Runs

variable {engine : Engine σ} {nested : NestedValidation σ} {rules : Fields Rule}
  {toward : Record → Prop} {final : Record} {aux : String → Fields Value}
  {p : String → Option Bool} {depends : String → Run Record σ Bool} {s : Store Record σ}

/-- A dependency is settled as it is known to be, and leaves its final value. -/
def Known (toward : Record → Prop) (final : Record) (depends : String → Run Record σ Bool)
    (p : String → Option Bool) (d : String) : Prop :=
  ∀ s : Store Record σ, toward s.target → (depends d).Answers s (p d) fun r =>
    Nearer toward final s.target r ∧ r.get? d = final.get? d

/-- A run between two events answers as it does without them. -/
theorem during_answers {α : Type} {first last : Event} {run : Run Record σ α} {answer : Option α}
    {after : Record → Prop}
    (h : run.Answers ⟨s.target, engine.observe first s.caller⟩ answer after) :
    (engine.during first last run).Answers s answer after := by
  cases answer with
  | some a =>
    obtain ⟨t, hrun, ht⟩ := h
    exact ⟨_, during_of_ok hrun, ht⟩
  | none =>
    obtain ⟨e, t, hrun⟩ := h
    exact ⟨e, _, during_of_error hrun⟩

/-- A call is assembled from what is known of the dependencies, and those that are looked at for it
have their final values then. -/
theorem assembleCall_answers (params : List BoundParam)
    (hdepends : ∀ d ∈ looked p (params.filterMap BoundParam.dependency?),
      Known toward final depends p d) (htoward : toward s.target) :
    (assembleCall depends params).Answers s
      ((firstFailing p (params.filterMap BoundParam.dependency?)).map (callOn final params))
      fun r => Nearer toward final s.target r ∧
        ∀ d ∈ looked p (params.filterMap BoundParam.dependency?), r.get? d = final.get? d := by
  induction params generalizing s with
  | nil => exact Run.answers_pure _ ⟨.refl htoward, fun _ hd => (nomatch hd)⟩
  | cons param rest ih =>
    cases param with
    | literal v =>
      rw [map_callOn_cons]
      exact (ih hdepends htoward).map _
    | predicate hook =>
      rw [map_callOn_cons]
      exact (ih hdepends htoward).map _
    | dependsOn field =>
      have hdeps : (BoundParam.dependsOn field :: rest).filterMap BoundParam.dependency? =
          field :: rest.filterMap BoundParam.dependency? := rfl
      rw [hdeps, looked] at hdepends ⊢
      rw [firstFailing, Option.map_bind]
      apply (hdepends field List.mem_cons_self s htoward).bind
      rintro passed t hpassed ⟨hnearer, hfield⟩
      cases passed with
      | false =>
        have hfails : ¬ p field = some true := by simp [hpassed]
        rw [if_neg hfails]
        refine Run.answers_pure _ ⟨hnearer, fun d hd => ?_⟩
        rw [List.mem_singleton.1 hd]
        exact hfield
      | true =>
        rw [if_pos hpassed] at hdepends ⊢
        have hrest := ih (fun d hd => hdepends d (List.mem_cons_of_mem _ hd)) hnearer.toward
        have hread : t.target.read field = final.read field := by
          rw [Fields.read, hfield, Fields.read]
        have hcall := hrest.map (Except.map (Call.cons (.value (t.target.read field)) field))
        rw [hread] at hcall
        simp only [Function.comp_apply, if_true]
        rw [map_callOn_cons]
        apply Run.answers_target
        rw [hread]
        refine hcall.imp fun u hu => ⟨hnearer.trans hu.1, fun d hd => ?_⟩
        rcases List.mem_cons.1 hd with rfl | hd
        · exact hu.1.settled d hfield
        · exact hu.2 d hd

/-- A validator comes to the verdict that is read, on a field that has its final value. -/
theorem check_answers {field : String} (name : String) {validator : Validator} {spec : Spec}
    (hspec : ∀ r, toward r → SaysFinally field spec validator final r)
    (hdepends : engine.passesOver validator (final.read field) = false →
      ∀ d ∈ looked p (spec.values.filterMap Param.dependency?), Known toward final depends p d)
    (htoward : toward s.target) (hfield : s.target.get? field = final.get? field) :
    (engine.check depends field name validator spec).Answers s
      (engine.verdictBy final p field validator spec)
      (Nearer toward final s.target) := by
  have hread : s.target.read field = final.read field := by
    rw [Fields.read, hfield, Fields.read]
  unfold check
  apply Run.answers_target
  rw [hread, (hspec s.target htoward).bind]
  cases hover : engine.passesOver validator (final.read field) with
  | true =>
    rw [verdictBy, if_pos hover]
    rw [passesOver] at hover
    rw [if_pos hover]
    exact Run.answers_pure _ (.refl htoward)
  | false =>
    have hlooked := hdepends hover
    rw [verdictBy_of_not_passesOver hover]
    rw [passesOver] at hover
    rw [hover, if_neg Bool.false_ne_true]
    rw [← Spec.dependencies_bind final] at hlooked
    have hcall := assembleCall_answers (spec.bind final) hlooked htoward
    apply hcall.bind
    rintro call t hanswer ⟨ht, hsettled⟩
    cases call with
    | error dependency => exact ⟨_, rfl, ht⟩
    | ok call =>
      -- The call is complete, so all dependencies have been looked at.
      obtain ⟨failing, hfailing, hcalled⟩ := Option.map_eq_some_iff.1 hanswer
      rw [callOn_eq_ok hcalled] at hfailing
      rw [looked_of_none_failing hfailing, Spec.dependencies_bind] at hsettled
      have hown := ht.settled field hfield
      have hfinally := hspec t.target ht.toward
      have hvalue : t.target.read field = final.read field := by
        rw [Fields.read, hown, Fields.read]
      apply Run.answers_target
      dsimp only
      rw [hvalue, hfinally.expected, hfinally.message hown hsettled, verdictOf]
      split <;> exact Run.answers_pure _ ht

/-- Looked-up validators come to the verdicts that are read. -/
theorem checkAll_answers {field : String} {specs : Fields Spec}
    {found : List (String × Validator × Spec)} (hfound : engine.findAll specs = .ok found)
    (hspecs : ∀ name spec, (name, spec) ∈ specs → ∀ validator,
      engine.validators.get? name = some validator →
        ∀ r, toward r → SaysFinally field spec validator final r)
    (hdepends : ∀ name spec, (name, spec) ∈ specs → ∀ validator,
      engine.validators.get? name = some validator →
        engine.passesOver validator (final.read field) = false →
          ∀ d ∈ looked p (spec.values.filterMap Param.dependency?), Known toward final depends p d)
    (htoward : toward s.target) (hfield : s.target.get? field = final.get? field) :
    (engine.checkAll depends field found).Answers s
      (specs.mapM (engine.verdict? final p field))
      (Nearer toward final s.target) := by
  induction specs generalizing found s with
  | nil =>
    cases hfound
    exact Run.answers_pure _ (.refl htoward)
  | cons entry rest ih =>
    obtain ⟨name, spec⟩ := entry
    rw [findAll, except_bind_eq_ok] at hfound
    obtain ⟨validator, hfind, hfound⟩ := hfound
    obtain ⟨others, hothers, hfound⟩ := except_bind_eq_ok.1 hfound
    cases hfound
    have hget := find_eq_ok.1 hfind
    have hhead := List.mem_cons_self (a := (name, spec)) (l := rest)
    have hcheck := check_answers name (hspecs name spec hhead validator hget)
      (hdepends name spec hhead validator hget) htoward hfield
    rw [List.mapM_cons, verdict?, hget, Option.bind_some]
    rw [Option.bind_eq_bind, Option.bind_map]
    apply hcheck.bind
    intro verdict t _ ht
    have hrest := ih hothers (fun name spec hmem => hspecs name spec (List.mem_cons_of_mem _ hmem))
      (fun name spec hmem => hdepends name spec (List.mem_cons_of_mem _ hmem)) ht.toward
      (ht.settled field hfield)
    apply hrest.bind
    intro verdicts u _ hu
    exact Run.answers_pure _ (ht.trans hu)

/-- Without all of its validators registered nothing can be read of a rule. -/
theorem mapM_verdict?_of_error {field : String} {specs : Fields Spec} {e : SetupError}
    (h : engine.findAll specs = .error e) : specs.mapM (engine.verdict? final p field) = none := by
  obtain ⟨name, hname, hget, -⟩ := findAll_error h
  obtain ⟨⟨_, spec⟩, hmem, rfl⟩ := List.mem_map.1 hname
  cases hread : specs.mapM (engine.verdict? final p field) with
  | none => rfl
  | some verdicts =>
    have hverdict := isSome_of_mapM (by rw [hread]; rfl) hmem
    rw [verdict?, hget] at hverdict
    cases hverdict

variable {field : String} {rule : Rule}

/-- A declared field is judged to have the errors that are read. -/
theorem Course.judge_answers (hcourse : engine.Course nested rules toward final aux)
    (hrule : (field, rule) ∈ rules) (force : Bool)
    (hdepends : ∀ d, engine.Looks final p field rule d → Known toward final depends p d)
    (s : Store Record σ) (htoward : toward s.target) :
    (engine.judge nested depends field rule force).Answers s
      ((engine.findingsBy final p field rule).map fun errors => .of force errors (aux field))
      fun r => Nearer toward final s.target r ∧ r.get? field = final.get? field := by
  unfold judge findingsBy
  cases hfound : engine.findAll rule.canonical.validators with
  | error e =>
    rw [mapM_verdict?_of_error hfound]
    exact ⟨e, s, rfl⟩
  | ok found =>
    obtain ⟨t, hpass, ht, hfield⟩ := hcourse.prepares field rule hrule s htoward
    have hchecks := checkAll_answers hfound (hcourse.specs field rule hrule)
      (fun name spec hmem validator hget hover d hd =>
        hdepends d ⟨name, spec, validator, hmem, hget, hover, hd⟩) ht.toward hfield
    rw [Run.ofExcept_ok, pure_bind, Option.map_map, Option.map_eq_bind]
    apply Run.answers_of_ok hpass
    apply hchecks.bind
    intro verdicts u _ hu
    have hafter : Nearer toward final s.target u.target ∧
        u.target.get? field = final.get? field :=
      ⟨ht.trans hu, hu.settled field hfield⟩
    have hmerge : (failures verdicts).merge [] = failures verdicts := rfl
    simp only [hmerge, Function.comp_apply, FieldResult.of]
    split <;> exact Run.answers_pure _ hafter

/-- A result passes if there are no errors. -/
theorem passes_comp_of (aux : Fields Value) :
    (FieldResult.passes ∘ fun errors => FieldResult.of false errors aux) = List.isEmpty := by
  funext errors
  cases errors <;> rfl

/-- A dependency passes if it is read to pass, whichever fields are in progress. The induction is on
the depth of the reading, which is no less than the number of declared fields not in progress. -/
theorem Course.dependencyPasses_known (hcourse : engine.Course nested rules toward final aux)
    {inProgress : List String} {d : String} {depth : Nat}
    (habove : engine.Above rules final inProgress d)
    (hdepth : (idle rules inProgress).length ≤ depth) :
    Known toward final (engine.dependencyPasses nested rules inProgress)
      (engine.passes? rules final depth) d := by
  induction depth using Nat.strong_induction_on generalizing inProgress d with
  | _ depth ih =>
    intro s htoward
    by_cases hmem : d ∈ inProgress
    · rw [dependencyPasses_of_mem hmem, passes?, habove.findings_eq_none hmem]
      exact ⟨_, s, rfl⟩
    · cases hget : rules.get? d with
      | none =>
        have hstay : Nearer toward final s.target s.target ∧ s.target.get? d = final.get? d :=
          ⟨.refl htoward, hcourse.undeclared d hget _ htoward⟩
        rw [dependencyPasses_undeclared hmem hget, passes?, findings_undeclared hget]
        apply during_answers
        exact Run.answers_pure true hstay
      | some rule =>
        have hrule : (d, rule) ∈ rules := Fields.mem_of_get? hget
        have hless : (idle rules (inProgress ++ [d])).length < (idle rules inProgress).length :=
          length_idle_lt (List.mem_map_of_mem hrule) hmem
        obtain ⟨less, rfl⟩ : ∃ less, depth = less + 1 := ⟨depth - 1, by omega⟩
        rw [dependencyPasses_declared hmem hget, passes?, findings_succ hget]
        apply during_answers
        have hknown : ∀ e, engine.Looks final (engine.passes? rules final less) d rule e →
            Known toward final (engine.dependencyPasses nested rules (inProgress ++ [d]))
              (engine.passes? rules final less) e := by
          intro e he
          apply ih less (by omega) (habove.extend hget he)
          omega
        have hjudge := hcourse.judge_answers hrule false hknown
          ⟨s.target, engine.observe (.entered rules.keys (inProgress ++ [d])) s.caller⟩ htoward
        have hpasses := hjudge.map FieldResult.passes
        rw [Option.map_map, passes_comp_of] at hpasses
        exact hpasses

/-- A declared field is evaluated to the errors that are read. -/
theorem Course.judgeWithin_answers (hcourse : engine.Course nested rules toward final aux)
    (hget : rules.get? field = some rule) (force : Bool) (htoward : toward s.target) :
    (engine.judgeWithin nested rules [] field rule force).Answers s
      ((engine.findings rules final (rules.length + 1) field).map fun errors =>
        .of force errors (aux field))
      fun r => Nearer toward final s.target r ∧ r.get? field = final.get? field := by
  have hknown : ∀ d, engine.Looks final (engine.passes? rules final rules.length) field rule d →
      Known toward final (engine.dependencyPasses nested rules [field])
        (engine.passes? rules final rules.length) d := by
    intro d hd
    apply hcourse.dependencyPasses_known ((Above.start field).extend hget hd)
    have hkeys : rules.keys.length = rules.length := List.length_map _
    rw [← hkeys]
    exact List.length_filter_le _ _
  rw [findings_succ hget]
  apply during_answers
  exact hcourse.judge_answers (Fields.mem_of_get? hget) force hknown
    ⟨s.target, engine.observe (.entered rules.keys ([] ++ [field])) s.caller⟩ htoward

/-- The report of a declared field, read off a record. -/
def reportOn (engine : Engine σ) (rules : Fields Rule) (record : Record)
    (aux : String → Fields Value) (entry : String × Rule) : Option (String × Report) :=
  (engine.findings rules record (rules.length + 1) entry.1).map fun errors =>
    (entry.1, ⟨errors, aux entry.1⟩)

/-- Forced to report, fields are evaluated to the reports that are read. -/
theorem Course.judgeAll_answers (hcourse : engine.Course nested rules toward final aux)
    (hdistinct : rules.Distinct) {turns : List (String × Rule)}
    (hturns : ∀ entry ∈ turns, entry ∈ rules) (htoward : toward s.target) :
    (engine.judgeAll nested rules true turns).Answers s
      (turns.mapM (engine.reportOn rules final aux))
      fun r => Nearer toward final s.target r ∧
        ∀ entry ∈ turns, r.get? entry.1 = final.get? entry.1 := by
  induction turns generalizing s with
  | nil => exact Run.answers_pure [] ⟨.refl htoward, fun _ hentry => nomatch hentry⟩
  | cons turn rest ih =>
    obtain ⟨field, rule⟩ := turn
    have hget := Fields.get?_of_mem hdistinct (hturns _ List.mem_cons_self)
    have hfirst := hcourse.judgeWithin_answers hget true htoward
    have hanswer : ((field, rule) :: rest).mapM (engine.reportOn rules final aux) =
        ((engine.findings rules final (rules.length + 1) field).map fun errors =>
          FieldResult.of true errors (aux field)).bind fun result =>
            (rest.mapM (engine.reportOn rules final aux)).bind fun others =>
              some (result.casesOn others fun report => (field, report) :: others) := by
      rw [List.mapM_cons, reportOn, Option.bind_eq_bind, Option.bind_map, Option.bind_map]
      rfl
    rw [hanswer]
    apply hfirst.bind
    rintro result t - ⟨ht, hfield⟩
    have hrest := ih (fun entry hentry => hturns entry (List.mem_cons_of_mem _ hentry)) ht.toward
    apply hrest.bind
    rintro others u - ⟨hu, hothers⟩
    have hafter : Nearer toward final s.target u.target ∧
        ∀ entry ∈ (field, rule) :: rest, u.target.get? entry.1 = final.get? entry.1 := by
      refine ⟨ht.trans hu, fun entry hentry => ?_⟩
      rcases List.mem_cons.1 hentry with rfl | hentry
      · exact hu.settled field hfield
      · exact hothers entry hentry
    cases result with
    | valid => exact Run.answers_pure _ hafter
    | checked report => exact Run.answers_pure _ hafter

end Runs

end Engine

/-- An outcome as it is returned, with or without a forced report. -/
def Outcome.returned (force : Bool) (forced : Outcome) : Outcome :=
  if force then forced else forced.unforced

namespace Engine

variable {σ : Type} {engine : Engine σ} {rules : Fields Rule} {toward : Record → Prop}
  {final : Record} {aux : String → Fields Value}

/-- Validating fields, forced or not, returns what the forced validation reports. -/
theorem validateFields_returned {nested : NestedValidation σ} (force : Bool) :
    engine.validateFields nested rules force =
      Outcome.returned force <$> engine.validateFields nested rules true := by
  cases force with
  | true =>
    have hid : Outcome.returned true = id := rfl
    rw [hid, id_map]
  | false =>
    have hcut : Outcome.returned false = Outcome.unforced := rfl
    rw [hcut, validateFields_unforced]

/-- Forced to report, a record is validated to the reports that are read, and every field of it has
its final value. -/
theorem Course.validateFields_answers {nested : NestedValidation σ}
    (hcourse : engine.Course nested rules toward final aux) (hdistinct : rules.Distinct)
    {members : Record} (htoward : toward members) (c : σ) :
    (engine.validateFields nested rules true).Answers ⟨.object members, c⟩
      ((rules.mapM (engine.reportOn rules final aux)).map Outcome.fields)
      fun v => ∃ r : Record, v = .object r ∧ toward r ∧ ∀ name, r.get? name = final.get? name := by
  have hall : (engine.judgeAll nested rules true rules).Answers ⟨members, c⟩ _ _ :=
    hcourse.judgeAll_answers hdistinct (fun _ h => h) htoward
  have hfocus : (Run.focus recordOf withRecord (engine.judgeAll nested rules true rules)).Answers
      ⟨.object members, c⟩ _ _ := Run.Answers.focus hall
  have hreports : (do
      let reports ← Run.focus recordOf withRecord (engine.judgeAll nested rules true rules)
      return Outcome.fields reports : Run Value σ Outcome).Answers ⟨.object members, c⟩
      ((rules.mapM (engine.reportOn rules final aux)).map Outcome.fields)
      fun v => ∃ r : Record, v = .object r ∧ toward r ∧
        ∀ name, r.get? name = final.get? name := by
    refine (hfocus.map Outcome.fields).imp ?_
    rintro _ ⟨r, rfl, hr, hsettled⟩
    refine ⟨r, rfl, hr.toward, fun name => ?_⟩
    cases hget : rules.get? name with
    | none => exact hcourse.undeclared name hget r hr.toward
    | some rule => exact hsettled _ (Fields.mem_of_get? hget)
  -- There is something to validate, and the reports are not cut down.
  exact hreports

/-- A record is validated to the reports that are read, and every field has its final value. -/
theorem Course.validate_answers
    (hcourse : engine.Course (engine.nestedWithin engine.nestingLimit (Rules.fields rules).weight)
      rules toward final aux)
    (hdistinct : rules.Distinct) {members : Record} (htoward : toward members) (force : Bool)
    (c : σ) :
    (engine.validate (.fields rules) force).Answers ⟨.object members, c⟩
      ((rules.mapM (engine.reportOn rules final aux)).map fun reports =>
        (Outcome.fields reports).returned force)
      fun v => ∃ r : Record, v = .object r ∧ toward r ∧
        ∀ name, r.get? name = final.get? name := by
  have hforced := hcourse.validateFields_answers hdistinct htoward c
  have hreturned := hforced.map (Outcome.returned force)
  rw [Option.map_map] at hreturned
  rw [validate, validateBy, validateFields_returned, map_eq_pure_bind]
  exact hreturned

end Engine

end Vetting
