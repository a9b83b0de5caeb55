import Vetting.Proofs.LikeModules
import Vetting.Proofs.RelatedEvaluations

/-!
# The evaluation of like fields

A field of two like records is evaluated by two like rules with equal reports: its validators are
looked up under the same names and do the same with the field, and its modules write like values
(`Impartial.judge`). What is asked of the engine is that its modules are the built-in ones and that
its validators do not tell like values apart; nested runs come in as an assumption on rules below
some weight (`Impartial`).
-/

set_option autoImplicit false

namespace Vetting

variable {σ : Type} {E : Value.Likeness}

/-! ## Validators -/

/-- Like specs that are bound to like records have related parameters. -/
theorem Spec.Like.bind {spec spec' : Spec} {r r' : Record} (h : spec.Like E spec')
    (hr : E.Records r r') :
    List.Forall₂ (BoundParam.Related (Argument.Like E)) (spec.bind r) (spec'.bind r') := by
  have hliteral : ∀ v v', E.rel v v' →
      BoundParam.Related (Argument.Like E) (.literal v) (.literal v') :=
    fun _ _ h => .literal (.value h) (E.unordered h).display_eq
  refine List.forall₂_map_left_iff.2 (List.forall₂_map_right_iff.2 (h.values.imp ?_))
  intro param param' hparam
  cases hparam with
  | literal h => exact hliteral _ _ h
  | computed h => exact hliteral _ _ (h r r' hr)
  | dependsOn field => exact .dependsOn field
  | predicate h => exact .predicate (.predicate h)

/-- The message of a spec, or else that of its validator. -/
theorem Spec.Like.messageOr {spec spec' : Spec} {default default' : Message} (h : spec.Like E spec')
    (hdefault : default.Like E default') :
    (spec.message.getD default).Like E (spec'.message.getD default') := by
  obtain ⟨_, message, _⟩ := spec
  obtain ⟨_, message', _⟩ := spec'
  obtain ⟨-, hmessage, -⟩ := h
  cases hmessage with
  | none => exact hdefault
  | some hmessage => exact hmessage

/-- A validator that tells no like values apart does the same with a field of like records, by like
specs. -/
theorem Validator.Discreet.checkRelated {validator : Validator} (h : validator.Discreet E)
    {spec spec' : Spec} (hspec : spec.Like E spec') (field : String) :
    CheckRelated E.Records (Argument.Like E) field (validator, spec) (validator, spec') where
  presence := rfl
  blank r r' hr := (E.unordered (hr.read field)).isBlank_eq
  params r r' hr := hspec.bind hr
  passes r r' args args' hr hargs := by
    rw [h.check _ _ _ _ (hr.read field) hargs, hspec.expectedResult hr hargs]
  message r r' args args' hr hargs := (hspec.messageOr h.message).template hr hargs

/-- By like specs the same validators are looked up. -/
theorem Engine.findAll_related {engine : Engine σ} (hdiscreet : engine.Discreet E) (field : String)
    {specs specs' : Fields Spec} (h : Fields.Paired (fun _ => Spec.Like E) specs specs') :
    SameErrorOr (FoundRelated E.Records (Argument.Like E) field) (engine.findAll specs)
      (engine.findAll specs') := by
  induction h with
  | nil => exact .ok .nil
  | @cons name spec spec' rest rest' _ hspec _ ih =>
    rw [findAll, findAll]
    cases hget : engine.validators.find name with
    | error e => exact .error e
    | ok validator =>
      have hvalidator : validator.Discreet E := hdiscreet name validator (find_eq_ok.1 hget)
      generalize engine.findAll rest = others, engine.findAll rest' = others' at ih
      cases ih with
      | error e => exact .error e
      | ok hothers => exact .ok (.cons ⟨rfl, hvalidator.checkRelated hspec field⟩ hothers)

/-! ## Fields -/

/-- Two heaps of contributions are like: with data under the same names that is like, and with equal
errors. -/
structure Contributions.Like (E : Value.Likeness) (results results' : Contributions) : Prop where
  aux : E.Records results.aux results'.aux
  errors : Findings.Alike results.errors results'.errors

/-- No contributions are like no contributions. -/
theorem Contributions.Like.empty : Contributions.empty.Like E .empty := ⟨E.empty, .nil⟩

/-- Contributions stay alike when like ones are added under one name. -/
theorem Contributions.Like.add {results results' : Contributions} (h : results.Like E results')
    (name : String) {output output' : Option Contribution}
    (houtput : Option.Rel (Contribution.Like E) output output') :
    (results.add name output).Like E (results'.add name output') := by
  cases houtput with
  | none => exact h
  | some houtput =>
    cases houtput with
    | aux hv => exact ⟨h.aux.put name hv, h.errors⟩
    | errors herrors => exact ⟨h.aux, h.errors.merge herrors⟩

/-- The rules for nested records that a rule of a field configures are lighter than a bound. -/
def Rule.NestsBelow (field : String) (bound : Nat) (rule : Rule) : Prop :=
  ∀ name config, (name, config) ∈ rule.canonical.modules → ∀ inner,
    Module.nestedRules field config = .ok inner → inner.weight < bound

namespace Engine

variable {engine : Engine σ} {nested : NestedValidation σ} {field : String} {bound : Nat}

/-- A failure is reported under the name of its validator. -/
theorem mem_keys_of_failures {verdicts : List (String × Verdict)} {name : String}
    (h : name ∈ (failures verdicts).keys) : name ∈ Fields.keys verdicts := by
  obtain ⟨entry, hentry, rfl⟩ := List.mem_map.1 h
  obtain ⟨verdict, hverdict, hfailed⟩ := List.mem_filterMap.1 hentry
  obtain ⟨text, -, rfl⟩ := Option.map_eq_some_iff.1 hfailed
  exact List.mem_map_of_mem hverdict

/-- The failures among verdicts of distinct names are like themselves. -/
theorem failures_alike {verdicts : List (String × Verdict)} (h : Fields.Distinct verdicts) :
    Findings.Alike (failures verdicts) (failures verdicts) := by
  induction verdicts with
  | nil => exact .nil
  | cons entry rest ih =>
    obtain ⟨name, verdict⟩ := entry
    obtain ⟨fresh, hrest⟩ := List.nodup_cons.1 h
    have hothers := ih hrest
    unfold failures at hothers ⊢
    rw [List.filterMap_cons]
    cases verdict.message? with
    | none => exact hothers
    | some text =>
      refine .cons (fun hmem => fresh (mem_keys_of_failures hmem)) ?_ hothers
      rw [Finding.same]
      exact beq_self_eq_true text

/-- An engine with the built-in modules treats like things alike: its validators do not tell them
apart, and nested runs over like rules below a weight correspond. -/
structure Impartial (E : Value.Likeness) (engine : Engine σ) (nested : NestedValidation σ)
    (bound : Nat) : Prop where
  modules : engine.modules = KnownModules.builtin
  discreet : engine.Discreet E
  nested : ∀ inner inner', inner.weight < bound → inner.Like E inner' →
    Outcome.Corresponds E (nested inner false) (nested inner' false)

namespace Impartial

variable (h : engine.Impartial E nested bound)

include h

/-- Like configurations of one module run alike. -/
theorem runModule {form form' : CanonicalForm}
    (hforms : Fields.Paired (Configuration.Like E field) form.modules form'.modules)
    {name : String} {module : Module σ} (hmem : (name, module) ∈ Module.builtins)
    {config config' : Configuration} (hconfig : config.Like E field name config')
    (hlighter : ∀ inner, Module.nestedRules field config = .ok inner → inner.weight < bound) :
    Run.Corresponds E.Records (Option.Rel (Contribution.Like E))
      (engine.runModule nested field form config module)
      (engine.runModule nested field form' config' module) := by
  refine runModule_related (W := Option.Rel E.rel) .none ?_ fun r r' hr => ?_
  · intro r r' written written' hr hwritten
    cases hwritten with
    | none => exact hr
    | some hv => exact hr.put field hv
  · refine Module.builtin_corresponds hmem ⟨rfl, rfl, hr, hforms⟩ hconfig ?_
    intro inner inner' hinner hlike
    refine Run.related_target fun v v' _ => ?_
    exact related_during (h.nested inner inner' (hlighter inner hinner) hlike)
      (fun _ _ _ => trivial) fun _ _ _ => trivial

/-- Like configurations in the same order run alike, one module after the other. -/
theorem runModules {form form' : CanonicalForm}
    (hforms : Fields.Paired (Configuration.Like E field) form.modules form'.modules)
    (hlighter : ∀ name config, (name, config) ∈ form.modules → ∀ inner,
      Module.nestedRules field config = .ok inner → inner.weight < bound) :
    Run.Corresponds E.Records (Contributions.Like E)
      (engine.runModules nested field form form.modules .empty)
      (engine.runModules nested field form' form'.modules .empty) := by
  refine runModules_related (C := Option.Rel (Contribution.Like E))
    (fun _ _ name _ _ hresults houtput => hresults.add name houtput) ?_ .empty
  refine (hforms.mono fun name config config' hmem hconfig => ?_).parallel
  rw [h.modules]
  cases hget : (KnownModules.builtin : KnownModules σ).get? name with
  | none => exact .none
  | some module =>
    exact .some (h.runModule hforms (KnownModules.mem_of_builtin_get? hget) hconfig
      (hlighter name config hmem))

/-- Like rules of a field give equal reports on like records, if the fields that they depend on pass
alike. -/
theorem judge {rule rule' : Rule} (hrule : rule.Like E field rule')
    (hbelow : rule.NestsBelow field bound) :
    JudgeRelated noError E.Records (fun _ _ => True) (Argument.Like E)
      (fun a b => a.same b = true) engine engine nested nested field rule rule' := by
  intro depends depends' force hdepends
  refine judge_related ⟨rfl, fun _ _ _ _ => trivial⟩
    (Run.related_ofExcept (findAll_related h.discreet field hrule.validators).with_eq) ?_ hdepends
    force
  refine (h.runModules hrule.modules hbelow).imp fun results results' hresults => ?_
  intro found verdicts hfind hkeys
  have hdistinct : Fields.Distinct verdicts := by
    rw [Fields.Distinct, hkeys, keys_of_findAll hfind]
    exact hrule.validators.distinct
  have herrors := (failures_alike hdistinct).merge hresults.errors
  have haux := (E.unordered hresults.aux).same
  refine ⟨herrors.isEmpty_eq, ?_⟩
  change Report.same _ _ = true
  rw [Report.same, Finding.sameAll_of_paired herrors, haux, Bool.and_true, Bool.and_true]
  exact beq_iff_eq.2 herrors.length_eq

end Impartial

end Engine

end Vetting
